import QdsBuffer.Library.LockOrder

namespace LockOrder

variable {μ σ τ : Type}

section
variable {α : Type} {ts : List α} {i j : Nat} {t u v : α}

theorem set_same (h : ts[i]? = some t) : ts.set i t = ts := by
  obtain ⟨hlt, rfl⟩ := List.getElem?_eq_some_iff.mp h
  exact List.set_getElem_self hlt

theorem getElem?_set_cases (h : (ts.set i t)[j]? = some u) :
    (j = i ∧ u = t) ∨ (j ≠ i ∧ ts[j]? = some u) := by
  rw [List.getElem?_set] at h
  split at h
  · next hij =>
    split at h
    · exact .inl ⟨hij.symm, (Option.some.inj h).symm⟩
    · cases h
  · next hij => exact .inr ⟨Ne.symm hij, h⟩

theorem getElem?_set_of_some (ht : ts[i]? = some t) (v : α) : (ts.set i v)[i]? = some v := by
  obtain ⟨hlt, -⟩ := List.getElem?_eq_some_iff.mp ht
  exact List.getElem?_set_self hlt

theorem getElem?_set_self (ht : ts[i]? = some t) (hu : (ts.set i v)[i]? = some u) : u = v :=
  Option.some.inj (hu.symm.trans (getElem?_set_of_some ht v))

end

def Conflict (lock lock' : μ × Mode) : Prop :=
  lock.1 = lock'.1 ∧ (lock.2 = .exclusive ∨ lock'.2 = .exclusive)

theorem Conflict.symm {lock lock' : μ × Mode} (h : Conflict lock lock') : Conflict lock' lock :=
  ⟨h.1.symm, h.2.symm⟩

-- No two threads hold locks that exclude each other.
def Exclusion (threads : List (Thread μ σ)) : Prop :=
  ∀ (i j : Nat) (t u : Thread μ σ), i ≠ j → threads[i]? = some t → threads[j]? = some u →
    ∀ lock ∈ t.held, ∀ lock' ∈ u.held, ¬Conflict lock lock'

theorem Granted.no_conflict {threads : List (Thread μ σ)} {m : μ} {mode : Mode}
    (h : Granted threads m mode) {u : Thread μ σ} (hu : u ∈ threads) {lock : μ × Mode}
    (hl : lock ∈ u.held) : ¬Conflict (m, mode) lock := by
  rintro ⟨hm, hmode⟩
  cases mode with
  | exclusive => exact h u hu lock hl hm.symm
  | shared =>
    rcases hmode with hx | hx
    · cases hx
    · have hlock : lock = (m, .exclusive) := Prod.ext hm.symm hx
      rw [hlock] at hl
      exact h u hu hl

theorem exclusion_set {threads : List (Thread μ σ)} {i : Nat} {t' : Thread μ σ}
    (h : Exclusion threads)
    (hnew : ∀ (j : Nat) (u : Thread μ σ), j ≠ i → threads[j]? = some u →
      ∀ lock ∈ t'.held, ∀ lock' ∈ u.held, ¬Conflict lock lock') :
    Exclusion (threads.set i t') := by
  intro j k t u hjk ht hu lock hl lock' hl'
  rcases getElem?_set_cases ht with ⟨hj, rfl⟩ | ⟨hj, htold⟩
  · rcases getElem?_set_cases hu with ⟨hk, rfl⟩ | ⟨hk, huold⟩
    · exact absurd (hj.trans hk.symm) hjk
    · exact hnew k u hk huold lock hl lock' hl'
  · rcases getElem?_set_cases hu with ⟨hk, rfl⟩ | ⟨hk, huold⟩
    · exact fun hc => hnew j t hj htold lock' hl' lock hl hc.symm
    · exact h j k t u hjk htold huold lock hl lock' hl'

theorem start_exclusion (s : σ) (progs : List (Prog μ σ)) : Exclusion (start s progs).threads := by
  intro i j t u _ ht _ lock hl
  obtain ⟨p, -, rfl⟩ := List.mem_map.mp (List.mem_of_getElem? ht)
  cases hl

def Unfinished (sys : System μ σ) (i : Nat) : Prop :=
  ∃ t, sys.threads[i]? = some t ∧ t.rest ≠ .done

theorem done_of_not_unfinished {sys : System μ σ} (h : ∀ i, ¬Unfinished sys i) :
    ∀ t ∈ sys.threads, t.rest = .done := by
  intro t ht
  obtain ⟨i, hi⟩ := List.mem_iff_getElem?.mp ht
  by_contra hrest
  exact h i ⟨t, hi, hrest⟩

-- A change goes along R unless it is made under one of the guards.
def Guarded (R : σ → σ → Prop) (guards : List (μ × Mode)) (held : List (μ × Mode)) (f : σ → σ) :
    Prop :=
  (∀ s, R s (f s)) ∨ ∃ lock ∈ held, lock ∈ guards

def Agree (view : σ → τ) (s s' : σ) : Prop := view s' = view s

theorem agree_refl (view : σ → τ) (s : σ) : Agree view s s := rfl

theorem agree_trans (view : σ → τ) (a b c : σ) (hab : Agree view a b) (hbc : Agree view b c) :
    Agree view a c :=
  hbc.trans hab

section

variable [DecidableEq μ]

-- What one turn of thread i makes of the system.
inductive StepCase (sys : System μ σ) (i : Nat) (sys' : System μ σ) : Prop
  | idle (h : sys' = sys)
  | acquired (t : Thread μ σ) (m : μ) (mode : Mode) (next : Prog μ σ)
      (ht : sys.threads[i]? = some t) (hrest : t.rest = .acquire m mode next)
      (hgranted : Granted sys.threads m mode)
      (h : sys' = ⟨sys.state, sys.threads.set i ⟨(m, mode) :: t.held, next⟩⟩)
  | released (t : Thread μ σ) (m : μ) (mode : Mode) (next : Prog μ σ)
      (ht : sys.threads[i]? = some t) (hrest : t.rest = .release m mode next)
      (h : sys' = ⟨sys.state, sys.threads.set i ⟨t.held.erase (m, mode), next⟩⟩)
  | acted (t : Thread μ σ) (f : σ → σ) (next : σ → Prog μ σ)
      (ht : sys.threads[i]? = some t) (hrest : t.rest = .act f next)
      (h : sys' = ⟨f sys.state, sys.threads.set i ⟨t.held, next sys.state⟩⟩)

theorem step_case (sys : System μ σ) (i : Nat) : StepCase sys i (step sys i) := by
  unfold step
  cases ht : sys.threads[i]? with
  | none => exact .idle rfl
  | some t =>
    have hidle : StepCase sys i ⟨sys.state, sys.threads.set i t⟩ := .idle (by rw [set_same ht])
    simp only [turn]
    cases hrest : t.rest with
    | done => exact hidle
    | acquire m mode next =>
      simp only
      split
      · next hgranted => exact .acquired t m mode next ht hrest hgranted rfl
      · exact hidle
    | release m mode next => exact .released t m mode next ht hrest rfl
    | act f next => exact .acted t f next ht hrest rfl

theorem step_keeps_others (sys : System μ σ) {i j : Nat} (hij : j ≠ i) :
    (step sys j).threads[i]? = sys.threads[i]? := by
  cases step_case sys j with
  | idle h => rw [h]
  | acquired _ _ _ _ _ _ _ h => rw [h, List.getElem?_set_ne hij]
  | released _ _ _ _ _ _ h => rw [h, List.getElem?_set_ne hij]
  | acted _ _ _ _ _ h => rw [h, List.getElem?_set_ne hij]

theorem step_length (sys : System μ σ) (i : Nat) :
    (step sys i).threads.length = sys.threads.length := by
  cases step_case sys i with
  | idle h => rw [h]
  | acquired _ _ _ _ _ _ _ h => rw [h, List.length_set]
  | released _ _ _ _ _ _ h => rw [h, List.length_set]
  | acted _ _ _ _ _ h => rw [h, List.length_set]

theorem run_length (sys : System μ σ) (schedule : List Nat) :
    (Runs.run step sys schedule).threads.length = sys.threads.length :=
  Runs.run_invariant (I := fun sys' : System μ σ => sys'.threads.length = sys.threads.length)
    (fun sys' i h => (step_length sys' i).trans h) schedule rfl

theorem step_unfinished {sys : System μ σ} {i j : Nat} (h : Unfinished (step sys j) i) :
    Unfinished sys i := by
  obtain ⟨u, hu, hrest⟩ := h
  by_cases hij : j = i
  · subst hij
    cases step_case sys j with
    | idle hstep => exact ⟨u, hstep ▸ hu, hrest⟩
    | acquired t m mode next ht hnext _ _ => exact ⟨t, ht, by rw [hnext]; nofun⟩
    | released t m mode next ht hnext _ => exact ⟨t, ht, by rw [hnext]; nofun⟩
    | acted t f next ht hnext _ => exact ⟨t, ht, by rw [hnext]; nofun⟩
  · rw [step_keeps_others sys hij] at hu
    exact ⟨u, hu, hrest⟩

-- A holds of every change of the state that the program makes, beside the locks then held.
def Prog.Every (A : List (μ × Mode) → (σ → σ) → Prop) : List (μ × Mode) → Prog μ σ → Prop
  | _, .done => True
  | held, .acquire m mode next => next.Every A ((m, mode) :: held)
  | held, .release m mode next => next.Every A (held.erase (m, mode))
  | held, .act f next => A held f ∧ ∀ s, (next s).Every A held

def Thread.Every (A : List (μ × Mode) → (σ → σ) → Prop) (t : Thread μ σ) : Prop :=
  t.rest.Every A t.held

variable {A B : List (μ × Mode) → (σ → σ) → Prop}

theorem Prog.Every.mono (hAB : ∀ held f, A held f → B held f) {held : List (μ × Mode)}
    {p : Prog μ σ} (h : p.Every A held) : p.Every B held := by
  induction p generalizing held with
  | done => trivial
  | acquire m mode next ih => exact ih h
  | release m mode next ih => exact ih h
  | act f next ih => exact ⟨hAB held f h.1, fun s => ih s (h.2 s)⟩

theorem release_every {m : μ} {mode : Mode} {held : List (μ × Mode)} {next : Prog μ σ}
    (h : next.Every A held) : (Prog.release m mode next).Every A ((m, mode) :: held) := by
  change next.Every A (List.erase ((m, mode) :: held) (m, mode))
  rwa [List.erase_cons_head]

theorem step_every_at (sys : System μ σ) (j : Nat) {i : Nat}
    (h : ∀ t, sys.threads[i]? = some t → t.Every A) {u : Thread μ σ}
    (hu : (step sys j).threads[i]? = some u) : u.Every A := by
  by_cases hij : j = i
  · subst hij
    cases step_case sys j with
    | idle hstep =>
      rw [hstep] at hu
      exact h u hu
    | acquired t m mode next ht hrest _ hstep =>
      have hold := h t ht
      rw [Thread.Every, hrest] at hold
      rw [hstep] at hu
      rw [getElem?_set_self ht hu]
      exact hold
    | released t m mode next ht hrest hstep =>
      have hold := h t ht
      rw [Thread.Every, hrest] at hold
      rw [hstep] at hu
      rw [getElem?_set_self ht hu]
      exact hold
    | acted t f next ht hrest hstep =>
      have hold := h t ht
      rw [Thread.Every, hrest] at hold
      rw [hstep] at hu
      rw [getElem?_set_self ht hu]
      exact hold.2 sys.state
  · rw [step_keeps_others sys hij] at hu
    exact h u hu

theorem step_every (sys : System μ σ) (j : Nat) (h : ∀ t ∈ sys.threads, t.Every A) :
    ∀ t ∈ (step sys j).threads, t.Every A := by
  intro t ht
  obtain ⟨i, hi⟩ := List.mem_iff_getElem?.mp ht
  exact step_every_at sys j (fun u hu => h u (List.mem_of_getElem? hu)) hi

theorem start_every {s : σ} {progs : List (Prog μ σ)} (h : ∀ p ∈ progs, p.Every A []) :
    ∀ t ∈ (start s progs).threads, t.Every A := by
  intro t ht
  obtain ⟨p, hp, rfl⟩ := List.mem_map.mp ht
  exact h p hp

theorem run_every {sys : System μ σ} (schedule : List Nat) (h : ∀ t ∈ sys.threads, t.Every A) :
    ∀ t ∈ (Runs.run step sys schedule).threads, t.Every A :=
  Runs.run_invariant (I := fun sys : System μ σ => ∀ t ∈ sys.threads, t.Every A) step_every
    schedule h

theorem run_every_at {sys : System μ σ} (schedule : List Nat) {i : Nat}
    (h : ∀ t, sys.threads[i]? = some t → t.Every A) :
    ∀ t, (Runs.run step sys schedule).threads[i]? = some t → t.Every A :=
  Runs.run_invariant (I := fun sys : System μ σ => ∀ t, sys.threads[i]? = some t → t.Every A)
    (fun sys j h _ ht => step_every_at sys j h ht) schedule h

-- What every single change keeps holds in every interleaving, as far as K holds before each step.
theorem run_state_along {I K : σ → Prop} (hA : ∀ held f, A held f → ∀ s, K s → I s → I (f s))
    {sys : System μ σ} {schedule : List Nat} (h : ∀ t ∈ sys.threads, t.Every A)
    (hK : ∀ n, K (Runs.run step sys (schedule.take n)).state) (hs : I sys.state) :
    I (Runs.run step sys schedule).state := by
  have hstep : ∀ (sys : System μ σ) (i : Nat), K sys.state →
      (∀ t ∈ sys.threads, t.Every A) ∧ I sys.state →
      (∀ t ∈ (step sys i).threads, t.Every A) ∧ I (step sys i).state := by
    rintro sys i hk ⟨hevery, hstate⟩
    refine ⟨step_every sys i hevery, ?_⟩
    cases step_case sys i with
    | idle hstep => rwa [hstep]
    | acquired _ _ _ _ _ _ _ hstep => rwa [hstep]
    | released _ _ _ _ _ _ hstep => rwa [hstep]
    | acted t f next ht hrest hstep =>
      have hold := hevery t (List.mem_of_getElem? ht)
      rw [Thread.Every, hrest] at hold
      rw [hstep]
      exact hA t.held f hold.1 sys.state hk hstate
  have hok : Runs.Along step (fun sys _ => K sys.state) sys schedule := Runs.along_of_take hK
  exact (Runs.run_invariant_along
    (I := fun sys : System μ σ => (∀ t ∈ sys.threads, t.Every A) ∧ I sys.state) hstep hok ⟨h, hs⟩).2

theorem run_state {I : σ → Prop} (hA : ∀ held f, A held f → ∀ s, I s → I (f s))
    {sys : System μ σ} (schedule : List Nat) (h : ∀ t ∈ sys.threads, t.Every A)
    (hs : I sys.state) : I (Runs.run step sys schedule).state :=
  run_state_along (K := fun _ => True) (fun held f hf s _ => hA held f hf s) h (fun _ => trivial) hs

theorem step_exclusion (sys : System μ σ) (i : Nat) (h : Exclusion sys.threads) :
    Exclusion (step sys i).threads := by
  cases step_case sys i with
  | idle hstep => rwa [hstep]
  | acquired t m mode next ht hrest hgranted hstep =>
    rw [hstep]
    apply exclusion_set h
    intro j u hj hu lock hl lock' hl'
    rcases List.mem_cons.mp hl with rfl | hl
    · exact hgranted.no_conflict (List.mem_of_getElem? hu) hl'
    · exact h i j t u (Ne.symm hj) ht hu lock hl lock' hl'
  | released t m mode next ht hrest hstep =>
    rw [hstep]
    apply exclusion_set h
    intro j u hj hu lock hl lock' hl'
    exact h i j t u (Ne.symm hj) ht hu lock (List.mem_of_mem_erase hl) lock' hl'
  | acted t f next ht hrest hstep =>
    rw [hstep]
    apply exclusion_set h
    intro j u hj hu
    exact h i j t u (Ne.symm hj) ht hu

theorem run_exclusion (s : σ) (progs : List (Prog μ σ)) (schedule : List Nat) :
    Exclusion (Runs.run step (start s progs) schedule).threads :=
  Runs.run_invariant (I := fun sys : System μ σ => Exclusion sys.threads) step_exclusion schedule
    (start_exclusion s progs)

def Holds (sys : System μ σ) (i : Nat) (lock : μ × Mode) : Prop :=
  ∃ t, sys.threads[i]? = some t ∧ lock ∈ t.held

omit [DecidableEq μ] in
theorem holds_set {sys : System μ σ} {i k : Nat} {t t' : Thread μ σ} {lock : μ × Mode} {s' : σ}
    (ht : sys.threads[i]? = some t) (h : Holds sys k lock)
    (hkeep : k = i → lock ∈ t.held → lock ∈ t'.held) : Holds ⟨s', sys.threads.set i t'⟩ k lock := by
  obtain ⟨u, hu, hl⟩ := h
  by_cases hk : k = i
  · subst hk
    rw [ht] at hu
    exact ⟨t', getElem?_set_of_some ht t', hkeep rfl ((Option.some.inj hu) ▸ hl)⟩
  · exact ⟨u, (List.getElem?_set_ne (Ne.symm hk)).trans hu, hl⟩

section
variable {R : σ → σ → Prop} {guards : List (μ × Mode)} (hrefl : ∀ s, R s s)
  (htrans : ∀ a b c, R a b → R b c → R a c)
include hrefl

theorem step_stable {sys : System μ σ} (hx : Exclusion sys.threads)
    (hevery : ∀ t ∈ sys.threads, t.Every (Guarded R guards)) {i j : Nat} (hij : j ≠ i)
    {lock : μ × Mode} (hheld : Holds sys i lock) (hlock : ∀ guard ∈ guards, Conflict lock guard) :
    R sys.state (step sys j).state := by
  cases step_case sys j with
  | idle hstep => rw [hstep]; exact hrefl _
  | acquired _ _ _ _ _ _ _ hstep => rw [hstep]; exact hrefl _
  | released _ _ _ _ _ _ hstep => rw [hstep]; exact hrefl _
  | acted u f next hu hrest hstep =>
    obtain ⟨t, ht, hl⟩ := hheld
    have hguarded := hevery u (List.mem_of_getElem? hu)
    rw [Thread.Every, hrest] at hguarded
    rw [hstep]
    rcases hguarded.1 with halong | ⟨guard, hguard, hin⟩
    · exact halong sys.state
    · exact absurd (hlock guard hin) (hx i j t u (Ne.symm hij) ht hu lock hl guard hguard)

include htrans

-- As long as a thread holds the lock and changes nothing itself, the state goes along R.
theorem stable_along {sys : System μ σ} (hx : Exclusion sys.threads)
    (hevery : ∀ t ∈ sys.threads, t.Every (Guarded R guards)) {i : Nat}
    (hown : ∀ t, sys.threads[i]? = some t → t.Every (fun _ f => ∀ s, R s (f s)))
    {lock : μ × Mode} (hlock : ∀ guard ∈ guards, Conflict lock guard) {schedule : List Nat}
    (hheld : Runs.Along step (fun sys _ => Holds sys i lock) sys schedule) :
    R sys.state (Runs.run step sys schedule).state := by
  induction schedule generalizing sys with
  | nil => exact hrefl _
  | cons j schedule ih =>
    have hrun := ih (step_exclusion sys j hx) (step_every sys j hevery)
      (fun u hu => step_every_at sys j hown hu) hheld.2
    refine htrans _ _ _ ?_ hrun
    by_cases hij : j = i
    · cases step_case sys j with
      | idle hstep => rw [hstep]; exact hrefl _
      | acquired _ _ _ _ _ _ _ hstep => rw [hstep]; exact hrefl _
      | released _ _ _ _ _ _ hstep => rw [hstep]; exact hrefl _
      | acted u f next hu hrest hstep =>
        have hkeeps := hown u (hij ▸ hu)
        rw [Thread.Every, hrest] at hkeeps
        rw [hstep]
        exact hkeeps.1 sys.state
    · exact step_stable hrefl hx hevery hij hheld.1 hlock

theorem stable_under_lock {sys : System μ σ} (hx : Exclusion sys.threads)
    (hevery : ∀ t ∈ sys.threads, t.Every (Guarded R guards)) {i : Nat} {lock : μ × Mode}
    (hheld : Holds sys i lock) (hlock : ∀ guard ∈ guards, Conflict lock guard)
    {schedule : List Nat} (hi : i ∉ schedule) :
    R sys.state (Runs.run step sys schedule).state := by
  induction schedule generalizing sys with
  | nil => exact hrefl _
  | cons j schedule ih =>
    have hij : j ≠ i := fun h => hi (h ▸ List.mem_cons_self)
    have hrest : i ∉ schedule := fun h => hi (List.mem_cons_of_mem j h)
    have hstill : Holds (step sys j) i lock := by
      obtain ⟨t, ht, hl⟩ := hheld
      exact ⟨t, (step_keeps_others sys hij).trans ht, hl⟩
    have hrun := ih (step_exclusion sys j hx) (step_every sys j hevery) hstill hrest
    exact htrans _ _ _ (step_stable hrefl hx hevery hij hheld hlock) hrun

end

end

end LockOrder
