import QdsBuffer.Library.Obligations

namespace LockOrder

-- An object of the shared state: when it is there, what then holds of it, and what leaves it alone.
structure Tenure (σ : Type) where
  sound : σ → Prop
  present : σ → Prop
  good : σ → Prop
  keeps : σ → σ → Prop
  refl : ∀ s, keeps s s
  trans : ∀ {a b c}, keeps a b → keeps b c → keeps a c
  present_iff : ∀ {s s'}, keeps s s' → (present s' ↔ present s)
  good_mono : ∀ {s s'}, keeps s s' → good s → good s'

variable {μ σ : Type}

def Prog.NeverInstalls (T : Tenure σ) : Prog μ σ → Prop
  | .done => True
  | .acquire _ _ next => next.NeverInstalls T
  | .release _ _ next => next.NeverInstalls T
  | .act f next => ∀ s, T.sound s → ¬T.present s →
      ¬T.present (f s) ∧ (next s).NeverInstalls T

-- A guest leaves the object alone, or takes it away.
def Prog.Guest (T : Tenure σ) : Prog μ σ → Prop
  | .done => True
  | .acquire _ _ next => next.Guest T
  | .release _ _ next => next.Guest T
  | .act f next => ∀ s, T.sound s → (T.keeps s (f s) ∧ (next s).Guest T) ∨
      (T.present s ∧ ¬T.present (f s) ∧ (next s).NeverInstalls T)

-- From s on, whatever the guests do in between, what the host installs is good.
def Prog.Host (T : Tenure σ) : Prog μ σ → σ → Prop
  | .done, _ => True
  | .acquire _ _ next, s => next.Host T s
  | .release _ _ next, s => next.Host T s
  | .act f next, s => ∀ s', T.sound s' → T.keeps s s' → ¬T.present s' →
      (¬T.present (f s') ∧ (next s').Host T (f s')) ∨
        (T.present (f s') ∧ T.good (f s') ∧ (next s').Guest T)

variable {T : Tenure σ}

theorem Prog.Guest.neverInstalls {p : Prog μ σ} (h : p.Guest T) : p.NeverInstalls T := by
  induction p with
  | done => trivial
  | acquire m mode next ih => exact ih h
  | release m mode next ih => exact ih h
  | act f next ih =>
    intro s hs habsent
    rcases h s hs with ⟨hkeeps, hnext⟩ | ⟨hpresent, -⟩
    · exact ⟨mt (T.present_iff hkeeps).mp habsent, ih s hnext⟩
    · exact absurd hpresent habsent

theorem Prog.NeverInstalls.host {p : Prog μ σ} (h : p.NeverInstalls T) (s : σ) : p.Host T s := by
  induction p generalizing s with
  | done => trivial
  | acquire m mode next ih => exact ih h s
  | release m mode next ih => exact ih h s
  | act f next ih =>
    intro s' hs _ habsent
    obtain ⟨hstill, hnext⟩ := h s' hs habsent
    exact .inl ⟨hstill, ih s' hnext _⟩

theorem Prog.Host.mono {p : Prog μ σ} {s s' : σ} (h : p.Host T s) (hkeeps : T.keeps s s') :
    p.Host T s' := by
  induction p with
  | done => trivial
  | acquire m mode next ih => exact ih h
  | release m mode next ih => exact ih h
  | act f next _ => exact fun s'' hs hlater => h s'' hs (T.trans hkeeps hlater)

-- Where the object stands, thread i being its host.
inductive Phase (T : Tenure σ) (i : Nat) (sys : System μ σ) : Prop
  | before (habsent : ¬T.present sys.state)
      (hhost : ∀ t, sys.threads[i]? = some t → t.rest.Host T sys.state)
      (hguests : ∀ (j : Nat) (t : Thread μ σ), j ≠ i → sys.threads[j]? = some t → t.rest.Guest T)
  | during (hpresent : T.present sys.state) (hgood : T.good sys.state)
      (hguests : ∀ t ∈ sys.threads, t.rest.Guest T)
  | after (habsent : ¬T.present sys.state) (hnone : ∀ t ∈ sys.threads, t.rest.NeverInstalls T)

theorem Phase.good {i : Nat} {sys : System μ σ} (h : Phase T i sys) (hp : T.present sys.state) :
    T.good sys.state := by
  cases h with
  | before habsent => exact absurd hp habsent
  | during _ hgood => exact hgood
  | after habsent => exact absurd hp habsent

-- A turn that changes no state.
theorem Phase.pass {i j : Nat} {sys : System μ σ} {t t' : Thread μ σ} (h : Phase T i sys)
    (ht : sys.threads[j]? = some t) (hhost : ∀ s, t.rest.Host T s → t'.rest.Host T s)
    (hguest : t.rest.Guest T → t'.rest.Guest T)
    (hnever : t.rest.NeverInstalls T → t'.rest.NeverInstalls T) :
    Phase T i ⟨sys.state, sys.threads.set j t'⟩ := by
  have hmem : t ∈ sys.threads := List.mem_of_getElem? ht
  cases h with
  | before habsent hh hg =>
    refine .before habsent ?_ ?_
    · intro u hu
      rcases getElem?_set_cases hu with ⟨rfl, rfl⟩ | ⟨-, hold⟩
      · exact hhost _ (hh t ht)
      · exact hh u hold
    · intro l u hl hu
      rcases getElem?_set_cases hu with ⟨rfl, rfl⟩ | ⟨-, hold⟩
      · exact hguest (hg l t hl ht)
      · exact hg l u hl hold
  | during hp hgood hg => exact .during hp hgood (forall_mem_set hg (hguest (hg t hmem)))
  | after habsent hn => exact .after habsent (forall_mem_set hn (hnever (hn t hmem)))

theorem Phase.act {i j : Nat} {sys : System μ σ} {t : Thread μ σ} {f : σ → σ}
    {next : σ → Prog μ σ} (h : Phase T i sys) (hs : T.sound sys.state)
    (ht : sys.threads[j]? = some t) (hrest : t.rest = .act f next) :
    Phase T i ⟨f sys.state, sys.threads.set j ⟨t.held, next sys.state⟩⟩ := by
  have hmem : t ∈ sys.threads := List.mem_of_getElem? ht
  cases h with
  | before habsent hh hg =>
    by_cases hj : j = i
    · subst hj
      have hhost := hh t ht
      rw [hrest] at hhost
      rcases hhost sys.state hs (T.refl _) habsent with ⟨hstill, hnext⟩ | ⟨hnow, hgood, hnext⟩
      · refine .before hstill ?_ ?_
        · intro u hu
          rwa [getElem?_set_self ht hu]
        · intro l u hl hu
          rw [List.getElem?_set_ne (Ne.symm hl)] at hu
          exact hg l u hl hu
      · refine .during hnow hgood ?_
        intro u hu
        obtain ⟨l, hl⟩ := List.mem_iff_getElem?.mp hu
        rcases getElem?_set_cases hl with ⟨-, rfl⟩ | ⟨hne, hold⟩
        · exact hnext
        · exact hg l u hne hold
    · have hguest := hg j t hj ht
      rw [hrest] at hguest
      rcases hguest sys.state hs with ⟨hkeeps, hnext⟩ | ⟨hpresent, -⟩
      · refine .before (mt (T.present_iff hkeeps).mp habsent) ?_ ?_
        · intro u hu
          rw [List.getElem?_set_ne hj] at hu
          exact (hh u hu).mono hkeeps
        · intro l u hl hu
          rcases getElem?_set_cases hu with ⟨-, rfl⟩ | ⟨-, hold⟩
          · exact hnext
          · exact hg l u hl hold
      · exact absurd hpresent habsent
  | during hp hgood hg =>
    have hguest := hg t hmem
    rw [hrest] at hguest
    rcases hguest sys.state hs with ⟨hkeeps, hnext⟩ | ⟨-, hgone, hnext⟩
    · exact .during ((T.present_iff hkeeps).mpr hp) (T.good_mono hkeeps hgood)
        (forall_mem_set hg hnext)
    · exact .after hgone (forall_mem_set (fun u hu => (hg u hu).neverInstalls) hnext)
  | after habsent hn =>
    have hnever := hn t hmem
    rw [hrest] at hnever
    obtain ⟨hstill, hnext⟩ := hnever sys.state hs habsent
    exact .after hstill (forall_mem_set hn hnext)

theorem start_phase {s : σ} {progs : List (Prog μ σ)} {i : Nat} (habsent : ¬T.present s)
    (hhost : ∀ p, progs[i]? = some p → p.Host T s)
    (hguests : ∀ (j : Nat) (p : Prog μ σ), j ≠ i → progs[j]? = some p → p.Guest T) :
    Phase T i (start s progs) := by
  refine .before habsent ?_ ?_
  · intro t ht
    rw [start, List.getElem?_map, Option.map_eq_some_iff] at ht
    obtain ⟨p, hp, rfl⟩ := ht
    exact hhost p hp
  · intro j t hj ht
    rw [start, List.getElem?_map, Option.map_eq_some_iff] at ht
    obtain ⟨p, hp, rfl⟩ := ht
    exact hguests j p hj hp

section

variable [DecidableEq μ]

theorem step_phase {i : Nat} (sys : System μ σ) (j : Nat) (hs : T.sound sys.state)
    (h : Phase T i sys) : Phase T i (step sys j) := by
  cases step_case sys j with
  | idle hstep => rwa [hstep]
  | acquired t m mode next ht hrest _ hstep =>
    rw [hstep]
    exact h.pass ht (fun s hh => by rwa [hrest] at hh) (fun hg => by rwa [hrest] at hg)
      (fun hn => by rwa [hrest] at hn)
  | released t m mode next ht hrest hstep =>
    rw [hstep]
    exact h.pass ht (fun s hh => by rwa [hrest] at hh) (fun hg => by rwa [hrest] at hg)
      (fun hn => by rwa [hrest] at hn)
  | acted t f next ht hrest hstep =>
    rw [hstep]
    exact h.act hs ht hrest

-- One host and guests beside it: in every interleaving the object is good as long as it is there.
theorem run_phase {i : Nat} {sys : System μ σ} {schedule : List Nat}
    (hsound : ∀ n, T.sound (Runs.run step sys (schedule.take n)).state) (h : Phase T i sys) :
    Phase T i (Runs.run step sys schedule) := by
  have hok : Runs.Along step (fun sys _ => T.sound sys.state) sys schedule :=
    Runs.along_of_take hsound
  exact Runs.run_invariant_along step_phase hok h

end

end LockOrder
