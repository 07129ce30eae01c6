import QdsBuffer.Library.LockSets

namespace LockOrder

-- A part of the state that can be read and replaced on its own.
structure Part (σ β : Type) where
  get : σ → β
  put : β → σ → σ
  get_put : ∀ b s, get (put b s) = b
  put_get : ∀ s, put (get s) s = s
  put_put : ∀ b b' s, put b (put b' s) = put b s

variable {μ σ β : Type} {part : Part σ β}

-- A change that neither reads nor touches the part.
def Part.Apart (part : Part σ β) (f : σ → σ) : Prop := ∀ b s, f (part.put b s) = part.put b (f s)

theorem Part.Apart.get {f : σ → σ} (hf : part.Apart f) (s : σ) : part.get (f s) = part.get s := by
  calc
    part.get (f s) = part.get (f (part.put (part.get s) s)) := by rw [part.put_get]
    _ = part.get (part.put (part.get s) (f s)) := by rw [hf]
    _ = part.get s := part.get_put _ _

theorem Part.apart_id : part.Apart (fun s => s) := fun _ _ => rfl

theorem granted_congr {ts us : List (Thread μ σ)} (h : us.map Thread.held = ts.map Thread.held)
    {m' : μ} {mode : Mode} (hg : Granted ts m' mode) : Granted us m' mode := by
  have hsame : ∀ u ∈ us, ∃ t ∈ ts, t.held = u.held := by
    intro u hu
    exact List.mem_map.mp (h ▸ List.mem_map_of_mem hu)
  cases mode with
  | shared =>
    intro u hu
    obtain ⟨t, ht, heq⟩ := hsame u hu
    exact heq ▸ hg t ht
  | exclusive =>
    intro u hu
    obtain ⟨t, ht, heq⟩ := hsame u hu
    exact heq ▸ hg t ht

-- The coarse state is the fine one, but for the part while a thread owes something to it.
inductive Debt (m : μ) (part : Part σ β) (enters : Nat → Prop) (fine : System μ σ) (s : σ)
    (owed : Nat → Option (β × β)) : Prop
  | settled (howed : ∀ i, owed i = none) (hstate : s = fine.state)
  | owing (i : Nat) (goal : β) (henters : enters i) (hheld : Holds fine i (m, .exclusive))
      (hmine : owed i = some (goal, part.get fine.state)) (hothers : ∀ j, j ≠ i → owed j = none)
      (hstate : s = part.put goal fine.state)

section

variable {m : μ} {enters : Nat → Prop} {fine : System μ σ} {owed : Nat → Option (β × β)} {i : Nat}
  {t : Thread μ σ} {s : σ}

theorem Debt.read {α : Type} (h : Debt m part enters fine s owed) {q : σ → α}
    (hq : ∀ b s, q (part.put b s) = q s) : q s = q fine.state := by
  cases h with
  | settled howed hstate => rw [hstate]
  | owing i goal henters hheld hmine hothers hstate => rw [hstate, hq]

-- Who owes nothing itself and has a lock of m meets no debt of another thread.
theorem Debt.none_beside (h : Debt m part enters fine s owed) (hx : Exclusion fine.threads)
    {mode : Mode} (hheld : Holds fine i (m, mode)) (hmine : owed i = none) :
    s = fine.state ∧ ∀ j, owed j = none := by
  cases h with
  | settled howed hstate => exact ⟨hstate, howed⟩
  | owing j goal henters hj howed hothers hstate =>
    have hij : i ≠ j := by
      rintro rfl
      rw [hmine] at howed
      cases howed
    obtain ⟨t, ht, hl⟩ := hheld
    obtain ⟨u, hu, hl'⟩ := hj
    exact absurd ⟨rfl, .inr rfl⟩ (hx i j t u hij ht hu _ hl _ hl')

theorem Debt.none_granted (h : Debt m part enters fine s owed)
    (hg : Granted fine.threads m .exclusive) : s = fine.state ∧ ∀ j, owed j = none := by
  cases h with
  | settled howed hstate => exact ⟨hstate, howed⟩
  | owing j goal henters hj howed hothers hstate =>
    obtain ⟨u, hu, hl⟩ := hj
    exact absurd rfl (hg u (List.mem_of_getElem? hu) _ hl)

theorem Debt.owner (h : Debt m part enters fine s owed) {goal b : β}
    (hmine : owed i = some (goal, b)) :
    enters i ∧ Holds fine i (m, .exclusive) ∧ part.get fine.state = b ∧
      s = part.put goal fine.state ∧ ∀ j, j ≠ i → owed j = none := by
  cases h with
  | settled howed hstate =>
    rw [howed i] at hmine
    cases hmine
  | owing j goal' henters hheld howed hothers hstate =>
    by_cases hij : i = j
    · subst hij
      rw [howed] at hmine
      cases hmine
      exact ⟨henters, hheld, rfl, hstate, hothers⟩
    · rw [hothers i hij] at hmine
      cases hmine

theorem Debt.apart (h : Debt m part enters fine s owed) {f : σ → σ} (hf : part.Apart f)
    (ht : fine.threads[i]? = some t) {t' : Thread μ σ}
    (hkeep : owed i ≠ none → (m, .exclusive) ∈ t.held → (m, .exclusive) ∈ t'.held) :
    Debt m part enters ⟨f fine.state, fine.threads.set i t'⟩ (f s) owed := by
  cases h with
  | settled howed hstate => exact .settled howed (by rw [hstate])
  | owing j goal henters hj hmine hothers hstate =>
    refine .owing j goal henters (holds_set ht hj ?_) ?_ hothers ?_
    · rintro rfl
      exact hkeep (by simp [hmine])
    · rw [hmine, hf.get]
    · rw [hstate, hf]

end

variable [DecidableEq μ]

-- The second program changes the part at once when it has the exclusive lock of m. The first one
-- works on it in single steps while it holds this lock: owed is then what the part is still to
-- become, beside what it is. Only programs that enter do so; elsewhere both make the same steps.
inductive Prog.Refines (m : μ) (part : Part σ β) (enters : Prop) :
    List (μ × Mode) → Option (β × β) → Prog μ σ → Prog μ σ → Prop
  | done {held : List (μ × Mode)} : Refines m part enters held none .done .done
  | acquire {held : List (μ × Mode)} {owed : Option (β × β)} {m' : μ} {mode : Mode} {p q : Prog μ σ}
      (hm : owed = none ∨ m' ≠ m) (hnext : Refines m part enters ((m', mode) :: held) owed p q) :
      Refines m part enters held owed (.acquire m' mode p) (.acquire m' mode q)
  | release {held : List (μ × Mode)} {owed : Option (β × β)} {m' : μ} {mode : Mode} {p q : Prog μ σ}
      (hm : owed = none ∨ m' ≠ m) (hnext : Refines m part enters (held.erase (m', mode)) owed p q) :
      Refines m part enters held owed (.release m' mode p) (.release m' mode q)
  | apart {held : List (μ × Mode)} {owed : Option (β × β)} {f : σ → σ} {p q : σ → Prog μ σ}
      (hf : part.Apart f) (hq : ∀ b s, q (part.put b s) = q s)
      (hnext : ∀ s, Refines m part enters held owed (p s) (q s)) :
      Refines m part enters held owed (.act f p) (.act f q)
  | guarded {held : List (μ × Mode)} {mode : Mode} {f : σ → σ} {p q : σ → Prog μ σ}
      (hheld : (m, mode) ∈ held) (hnext : ∀ s, Refines m part enters held none (p s) (q s)) :
      Refines m part enters held none (.act f p) (.act f q)
  | enter {held : List (μ × Mode)} {f : σ → σ} (g : β → β) {p : Prog μ σ} {q : σ → Prog μ σ}
      (henters : enters) (hf : ∀ s, f s = part.put (g (part.get s)) s)
      (hnext : ∀ s, Refines m part enters ((m, .exclusive) :: held)
        (some (g (part.get s), part.get s)) p (q s)) :
      Refines m part enters held none (.acquire m .exclusive p) (.acquire m .exclusive (.act f q))
  | silent {held : List (μ × Mode)} {goal b : β} (b' : β) {f : σ → σ} {p : σ → Prog μ σ} {q : Prog μ σ}
      (hf : ∀ s, part.get s = b → f s = part.put b' s)
      (hnext : ∀ s, part.get s = b → Refines m part enters held (some (goal, b')) (p s) q) :
      Refines m part enters held (some (goal, b)) (.act f p) q
  | leave {held : List (μ × Mode)} {b : β} {p q : Prog μ σ}
      (hnext : Refines m part enters (held.erase (m, .exclusive)) none p q) :
      Refines m part enters held (some (b, b)) (.release m .exclusive p) (.release m .exclusive q)

structure Beside (m : μ) (part : Part σ β) (enters : Nat → Prop) (fine coarse : System μ σ)
    (owed : Nat → Option (β × β)) : Prop where
  held : coarse.threads.map Thread.held = fine.threads.map Thread.held
  debt : Debt m part enters fine coarse.state owed
  refines : ∀ (i : Nat) (t u : Thread μ σ), fine.threads[i]? = some t → coarse.threads[i]? = some u →
    t.rest.Refines m part (enters i) t.held (owed i) u.rest

variable {m : μ} {enters : Nat → Prop} {fine coarse : System μ σ} {owed : Nat → Option (β × β)}
  {i : Nat} {t : Thread μ σ}

theorem Prog.Refines.unfinished {enters : Prop} {held : List (μ × Mode)} {owed : Option (β × β)}
    {p q : Prog μ σ} (h : p.Refines m part enters held owed q) (s : σ) : p = .done ↔ q = .done := by
  have hinside : owed ≠ none → q ≠ .done := by
    induction h with
    | done => exact fun hne => absurd rfl hne
    | @silent held goal b b' f p q hf hnext ih =>
      exact fun _ => ih (part.put b s) (part.get_put b s) (by simp)
    | _ => simp
  cases h with
  | silent b' hf hnext => simp [hinside (by simp)]
  | _ => simp

theorem Beside.thread (h : Beside m part enters fine coarse owed) (ht : fine.threads[i]? = some t) :
    ∃ q, coarse.threads[i]? = some ⟨t.held, q⟩ ∧
      t.rest.Refines m part (enters i) t.held (owed i) q := by
  have hheld := congrArg (·[i]?) h.held
  simp only [List.getElem?_map, ht, Option.map_some, Option.map_eq_some_iff] at hheld
  obtain ⟨⟨held, q⟩, hu, rfl⟩ := hheld
  exact ⟨q, hu, h.refines i t _ ht hu⟩

theorem Beside.set (h : Beside m part enters fine coarse owed) {s s' : σ} {held : List (μ × Mode)}
    {p q : Prog μ σ} {owed' : Nat → Option (β × β)} (howed : ∀ j, j ≠ i → owed' j = owed j)
    (hdebt : Debt m part enters ⟨s, fine.threads.set i ⟨held, p⟩⟩ s' owed')
    (hrefines : p.Refines m part (enters i) held (owed' i) q) :
    Beside m part enters ⟨s, fine.threads.set i ⟨held, p⟩⟩ ⟨s', coarse.threads.set i ⟨held, q⟩⟩
      owed' where
  held := by rw [List.map_set, List.map_set, h.held]
  debt := hdebt
  refines j t u ht hu := by
    rcases getElem?_set_cases ht with ⟨rfl, rfl⟩ | ⟨hj, ht⟩
    · rcases getElem?_set_cases hu with ⟨-, rfl⟩ | ⟨hj, -⟩
      · exact hrefines
      · exact absurd rfl hj
    · rcases getElem?_set_cases hu with ⟨rfl, -⟩ | ⟨-, hu⟩
      · exact absurd rfl hj
      · rw [howed j hj]
        exact h.refines j t u ht hu

theorem step_acquire {sys : System μ σ} {held : List (μ × Mode)} {m' : μ} {mode : Mode}
    {next : Prog μ σ} (ht : sys.threads[i]? = some ⟨held, .acquire m' mode next⟩)
    (hg : Granted sys.threads m' mode) :
    step sys i = ⟨sys.state, sys.threads.set i ⟨(m', mode) :: held, next⟩⟩ := by
  simp [step, ht, turn, hg]

theorem step_release {sys : System μ σ} {held : List (μ × Mode)} {m' : μ} {mode : Mode}
    {next : Prog μ σ} (ht : sys.threads[i]? = some ⟨held, .release m' mode next⟩) :
    step sys i = ⟨sys.state, sys.threads.set i ⟨held.erase (m', mode), next⟩⟩ := by
  simp [step, ht, turn]

theorem step_act {sys : System μ σ} {held : List (μ × Mode)} {f : σ → σ} {next : σ → Prog μ σ}
    (ht : sys.threads[i]? = some ⟨held, .act f next⟩) :
    step sys i = ⟨f sys.state, sys.threads.set i ⟨held, next sys.state⟩⟩ := by
  simp [step, ht, turn]

-- Both systems make the same turn, in which the part is not changed.
theorem Beside.follow (h : Beside m part enters fine coarse owed) (ht : fine.threads[i]? = some t)
    {held : List (μ × Mode)} {f : σ → σ} (hf : part.Apart f) {p q : Prog μ σ}
    (hkeep : owed i ≠ none → (m, .exclusive) ∈ t.held → (m, .exclusive) ∈ held)
    (hrefines : p.Refines m part (enters i) held (owed i) q) :
    Beside m part enters ⟨f fine.state, fine.threads.set i ⟨held, p⟩⟩
      ⟨f coarse.state, coarse.threads.set i ⟨held, q⟩⟩ owed :=
  h.set (fun _ _ => rfl) (h.debt.apart hf ht hkeep) hrefines

-- The coarse system does at once what the fine one begins.
theorem Beside.enter (h : Beside m part enters fine coarse owed) (ht : fine.threads[i]? = some t)
    {f : σ → σ} {g : β → β} {p : Prog μ σ} {q : σ → Prog μ σ}
    (hq : coarse.threads[i]? = some ⟨t.held, .acquire m .exclusive (.act f q)⟩)
    (hg : Granted fine.threads m .exclusive) (henters : enters i)
    (hf : ∀ s, f s = part.put (g (part.get s)) s)
    (hnext : ∀ s, p.Refines m part (enters i) ((m, .exclusive) :: t.held)
      (some (g (part.get s), part.get s)) (q s)) :
    ∃ owed', Beside m part enters ⟨fine.state, fine.threads.set i ⟨(m, .exclusive) :: t.held, p⟩⟩
      (Runs.run step coarse [i, i]) owed' := by
  obtain ⟨hstate, hnone⟩ := h.debt.none_granted hg
  have hgranted : Granted coarse.threads m .exclusive := granted_congr h.held hg
  have hact := getElem?_set_of_some hq ⟨(m, .exclusive) :: t.held, .act f q⟩
  rw [Runs.run_cons, Runs.run_cons, Runs.run_nil, step_acquire hq hgranted, step_act hact,
    List.set_set]
  refine ⟨Function.update owed i (some (g (part.get fine.state), part.get fine.state)),
    h.set (fun j hj => Function.update_of_ne hj _ _) ?_ ?_⟩
  · refine .owing i (g (part.get fine.state)) henters ?_ (Function.update_self _ _ _) ?_ ?_
    · exact ⟨_, getElem?_set_of_some ht _, List.mem_cons_self⟩
    · intro j hj
      rw [Function.update_of_ne hj, hnone j]
    · rw [hf, hstate]
  · rw [Function.update_self, hstate]
    exact hnext fine.state

-- The fine system makes a step towards what the coarse one has done already.
theorem Beside.silent (h : Beside m part enters fine coarse owed) (ht : fine.threads[i]? = some t)
    {goal b b' : β} (hmine : owed i = some (goal, b)) {f : σ → σ} {p : σ → Prog μ σ} {q : Prog μ σ}
    (hq : coarse.threads[i]? = some ⟨t.held, q⟩) (hf : ∀ s, part.get s = b → f s = part.put b' s)
    (hnext : ∀ s, part.get s = b → (p s).Refines m part (enters i) t.held (some (goal, b')) q) :
    ∃ owed', Beside m part enters ⟨f fine.state, fine.threads.set i ⟨t.held, p fine.state⟩⟩ coarse
      owed' := by
  obtain ⟨henters, hheld, hget, hstate, hothers⟩ := h.debt.owner hmine
  have hcoarse : coarse = ⟨coarse.state, coarse.threads.set i ⟨t.held, q⟩⟩ := by rw [set_same hq]
  have hnew := hf fine.state hget
  rw [hcoarse]
  refine ⟨Function.update owed i (some (goal, b')),
    h.set (fun j hj => Function.update_of_ne hj _ _) ?_ ?_⟩
  · refine .owing i goal henters (holds_set ht hheld (fun _ hl => hl)) ?_ ?_ ?_
    · rw [Function.update_self, hnew, part.get_put]
    · intro j hj
      rw [Function.update_of_ne hj, hothers j hj]
    · rw [hstate, hnew, part.put_put]
  · rw [Function.update_self]
    exact hnext fine.state hget

-- The part has become what it was to become when the lock is given up.
theorem Beside.leave (h : Beside m part enters fine coarse owed)
    {b : β} (hmine : owed i = some (b, b)) {held : List (μ × Mode)} {p q : Prog μ σ}
    (hnext : p.Refines m part (enters i) held none q) :
    ∃ owed', Beside m part enters ⟨fine.state, fine.threads.set i ⟨held, p⟩⟩
      ⟨coarse.state, coarse.threads.set i ⟨held, q⟩⟩ owed' := by
  obtain ⟨-, -, hget, hstate, hothers⟩ := h.debt.owner hmine
  refine ⟨Function.update owed i none, h.set (fun j hj => Function.update_of_ne hj _ _) ?_ ?_⟩
  · refine .settled (fun j => ?_) (by rw [hstate, ← hget, part.put_get])
    by_cases hj : j = i
    · rw [hj, Function.update_self]
    · rw [Function.update_of_ne hj, hothers j hj]
  · rwa [Function.update_self]

theorem Beside.step (h : Beside m part enters fine coarse owed) (hx : Exclusion fine.threads)
    (i : Nat) :
    ∃ turns owed', Beside m part enters (LockOrder.step fine i)
      (Runs.run LockOrder.step coarse turns) owed' ∧ ∀ j ∈ turns, j = i := by
  have hone : ∀ j ∈ [i], j = i := by simp
  cases step_case fine i with
  | idle hstep => exact ⟨[], owed, by rwa [hstep], by simp⟩
  | acquired t m' mode p ht hrest hg hstep =>
    obtain ⟨q, hq, hrefines⟩ := h.thread ht
    rw [hrest] at hrefines
    rw [hstep]
    generalize hmine : owed i = mine at hrefines
    cases hrefines with
    | acquire hm hnext =>
      refine ⟨[i], owed, ?_, hone⟩
      rw [Runs.run_cons, Runs.run_nil, step_acquire hq (granted_congr h.held hg)]
      exact h.follow ht part.apart_id (fun _ hl => List.mem_cons_of_mem _ hl) (hmine ▸ hnext)
    | enter g henters hf hnext =>
      obtain ⟨owed', h'⟩ := h.enter ht hq hg henters hf hnext
      exact ⟨[i, i], owed', h', by simp⟩
  | released t m' mode p ht hrest hstep =>
    obtain ⟨q, hq, hrefines⟩ := h.thread ht
    rw [hrest] at hrefines
    rw [hstep]
    generalize hmine : owed i = mine at hrefines
    cases hrefines with
    | release hm hnext =>
      refine ⟨[i], owed, ?_, hone⟩
      rw [Runs.run_cons, Runs.run_nil, step_release hq]
      refine h.follow ht part.apart_id (fun hne hl => ?_) (hmine ▸ hnext)
      refine (List.mem_erase_of_ne ?_).mpr hl
      exact fun heq => hm.resolve_left (hmine ▸ hne) (congrArg Prod.fst heq).symm
    | leave hnext =>
      obtain ⟨owed', h'⟩ := h.leave hmine hnext
      refine ⟨[i], owed', ?_, hone⟩
      rwa [Runs.run_cons, Runs.run_nil, step_release hq]
  | acted t f p ht hrest hstep =>
    obtain ⟨q, hq, hrefines⟩ := h.thread ht
    rw [hrest] at hrefines
    rw [hstep]
    generalize hmine : owed i = mine at hrefines
    cases hrefines with
    | apart hf hread hnext =>
      refine ⟨[i], owed, ?_, hone⟩
      rw [Runs.run_cons, Runs.run_nil, step_act hq, h.debt.read hread]
      exact h.follow ht hf (fun _ hl => hl) (hmine ▸ hnext fine.state)
    | guarded hheld hnext =>
      obtain ⟨hstate, hnone⟩ := h.debt.none_beside hx ⟨t, ht, hheld⟩ hmine
      refine ⟨[i], owed, ?_, hone⟩
      rw [Runs.run_cons, Runs.run_nil, step_act hq, hstate]
      exact h.set (fun _ _ => rfl) (.settled hnone rfl) (hmine ▸ hnext fine.state)
    | silent b' hf hnext =>
      obtain ⟨owed', h'⟩ := h.silent ht hmine hq hf hnext
      exact ⟨[], owed', h', by simp⟩

theorem Beside.run (h : Beside m part enters fine coarse owed) (hx : Exclusion fine.threads)
    (schedule : List Nat) :
    ∃ turns owed', Beside m part enters (Runs.run LockOrder.step fine schedule)
      (Runs.run LockOrder.step coarse turns) owed' ∧ ∀ j ∈ turns, j ∈ schedule := by
  induction schedule generalizing fine coarse owed with
  | nil => exact ⟨[], owed, h, by simp⟩
  | cons i schedule ih =>
    obtain ⟨first, owed₁, hfirst, hi⟩ := h.step hx i
    obtain ⟨later, owed₂, hlater, hin⟩ := ih hfirst (step_exclusion fine i hx)
    refine ⟨first ++ later, owed₂, by rwa [Runs.run_append], ?_⟩
    intro j hj
    rcases List.mem_append.mp hj with hj | hj
    · rw [hi j hj]
      exact List.mem_cons_self
    · exact List.mem_cons_of_mem i (hin j hj)

theorem start_beside (s : σ) {fines coarses : List (Prog μ σ)}
    (hlength : coarses.length = fines.length)
    (h : ∀ (i : Nat) (p q : Prog μ σ), fines[i]? = some p → coarses[i]? = some q →
      p.Refines m part (enters i) [] none q) :
    Beside m part enters (start s fines) (start s coarses) (fun _ => none) where
  held := by simp [start, Function.comp_def, hlength]
  debt := .settled (fun _ => rfl) rfl
  refines i t u ht hu := by
    simp only [start, List.getElem?_map, Option.map_eq_some_iff] at ht hu
    obtain ⟨p, hp, rfl⟩ := ht
    obtain ⟨q, hq, rfl⟩ := hu
    exact h i p q hp hq

theorem Beside.unfinished (h : Beside m part enters fine coarse owed) (i : Nat) :
    Unfinished fine i ↔ Unfinished coarse i := by
  constructor
  · rintro ⟨t, ht, hrest⟩
    obtain ⟨q, hq, hrefines⟩ := h.thread ht
    exact ⟨_, hq, (hrefines.unfinished fine.state).not.mp hrest⟩
  · rintro ⟨u, hu, hrest⟩
    have hlength := congrArg List.length h.held
    simp only [List.length_map] at hlength
    obtain ⟨hlt, -⟩ := List.getElem?_eq_some_iff.mp hu
    rw [hlength] at hlt
    have ht := List.getElem?_eq_getElem hlt
    exact ⟨_, ht, ((h.refines i _ u ht hu).unfinished fine.state).not.mpr hrest⟩

-- Outside of the part both states are always the same.
theorem Beside.outside {α : Type} (h : Beside m part enters fine coarse owed) (view : σ → α)
    (hview : ∀ b s, view (part.put b s) = view s) : view coarse.state = view fine.state :=
  h.debt.read hview

-- The part is the same too unless a thread that enters has the exclusive lock.
theorem Beside.settled (h : Beside m part enters fine coarse owed)
    (hfree : ∀ i, Holds fine i (m, .exclusive) → ¬enters i) : coarse.state = fine.state := by
  cases h.debt with
  | settled howed hstate => exact hstate
  | owing i goal henters hheld hmine hothers hstate => exact absurd henters (hfree i hheld)

end LockOrder
