import QdsBuffer.Library.Runs
import Mathlib.Data.List.MinMax

namespace LockOrder

inductive Mode where
  | shared
  | exclusive
  deriving DecidableEq, Repr

-- What a thread has still to do with the mutexes μ and the shared state σ.
inductive Prog (μ σ : Type) where
  | done
  | acquire (m : μ) (mode : Mode) (next : Prog μ σ)
  | release (m : μ) (mode : Mode) (next : Prog μ σ)
  | act (f : σ → σ) (next : σ → Prog μ σ)

instance {μ σ : Type} (p : Prog μ σ) : Decidable (p = .done) := by
  cases p with
  | done => exact .isTrue rfl
  | acquire _ _ _ => exact .isFalse (by simp)
  | release _ _ _ => exact .isFalse (by simp)
  | act _ _ => exact .isFalse (by simp)

structure Thread (μ σ : Type) where
  held : List (μ × Mode)
  rest : Prog μ σ

structure System (μ σ : Type) where
  state : σ
  threads : List (Thread μ σ)

variable {μ σ : Type}

def Granted (threads : List (Thread μ σ)) (m : μ) : Mode → Prop
  | .shared => ∀ t ∈ threads, (m, .exclusive) ∉ t.held
  | .exclusive => ∀ t ∈ threads, ∀ lock ∈ t.held, lock.1 ≠ m

instance [DecidableEq μ] (threads : List (Thread μ σ)) (m : μ) (mode : Mode) :
    Decidable (Granted threads m mode) := by
  cases mode <;> unfold Granted <;> infer_instance

def Thread.Waits (t : Thread μ σ) (m : μ) (mode : Mode) : Prop :=
  ∃ next, t.rest = .acquire m mode next

-- A shared acquisition is also held back while some thread waits for an exclusive one.
def Thread.Proceeds (threads : List (Thread μ σ)) (t : Thread μ σ) : Prop :=
  match t.rest with
  | .done => False
  | .acquire m .shared _ => Granted threads m .shared ∧ ∀ u ∈ threads, ¬u.Waits m .exclusive
  | .acquire m .exclusive _ => Granted threads m .exclusive
  | .release _ _ _ => True
  | .act _ _ => True

section

variable [DecidableEq μ]

def turn (threads : List (Thread μ σ)) (s : σ) (t : Thread μ σ) : Thread μ σ × σ :=
  match t.rest with
  | .done => (t, s)
  | .acquire m mode next =>
    if Granted threads m mode then (⟨(m, mode) :: t.held, next⟩, s) else (t, s)
  | .release m mode next => (⟨t.held.erase (m, mode), next⟩, s)
  | .act f next => (⟨t.held, next s⟩, f s)

def step (sys : System μ σ) (i : Nat) : System μ σ :=
  match sys.threads[i]? with
  | some t =>
    let p := turn sys.threads sys.state t
    ⟨p.2, sys.threads.set i p.1⟩
  | none => sys

def start (s : σ) (progs : List (Prog μ σ)) : System μ σ := ⟨s, progs.map (⟨[], ·⟩)⟩

end

-- Locks are released in the reverse order, and each is above all that are held when it is acquired.
def Disciplined (rank : μ → Nat) : List (μ × Mode) → Prog μ σ → Prop
  | held, .done => held = []
  | held, .acquire m mode next =>
    (∀ lock ∈ held, rank lock.1 < rank m) ∧ Disciplined rank ((m, mode) :: held) next
  | held, .release m mode next => ∃ outer, held = (m, mode) :: outer ∧ Disciplined rank outer next
  | held, .act _ next => ∀ s, Disciplined rank held (next s)

def Thread.Ordered (rank : μ → Nat) (t : Thread μ σ) : Prop := Disciplined rank t.held t.rest

def Prog.eval : Prog μ σ → σ → σ
  | .done, s => s
  | .acquire _ _ next, s => next.eval s
  | .release _ _ next, s => next.eval s
  | .act f next, s => (next s).eval (f s)

variable {rank : μ → Nat}

theorem Thread.Ordered.below {t : Thread μ σ} (h : t.Ordered rank) {m : μ} {mode : Mode}
    (hw : t.Waits m mode) {lock : μ × Mode} (hl : lock ∈ t.held) : rank lock.1 < rank m := by
  obtain ⟨next, hrest⟩ := hw
  rw [Thread.Ordered, hrest] at h
  exact h.1 lock hl

theorem Thread.Ordered.finished {t : Thread μ σ} (h : t.Ordered rank) (hd : t.rest = .done) :
    t.held = [] := by
  rwa [Thread.Ordered, hd] at h

def Thread.wanted (rank : μ → Nat) (t : Thread μ σ) : Nat :=
  match t.rest with
  | .acquire m _ _ => rank m + 1
  | _ => 0

theorem Thread.Waits.wanted {t : Thread μ σ} {m : μ} {mode : Mode} (h : t.Waits m mode) :
    t.wanted rank = rank m + 1 := by
  obtain ⟨next, hrest⟩ := h
  simp only [Thread.wanted, hrest]

theorem waits_of_wanted {t : Thread μ σ} (h : 0 < t.wanted rank) : ∃ m mode, t.Waits m mode := by
  unfold Thread.wanted at h
  cases hr : t.rest with
  | acquire m mode next => exact ⟨m, mode, next, hr⟩
  | _ => simp [hr] at h

theorem waits_or_proceeds (threads : List (Thread μ σ)) {t : Thread μ σ} (h : t.rest ≠ .done) :
    (∃ m mode, t.Waits m mode) ∨ t.Proceeds threads := by
  unfold Thread.Proceeds
  cases hr : t.rest with
  | done => exact absurd hr h
  | acquire m mode next => exact .inl ⟨m, mode, next, hr⟩
  | release m mode next => exact .inr trivial
  | act f next => exact .inr trivial

theorem proceeds_of_free {threads : List (Thread μ σ)} {t : Thread μ σ} (ht : t ∈ threads) {m : μ}
    {mode : Mode} (hw : t.Waits m mode) (hfree : ∀ u ∈ threads, ∀ lock ∈ u.held, lock.1 ≠ m) :
    ∃ u ∈ threads, u.Proceeds threads := by
  by_cases hx : ∃ u ∈ threads, u.Waits m .exclusive
  · obtain ⟨u, hu, next, hrest⟩ := hx
    refine ⟨u, hu, ?_⟩
    simp only [Thread.Proceeds, hrest]
    exact hfree
  · obtain ⟨next, hrest⟩ := hw
    cases mode with
    | exclusive => exact absurd ⟨t, ht, next, hrest⟩ hx
    | shared =>
      refine ⟨t, ht, ?_⟩
      simp only [Thread.Proceeds, hrest]
      exact ⟨fun u hu hl => hfree u hu _ hl rfl, fun u hu hwu => hx ⟨u, hu, hwu⟩⟩

theorem progress {threads : List (Thread μ σ)} (h : ∀ t ∈ threads, t.Ordered rank)
    {t : Thread μ σ} (ht : t ∈ threads) (hrest : t.rest ≠ .done) :
    ∃ u ∈ threads, u.Proceeds threads := by
  rcases waits_or_proceeds threads hrest with ⟨m₀, mode₀, hw₀⟩ | hp
  · -- the thread that waits for the mutex of the highest rank
    obtain ⟨u, hu⟩ := Option.ne_none_iff_exists'.mp
      (mt List.argmax_eq_none.mp (List.ne_nil_of_mem ht) : threads.argmax (Thread.wanted rank) ≠ none)
    have hmax : ∀ v ∈ threads, v.wanted rank ≤ u.wanted rank :=
      fun v hv => List.le_of_mem_argmax hv hu
    have hmem : u ∈ threads := List.argmax_mem hu
    have hpos : 0 < u.wanted rank := by
      have hle := hmax t ht
      rw [hw₀.wanted] at hle
      omega
    obtain ⟨m, mode, hw⟩ := waits_of_wanted hpos
    by_cases hfree : ∀ v ∈ threads, ∀ lock ∈ v.held, lock.1 ≠ m
    · exact proceeds_of_free hmem hw hfree
    · simp only [not_forall, not_not] at hfree
      obtain ⟨v, hv, lock, hlock, hm⟩ := hfree
      have hne : v.rest ≠ .done := by
        intro hd
        rw [(h v hv).finished hd] at hlock
        cases hlock
      rcases waits_or_proceeds threads hne with ⟨m', mode', hw'⟩ | hp
      · have hbelow := (h v hv).below hw' hlock
        have hle := hmax v hv
        rw [hw.wanted, hw'.wanted] at hle
        rw [hm] at hbelow
        omega
      · exact ⟨v, hv, hp⟩
  · exact ⟨t, ht, hp⟩

theorem start_ordered {s : σ} {progs : List (Prog μ σ)} (h : ∀ p ∈ progs, Disciplined rank [] p) :
    ∀ t ∈ (start s progs).threads, t.Ordered rank := by
  intro t ht
  obtain ⟨p, hp, rfl⟩ := List.mem_map.mp ht
  exact h p hp

theorem granted_alone {held : List (μ × Mode)} {m : μ} (h : ∀ lock ∈ held, rank lock.1 < rank m)
    (p : Prog μ σ) (mode : Mode) : Granted [⟨held, p⟩] m mode := by
  have hne : ∀ lock ∈ held, lock.1 ≠ m := fun lock hl heq => Nat.ne_of_lt (h lock hl) (heq ▸ rfl)
  cases mode with
  | shared => simpa [Granted] using fun hl => hne _ hl rfl
  | exclusive => simpa [Granted] using hne

section

variable [DecidableEq μ]

theorem turn_ordered {threads : List (Thread μ σ)} {s : σ} {t : Thread μ σ} (h : t.Ordered rank) :
    (turn threads s t).1.Ordered rank := by
  unfold Thread.Ordered at h
  unfold turn
  cases hr : t.rest with
  | done => simpa only [Thread.Ordered, hr] using h
  | acquire m mode next =>
    simp only
    split
    · rw [hr] at h
      exact h.2
    · simpa only [Thread.Ordered] using h
  | release m mode next =>
    rw [hr] at h
    obtain ⟨outer, hheld, hnext⟩ := h
    simp only [Thread.Ordered, hheld, List.erase_cons_head]
    exact hnext
  | act f next =>
    rw [hr] at h
    exact h s

theorem step_ordered (sys : System μ σ) (i : Nat) (h : ∀ t ∈ sys.threads, t.Ordered rank) :
    ∀ t ∈ (step sys i).threads, t.Ordered rank := by
  unfold step
  cases ht : sys.threads[i]? with
  | none => exact h
  | some t =>
    intro u hu
    rcases List.mem_or_eq_of_mem_set hu with hu | rfl
    · exact h u hu
    · exact turn_ordered (h t (List.mem_of_getElem? ht))

theorem no_deadlock_of_order {progs : List (Prog μ σ)} (h : ∀ p ∈ progs, Disciplined rank [] p)
    (s : σ) (schedule : List Nat) :
    let sys := Runs.run step (start s progs) schedule
    (∀ t ∈ sys.threads, t.rest = .done) ∨ ∃ t ∈ sys.threads, t.Proceeds sys.threads := by
  intro sys
  have hordered : ∀ t ∈ sys.threads, t.Ordered rank :=
    Runs.run_invariant (I := fun sys : System μ σ => ∀ t ∈ sys.threads, t.Ordered rank)
      step_ordered schedule (start_ordered h)
  by_cases hall : ∀ t ∈ sys.threads, t.rest = .done
  · exact .inl hall
  · simp only [not_forall] at hall
    obtain ⟨t, ht, hrest⟩ := hall
    exact .inr (progress hordered ht hrest)

theorem run_alone {held : List (μ × Mode)} {p : Prog μ σ} (h : Disciplined rank held p) (s : σ) :
    ∃ n, Runs.run step ⟨s, [⟨held, p⟩]⟩ (List.replicate n 0) = ⟨p.eval s, [⟨[], .done⟩]⟩ := by
  induction p generalizing held s with
  | done =>
    rw [Disciplined] at h
    exact ⟨0, by rw [h]; rfl⟩
  | acquire m mode next ih =>
    obtain ⟨hbelow, hnext⟩ := h
    obtain ⟨n, hn⟩ := ih hnext s
    have hgranted := granted_alone hbelow (.acquire m mode next : Prog μ σ) mode
    refine ⟨n + 1, ?_⟩
    rw [List.replicate_succ, Runs.run_cons]
    simpa [step, turn, hgranted, Prog.eval] using hn
  | release m mode next ih =>
    obtain ⟨outer, rfl, hnext⟩ := h
    obtain ⟨n, hn⟩ := ih hnext s
    refine ⟨n + 1, ?_⟩
    rw [List.replicate_succ, Runs.run_cons]
    simpa [step, turn, Prog.eval] using hn
  | act f next ih =>
    obtain ⟨n, hn⟩ := ih s (h s) (f s)
    refine ⟨n + 1, ?_⟩
    rw [List.replicate_succ, Runs.run_cons]
    simpa [step, turn, Prog.eval] using hn

end

end LockOrder
