import QdsBuffer.Library.LockSets
import Mathlib.Data.List.Forall2
import Mathlib.Algebra.GroupWithZero.Nat

namespace LockOrder

variable {μ σ : Type}

-- The program adds at most n to the count, however the other threads change the state in between.
def Prog.Raises (count : σ → Nat) : Nat → Prog μ σ → Prop
  | _, .done => True
  | n, .acquire _ _ next => next.Raises count n
  | n, .release _ _ next => next.Raises count n
  | n, .act f next => ∀ s, ∃ left, count (f s) + left ≤ count s + n ∧ (next s).Raises count left

variable {count : σ → Nat}

theorem raises_of_every [DecidableEq μ] {p : Prog μ σ} {held : List (μ × Mode)} (n : Nat)
    (h : p.Every (fun _ f => ∀ s, count (f s) ≤ count s) held) : p.Raises count n := by
  induction p generalizing held with
  | done => trivial
  | acquire m mode next ih => exact ih h
  | release m mode next ih => exact ih h
  | act f next ih =>
    intro s
    exact ⟨n, Nat.add_le_add_right (h.1 s) n, ih s (h.2 s)⟩

-- Each thread has a share left, and the count with all shares stays within the total.
def Budgeted (count : σ → Nat) (total : Nat) (sys : System μ σ) : Prop :=
  ∃ shares, List.Forall₂ (fun t n => t.rest.Raises count n) sys.threads shares ∧
    count sys.state + shares.sum ≤ total

theorem forall₂_set {α : Type} {R : α → Nat → Prop} {xs : List α} {ns : List Nat}
    (h : List.Forall₂ R xs ns) {i : Nat} {x : α} (hx : xs[i]? = some x) :
    ∃ n, R x n ∧ ∀ y left, R y left → List.Forall₂ R (xs.set i y) (ns.set i left) ∧
      (ns.set i left).sum + n = ns.sum + left := by
  induction h generalizing i with
  | nil => cases hx
  | @cons a n xs ns ha hrest ih =>
    cases i with
    | zero =>
      cases hx
      refine ⟨n, ha, fun y left hy => ⟨.cons hy hrest, ?_⟩⟩
      simp only [List.set_cons_zero, List.sum_cons]
      omega
    | succ i =>
      obtain ⟨m, hm, hset⟩ := ih hx
      refine ⟨m, hm, fun y left hy => ?_⟩
      obtain ⟨hall, hsum⟩ := hset y left hy
      refine ⟨.cons ha hall, ?_⟩
      simp only [List.set_cons_succ, List.sum_cons]
      omega

theorem Budgeted.pass {total : Nat} {sys : System μ σ} (h : Budgeted count total sys) {i : Nat}
    {t t' : Thread μ σ} (ht : sys.threads[i]? = some t)
    (hsame : ∀ n, t.rest.Raises count n → t'.rest.Raises count n) :
    Budgeted count total ⟨sys.state, sys.threads.set i t'⟩ := by
  obtain ⟨shares, hshares, hle⟩ := h
  obtain ⟨n, hn, hset⟩ := forall₂_set hshares ht
  obtain ⟨hall, hsum⟩ := hset t' n (hsame n hn)
  refine ⟨_, hall, ?_⟩
  change count sys.state + (shares.set i n).sum ≤ total
  omega

section

variable [DecidableEq μ]

theorem step_budgeted {total : Nat} (sys : System μ σ) (i : Nat) (h : Budgeted count total sys) :
    Budgeted count total (step sys i) := by
  cases step_case sys i with
  | idle hstep => rwa [hstep]
  | acquired t m mode next ht hrest _ hstep =>
    rw [hstep]
    exact h.pass ht (fun n hn => by rwa [hrest] at hn)
  | released t m mode next ht hrest hstep =>
    rw [hstep]
    exact h.pass ht (fun n hn => by rwa [hrest] at hn)
  | acted t f next ht hrest hstep =>
    obtain ⟨shares, hshares, hle⟩ := h
    obtain ⟨n, hn, hset⟩ := forall₂_set hshares ht
    rw [hrest] at hn
    obtain ⟨left, hleft, hnext⟩ := hn sys.state
    obtain ⟨hall, hsum⟩ := hset ⟨t.held, next sys.state⟩ left hnext
    rw [hstep]
    refine ⟨_, hall, ?_⟩
    change count (f sys.state) + (shares.set i left).sum ≤ total
    omega

-- In no interleaving does the count rise by more than the shares of all programs together.
theorem run_budget {s : σ} {progs : List (Prog μ σ)} {shares : List Nat}
    (h : List.Forall₂ (fun p n => p.Raises count n) progs shares) (schedule : List Nat) :
    count (Runs.run step (start s progs) schedule).state ≤ count s + shares.sum := by
  have hstart : Budgeted count (count s + shares.sum) (start s progs) := by
    refine ⟨shares, ?_, Nat.le_refl _⟩
    exact List.forall₂_map_left_iff.mpr h
  obtain ⟨left, -, hle⟩ := Runs.run_invariant (I := Budgeted count (count s + shares.sum))
    step_budgeted schedule hstart
  omega

end

end LockOrder
