import QdsBuffer.Library.LockSets
import Mathlib.Logic.Hydra
import Mathlib.Data.List.Perm.Basic

namespace LockOrder

variable {μ σ : Type}

inductive Child : Prog μ σ → Prog μ σ → Prop
  | acquire (m : μ) (mode : Mode) (next : Prog μ σ) : Child next (.acquire m mode next)
  | release (m : μ) (mode : Mode) (next : Prog μ σ) : Child next (.release m mode next)
  | act (f : σ → σ) (next : σ → Prog μ σ) (s : σ) : Child (next s) (.act f next)

theorem child_wellFounded : WellFounded (Child : Prog μ σ → Prog μ σ → Prop) := by
  refine ⟨fun p => ?_⟩
  induction p with
  | done => exact ⟨_, nofun⟩
  | acquire m mode next ih => exact ⟨_, fun q hq => by cases hq; exact ih⟩
  | release m mode next ih => exact ⟨_, fun q hq => by cases hq; exact ih⟩
  | act f next ih => exact ⟨_, fun q hq => by cases hq; exact ih _⟩

-- What the threads have still to do, in no order: every move puts a part in the place of a program.
def remainingWork (sys : System μ σ) : Multiset (Prog μ σ) :=
  (sys.threads.map (·.rest) : List (Prog μ σ))

def Shrinks : System μ σ → System μ σ → Prop :=
  InvImage (Relation.CutExpand Child) remainingWork

theorem shrinks_wellFounded : WellFounded (Shrinks : System μ σ → System μ σ → Prop) :=
  InvImage.wf _ child_wellFounded.cutExpand

theorem shrinks_of_child {sys : System μ σ} {i : Nat} {t t' : Thread μ σ} {s : σ}
    (ht : sys.threads[i]? = some t) (hchild : Child t'.rest t.rest) :
    Shrinks ⟨s, sys.threads.set i t'⟩ sys := by
  obtain ⟨hlt, rfl⟩ := List.getElem?_eq_some_iff.mp ht
  refine ⟨{t'.rest}, sys.threads[i].rest, fun p hp => ?_, ?_⟩
  · rwa [Multiset.mem_singleton.mp hp]
  · have hnew := (List.set_perm_cons_eraseIdx hlt t').map (·.rest)
    have hold := (List.getElem_cons_eraseIdx_perm hlt).map (·.rest)
    have hnew' : remainingWork ⟨s, sys.threads.set i t'⟩ =
        t'.rest ::ₘ ((sys.threads.eraseIdx i).map (·.rest) : List (Prog μ σ)) :=
      Multiset.coe_eq_coe.mpr hnew
    have hold' : sys.threads[i].rest ::ₘ ((sys.threads.eraseIdx i).map (·.rest) : List (Prog μ σ)) =
        remainingWork sys := Multiset.coe_eq_coe.mpr hold
    rw [hnew', ← hold', add_comm, Multiset.singleton_add, add_comm, Multiset.singleton_add,
      Multiset.cons_swap]

def Moves (sys : System μ σ) (i : Nat) : Prop :=
  ∃ t, sys.threads[i]? = some t ∧ t.Proceeds sys.threads

variable {rank : μ → Nat}

theorem exists_moves {sys : System μ σ} (h : ∀ t ∈ sys.threads, t.Ordered rank) {t : Thread μ σ}
    (ht : t ∈ sys.threads) (hrest : t.rest ≠ .done) : ∃ i, Moves sys i := by
  obtain ⟨u, hu, hproceeds⟩ := progress h ht hrest
  obtain ⟨i, hi⟩ := List.mem_iff_getElem?.mp hu
  exact ⟨i, u, hi, hproceeds⟩

section

variable [DecidableEq μ]

theorem Moves.shrinks {sys : System μ σ} {i : Nat} (h : Moves sys i) : Shrinks (step sys i) sys := by
  obtain ⟨t, ht, hproceeds⟩ := h
  unfold Thread.Proceeds at hproceeds
  simp only [step, ht, turn]
  cases hrest : t.rest with
  | done => simp [hrest] at hproceeds
  | acquire m mode next =>
    have hgranted : Granted sys.threads m mode := by
      cases mode with
      | shared => simpa only [hrest] using (by simpa only [hrest] using hproceeds : _ ∧ _).1
      | exclusive => simpa only [hrest] using hproceeds
    simp only [hgranted, ↓reduceIte]
    exact shrinks_of_child ht (by rw [hrest]; exact .acquire m mode next)
  | release m mode next =>
    exact shrinks_of_child ht (by rw [hrest]; exact .release m mode next)
  | act f next =>
    exact shrinks_of_child ht (by rw [hrest]; exact .act f next sys.state)

def scheduled (choose : Nat → Nat) (n : Nat) : List Nat := (List.range n).map choose

theorem run_scheduled (sys : System μ σ) (choose : Nat → Nat) (n : Nat) :
    Runs.run step sys (scheduled choose (n + 1)) =
      step (Runs.run step sys (scheduled choose n)) (choose n) := by
  rw [scheduled, List.range_succ, List.map_append, Runs.run_append]
  rfl

-- No choice of threads lets them move for ever.
theorem moves_end (sys : System μ σ) (choose : Nat → Nat) :
    ∃ n, ¬Moves (Runs.run step sys (scheduled choose n)) (choose n) := by
  have hwf : IsWellFounded (System μ σ) Shrinks := ⟨shrinks_wellFounded⟩
  obtain ⟨n, hn⟩ := WellFounded.not_rel_apply_succ (r := Shrinks)
    (fun n => Runs.run step sys (scheduled choose n))
  refine ⟨n, fun hmoves => hn ?_⟩
  rw [run_scheduled]
  exact hmoves.shrinks

theorem completes (sys : System μ σ) (h : ∀ t ∈ sys.threads, t.Ordered rank) :
    ∃ schedule, ∀ t ∈ (Runs.run step sys schedule).threads, t.rest = .done := by
  induction sys using shrinks_wellFounded.induction with
  | _ sys ih =>
    by_cases hdone : ∀ t ∈ sys.threads, t.rest = .done
    · exact ⟨[], hdone⟩
    · simp only [not_forall] at hdone
      obtain ⟨t, ht, hrest⟩ := hdone
      obtain ⟨i, hi⟩ := exists_moves h ht hrest
      obtain ⟨schedule, hschedule⟩ := ih (step sys i) hi.shrinks (step_ordered sys i h)
      exact ⟨i :: schedule, hschedule⟩

end

end LockOrder
