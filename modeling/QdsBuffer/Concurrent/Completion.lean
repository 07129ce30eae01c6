import QdsBuffer.Library.Completion
import QdsBuffer.Concurrent.Stability

namespace QdsBuffer.Concurrent.Locks
open LockOrder

variable {cfg : DataSource.Config} {clock : Nat → Nat} {source : DataSource} {calls : List Call}

def Returned (t : LockOrder.Thread Mutex DataSource) : Prop := t.rest = .done ∧ t.held = []

theorem system_ordered (cfg : DataSource.Config) (clock : Nat → Nat) (source : DataSource)
    (calls : List Call) (schedule : List Nat) :
    ∀ t ∈ (system cfg clock source calls schedule).threads, t.Ordered rank := by
  refine Runs.run_invariant (I := fun sys : LockOrder.System Mutex DataSource =>
    ∀ t ∈ sys.threads, t.Ordered rank) step_ordered schedule (start_ordered ?_)
  intro p hp
  obtain ⟨call, -, rfl⟩ := List.mem_map.mp hp
  exact program_disciplined cfg clock call

theorem returned_of_done {schedule : List Nat}
    (h : ∀ t ∈ (system cfg clock source calls schedule).threads, t.rest = .done) :
    ∀ t ∈ (system cfg clock source calls schedule).threads, Returned t :=
  fun t ht => ⟨h t ht, (system_ordered cfg clock source calls schedule t ht).finished (h t ht)⟩

theorem calls_return (cfg : DataSource.Config) (clock : Nat → Nat) (source : DataSource)
    (calls : List Call) :
    (∀ choose : Nat → Nat, ∃ n,
      let sys := system cfg clock source calls (scheduled choose n)
      (∀ t ∈ sys.threads, Returned t) ∨
        (∃ t ∈ sys.threads, t.Proceeds sys.threads) ∧ ¬Moves sys (choose n)) ∧
    ∀ schedule, ∃ schedule',
      ∀ t ∈ (system cfg clock source calls (schedule ++ schedule')).threads, Returned t := by
  refine ⟨?_, ?_⟩
  · intro choose
    obtain ⟨n, hn⟩ := moves_end (LockOrder.start source (calls.map (·.program cfg clock))) choose
    refine ⟨n, ?_⟩
    by_cases hdone : ∀ t ∈ (system cfg clock source calls (scheduled choose n)).threads,
        t.rest = .done
    · exact .inl (returned_of_done hdone)
    · simp only [not_forall] at hdone
      obtain ⟨t, ht, hrest⟩ := hdone
      exact .inr ⟨progress (system_ordered cfg clock source calls _) ht hrest, hn⟩
  · intro schedule
    obtain ⟨schedule', hdone⟩ := completes (system cfg clock source calls schedule)
      (system_ordered cfg clock source calls schedule)
    rw [← system_append] at hdone
    exact ⟨schedule', returned_of_done hdone⟩

end QdsBuffer.Concurrent.Locks
