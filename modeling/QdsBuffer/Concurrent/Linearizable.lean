import QdsBuffer.Concurrent.Journals

namespace QdsBuffer.Concurrent.Locks
open LockOrder

-- The buffer is what one order of the operations of all calls makes of it.
structure BufferHistory (cfg : DataSource.Config) (clock : Nat → Nat) (source : DataSource)
    (calls : List Call) (schedule : List Nat) (history : List (Nat × RingBuffer.Op)) : Prop where
  buffer : (system cfg clock source calls schedule).state.buffer =
    Runs.run (RingBuffer.step cfg.ring clock) source.buffer (history.map Prod.snd)
  started : ∀ (i : Nat) (call : Call), calls[i]? = some call →
    ∃ later, call.Operations (own i history ++ later)
  returned : ∀ (i : Nat) (call : Call), calls[i]? = some call →
    ¬Unfinished (system cfg clock source calls schedule) i → call.Operations (own i history)

def wordsOf {ω : Type} (words : Call → List ω → Prop) (calls : List Call) (i : Nat) (word : List ω) :
    Prop :=
  ∀ call, calls[i]? = some call → words call word

theorem wordsOf_eq {ω : Type} (words : Call → List ω → Prop) {calls : List Call} {i : Nat}
    {call : Call} (hcall : calls[i]? = some call) : wordsOf words calls i = words call := by
  funext word
  simp [wordsOf, hcall]

variable {cfg : DataSource.Config} {clock : Nat → Nat} {source : DataSource} {calls : List Call}

theorem calls_linearize (cfg : DataSource.Config) (clock : Nat → Nat) (source : DataSource)
    (calls : List Call) :
    Linearizes (·.buffer) (RingBuffer.step cfg.ring clock) source.buffer (wordsOf Call.Operations calls)
      (LockOrder.start source (calls.map (·.program cfg clock))) [] := by
  apply start_linearizes
  intro i p hp
  rw [List.getElem?_map, Option.map_eq_some_iff] at hp
  obtain ⟨call, hcall, rfl⟩ := hp
  rw [wordsOf_eq Call.Operations hcall]
  exact (program_deletions cfg clock call).performs

theorem thread_of_call {i : Nat} {call : Call} (hcall : calls[i]? = some call)
    (schedule : List Nat) :
    ∃ t, (system cfg clock source calls schedule).threads[i]? = some t := by
  obtain ⟨hlt, -⟩ := List.getElem?_eq_some_iff.mp hcall
  have hlength : (system cfg clock source calls schedule).threads.length = calls.length :=
    (run_length _ schedule).trans (by simp [LockOrder.start])
  rw [← hlength] at hlt
  exact ⟨_, List.getElem?_eq_getElem hlt⟩

theorem done_of_returned {i : Nat} {call : Call} (hcall : calls[i]? = some call)
    {schedule : List Nat} (hfinished : ¬Unfinished (system cfg clock source calls schedule) i) :
    ∃ t, (system cfg clock source calls schedule).threads[i]? = some t ∧ t.rest = .done := by
  obtain ⟨t, ht⟩ := thread_of_call hcall schedule
  refine ⟨t, ht, ?_⟩
  by_contra hrest
  exact hfinished ⟨t, ht, hrest⟩

theorem history_of_linearizes {schedule : List Nat} {history : List (Nat × RingBuffer.Op)}
    (h : Linearizes (·.buffer) (RingBuffer.step cfg.ring clock) source.buffer
      (wordsOf Call.Operations calls) (system cfg clock source calls schedule) history) :
    BufferHistory cfg clock source calls schedule history where
  buffer := h.state
  started i call hcall := by
    obtain ⟨t, ht⟩ := thread_of_call hcall schedule
    have : Nonempty DataSource := ⟨source⟩
    obtain ⟨later, hlater⟩ := h.started ht
    exact ⟨later, hlater call hcall⟩
  returned i call hcall hfinished := by
    obtain ⟨t, ht, hdone⟩ := done_of_returned hcall hfinished
    exact h.finished ht hdone call hcall

theorem history_grows (cfg : DataSource.Config) (clock : Nat → Nat) (source : DataSource)
    (calls : List Call) (schedule : List Nat) :
    ∃ history, BufferHistory cfg clock source calls schedule history ∧
      (∀ p ∈ history, p.1 ∈ schedule) ∧
      ∀ schedule', ∃ history',
        BufferHistory cfg clock source calls (schedule ++ schedule') (history ++ history') ∧
        ∀ p ∈ history', p.1 ∈ schedule' ∧ Unfinished (system cfg clock source calls schedule) p.1 := by
  obtain ⟨history, hhistory, hby⟩ := (calls_linearize cfg clock source calls).run schedule
  refine ⟨history, history_of_linearizes hhistory, fun p hp => (hby p hp).1, ?_⟩
  intro schedule'
  obtain ⟨history', hmore, hby'⟩ := hhistory.run schedule'
  rw [List.nil_append, ← Runs.run_append] at hmore
  exact ⟨history', history_of_linearizes hmore, hby'⟩

end QdsBuffer.Concurrent.Locks
