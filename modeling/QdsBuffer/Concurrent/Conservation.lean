import QdsBuffer.Concurrent.Entries
import QdsBuffer.Concurrent.Reports

namespace QdsBuffer.Concurrent.Locks
open LockOrder

theorem reported_passed {calls : List DeleteCall}
    (h : ∀ call ∈ calls, call.clear = false ∨ call.entry = none) :
    (calls.filterMap DataSource.notification).map (·.dataSetTimeMs) = RingBuffer.times (RingBuffer.passed calls) := by
  induction calls with
  | nil => rfl
  | cons call calls ih =>
    obtain ⟨hcall, hcalls⟩ := List.forall_mem_cons.mp h
    have hrest := ih hcalls
    unfold RingBuffer.times RingBuffer.passed at hrest ⊢
    cases hentry : call.entry with
    | none => cases hclear : call.clear <;> simp [DataSource.notification, hentry, hclear, hrest]
    | some entry =>
      have hclear : call.clear = false := hcall.resolve_right (by simp [hentry])
      simp [DataSource.notification, hentry, hclear, hrest]

theorem announced_passed (cfg : DataSource.Config) (clock : Nat → Nat) (ops : List RingBuffer.Op) :
    (announced (deletionJournal cfg clock) RingBuffer.initial ops).map (·.dataSetTimeMs) =
      RingBuffer.times (RingBuffer.ledger cfg.ring clock ops).passed := by
  induction ops using List.reverseRecOn with
  | nil => rfl
  | append_singleton ops op ih =>
    have hwf := RingBuffer.run_wellFormed cfg.ring clock ops
    have hreported : _ = RingBuffer.times (RingBuffer.passed (RingBuffer.calls cfg.ring clock _ op)) :=
      reported_passed (RingBuffer.calls_clear rfl op hwf)
    have hlast : announced (deletionJournal cfg clock)
        (Runs.run (RingBuffer.step cfg.ring clock) RingBuffer.initial ops) [op] = _ :=
      List.append_nil _
    rw [announced_append, List.map_append, ih, RingBuffer.ledger_append, RingBuffer.account,
      RingBuffer.times_append, ← hreported]
    exact congrArg _ (congrArg _ hlast)

-- What the Adds have stored is in the buffer, in a report on a deletion, or went with a Reset.
structure Conserved (cfg : DataSource.Config) (clock : Nat → Nat) (s : DataSource)
    (ops : List RingBuffer.Op) (reports : List DeletionInformation) : Prop where
  balance : RingBuffer.bag (RingBuffer.ledger cfg.ring clock ops).stored =
    RingBuffer.bag s.buffer.buffer + RingBuffer.bag (RingBuffer.ledger cfg.ring clock ops).passed +
      RingBuffer.bag (RingBuffer.ledger cfg.ring clock ops).removedByReset
  reported : reports.map (·.dataSetTimeMs) <+:
    RingBuffer.times (RingBuffer.ledger cfg.ring clock ops).passed

theorem data_sets_accounted_interleaved (cfg : DataSource.Config) (clock : Nat → Nat) (files : Files)
    (calls : List Call) (schedule : List Nat) :
    let sys := system cfg clock (DataSource.initial files) calls schedule
    ∃ history entries, ListHistory (deletionJournal cfg clock) Call.OverflowAcknowledgements cfg clock
        (DataSource.initial files) calls schedule history entries ∧
      Conserved cfg clock sys.state (history.map Prod.snd) (filed entries) ∧
      ((∀ i, ¬Unfinished sys i) →
        (RingBuffer.ledger cfg.ring clock (history.map Prod.snd)).stored.length =
          sys.state.buffer.buffer.length + (filed entries).length +
            (RingBuffer.ledger cfg.ring clock (history.map Prod.snd)).removedByReset.length) := by
  intro sys
  obtain ⟨history, entries, h, -⟩ :=
    calls_listed (DataSource.initial files) calls (program_deletions cfg clock) schedule
  have hbuffer : sys.state.buffer = _ := h.operations.buffer
  have hpassed := announced_passed cfg clock (history.map Prod.snd)
  have hbalance : RingBuffer.bag (RingBuffer.ledger cfg.ring clock _).stored = _ :=
    RingBuffer.ledger_balance rfl (history.map Prod.snd)
  refine ⟨history, entries, h, ⟨?_, ?_⟩, ?_⟩
  · rw [hbuffer]
    exact hbalance
  · rw [← hpassed]
    exact h.filed.map _
  · intro hfinished
    have hall : filed entries = announced (deletionJournal cfg clock) RingBuffer.initial _ :=
      h.complete hfinished
    have hlength := congrArg List.length hpassed
    rw [← hall, List.length_map, RingBuffer.times, List.length_map] at hlength
    have hcount := congrArg Multiset.card hbalance
    rw [Multiset.card_add, Multiset.card_add, RingBuffer.bag_card, RingBuffer.bag_card,
      RingBuffer.bag_card, RingBuffer.bag_card, ← hlength] at hcount
    rw [hbuffer]
    exact hcount

end QdsBuffer.Concurrent.Locks
