import QdsBuffer.Concurrent.Linearizable

namespace QdsBuffer.Concurrent.Locks
open LockOrder

-- The list is what its entries make of it. They file each announcement once, in the order of the
-- operations on the buffer, but for what a call has still to file.
structure ListHistory {β ρ : Type} (J : Journal Mutex DataSource RingBuffer β RingBuffer.Op Unit ρ)
    (acknowledgements : Call → List Unit → Prop) (cfg : DataSource.Config) (clock : Nat → Nat)
    (source : DataSource) (calls : List Call) (schedule : List Nat)
    (history : List (Nat × RingBuffer.Op)) (entries : List (Nat × (ρ ⊕ Unit))) : Prop where
  operations : BufferHistory cfg clock source calls schedule history
  list : J.book (system cfg clock source calls schedule).state =
    Runs.run J.enter (J.book source) (entries.map Prod.snd)
  filed : LockOrder.filed entries <+: announced J source.buffer (history.map Prod.snd)
  complete : (∀ i, ¬Unfinished (system cfg clock source calls schedule) i) →
    LockOrder.filed entries = announced J source.buffer (history.map Prod.snd)
  acknowledged : ∀ (i : Nat) (call : Call), calls[i]? = some call →
    ¬Unfinished (system cfg clock source calls schedule) i → acknowledgements call (noted i entries)

section

variable {β ρ : Type} {cfg : DataSource.Config} {clock : Nat → Nat} {guard : Mutex}
  {news : RingBuffer → RingBuffer.Op → List ρ} {book : DataSource → β} {enter : β → ρ ⊕ Unit → β}
  {acknowledgements : Call → List Unit → Prop} {source : DataSource} {calls : List Call}
  {schedule : List Nat} {history : List (Nat × RingBuffer.Op)} {entries : List (Nat × (ρ ⊕ Unit))}
  {reporter : Nat} {pending : List ρ}

theorem list_of_journaled
    (h : Journaled (ringJournal cfg clock guard news book enter) source.buffer (book source)
      (wordsOf Call.Operations calls) (wordsOf acknowledgements calls)
      (system cfg clock source calls schedule) history entries reporter pending) :
    ListHistory (ringJournal cfg clock guard news book enter) acknowledgements cfg clock source calls
      schedule history entries where
  operations := history_of_linearizes h.linearizes
  list := h.book
  filed := ⟨pending, h.news.symm⟩
  complete hfinished := (h.complete (done_of_not_unfinished hfinished)).symm
  acknowledged i call hcall hfinished := by
    obtain ⟨t, ht, hdone⟩ := done_of_returned hcall hfinished
    exact (h.finished ht hdone).2.1 call hcall

theorem calls_journaled (source : DataSource) (calls : List Call)
    (hprograms : ∀ call : Call, (call.program cfg clock).Journals
      (ringJournal cfg clock guard news book enter) call.Operations (acknowledgements call) [] []) :
    Journaled (ringJournal cfg clock guard news book enter) source.buffer (book source)
      (wordsOf Call.Operations calls) (wordsOf acknowledgements calls)
      (LockOrder.start source (calls.map (·.program cfg clock))) [] [] 0 [] := by
  refine start_journaled source ?_
  intro i p hp
  rw [List.getElem?_map, Option.map_eq_some_iff] at hp
  obtain ⟨call, hcall, rfl⟩ := hp
  rw [wordsOf_eq Call.Operations hcall, wordsOf_eq acknowledgements hcall]
  exact hprograms call

theorem calls_listed (source : DataSource) (calls : List Call)
    (hprograms : ∀ call : Call, (call.program cfg clock).Journals
      (ringJournal cfg clock guard news book enter) call.Operations (acknowledgements call) [] [])
    (schedule : List Nat) :
    ∃ history entries, ListHistory (ringJournal cfg clock guard news book enter) acknowledgements cfg
        clock source calls schedule history entries ∧
      ∀ schedule', ∃ history' entries', ListHistory (ringJournal cfg clock guard news book enter)
          acknowledgements cfg clock source calls (schedule ++ schedule') (history ++ history')
          (entries ++ entries') ∧
        (∀ p ∈ history', Unfinished (system cfg clock source calls schedule) p.1) ∧
        ∀ p ∈ entries', Unfinished (system cfg clock source calls schedule) p.1 := by
  obtain ⟨history, entries, reporter, pending, h, -, -⟩ :=
    (calls_journaled source calls hprograms).run (start_exclusion source _) schedule
  refine ⟨history, entries, list_of_journaled h, ?_⟩
  intro schedule'
  obtain ⟨history', entries', reporter', pending', hmore, hhistory, hentries⟩ :=
    h.run (system_exclusion cfg clock source calls schedule) schedule'
  rw [List.nil_append, List.nil_append, ← Runs.run_append] at hmore
  exact ⟨history', entries', list_of_journaled hmore, fun p hp => (hhistory p hp).2,
    fun p hp => (hentries p hp).2⟩

end

theorem deletion_records (cfg : DataSource.Config) (entries : List (DeletionInformation ⊕ Unit)) :
    BoundedLog.Records cfg.deletionInformationSize (sinceNote entries)
      (Runs.run (enterDeletion cfg) ⟨[], false⟩ entries).log := by
  induction entries using List.reverseRecOn with
  | nil => exact BoundedLog.Records.empty
  | append_singleton entries entry ih =>
    rw [Runs.run_append]
    cases entry with
    | inl info =>
      rw [sinceNote_filed]
      have h := ih.append info
      rwa [← DataSource.logDeletion_log] at h
    | inr _ =>
      rw [sinceNote_note]
      exact BoundedLog.Records.empty

-- The information of a Reset that found the buffer empty is not kept.
theorem reset_records (cfg : DataSource.Config) (entries : List (ResetInformation ⊕ Unit)) :
    BoundedLog.Records cfg.resetInformationSize
      ((sinceNote entries).filter (fun info => info.resetTimeMs ≠ 0))
      (Runs.run (enterReset cfg) ⟨[], false⟩ entries).log := by
  induction entries using List.reverseRecOn with
  | nil => exact BoundedLog.Records.empty
  | append_singleton entries entry ih =>
    rw [Runs.run_append]
    cases entry with
    | inl info =>
      rw [sinceNote_filed, List.filter_append]
      rcases Nat.eq_zero_or_pos info.resetTimeMs with hzero | hpos
      · have hlen := ih.length
        have hkept : DataSource.logReset cfg info (Runs.run (enterReset cfg) ⟨[], false⟩ entries) =
            Runs.run (enterReset cfg) ⟨[], false⟩ entries :=
          DataSource.logReset_empty hzero (hlen.trans_le (Nat.min_le_left _ _))
        have hnone : [info].filter (fun info => info.resetTimeMs ≠ 0) = [] := by simp [hzero]
        rw [hnone, List.append_nil]
        rwa [← hkept] at ih
      · have hne : info.resetTimeMs ≠ 0 := Nat.ne_of_gt hpos
        have hone : [info].filter (fun info => info.resetTimeMs ≠ 0) = [info] := by simp [hne]
        have h := ih.append info
        rw [← DataSource.logReset_log hne] at h
        rwa [hone]
    | inr _ =>
      rw [sinceNote_note]
      exact BoundedLog.Records.empty

section

variable {cfg : DataSource.Config} {clock : Nat → Nat} {files : Files}
  {acknowledgements : Call → List Unit → Prop} {calls : List Call} {schedule : List Nat}
  {history : List (Nat × RingBuffer.Op)}

theorem ListHistory.deletions {entries : List (Nat × (DeletionInformation ⊕ Unit))}
    (h : ListHistory (deletionJournal cfg clock) acknowledgements cfg clock (DataSource.initial files)
      calls schedule history entries) :
    BoundedLog.Records cfg.deletionInformationSize (sinceNote (entries.map Prod.snd))
      (system cfg clock (DataSource.initial files) calls schedule).state.deletionInformationList.log := by
  have hrecords := deletion_records cfg (entries.map Prod.snd)
  have hlist : (system cfg clock (DataSource.initial files) calls schedule).state.deletionInformationList =
      Runs.run (enterDeletion cfg) ⟨[], false⟩ (entries.map Prod.snd) := h.list
  rwa [← hlist] at hrecords

theorem ListHistory.resets {entries : List (Nat × (ResetInformation ⊕ Unit))}
    (h : ListHistory (resetJournal cfg clock) acknowledgements cfg clock (DataSource.initial files)
      calls schedule history entries) :
    BoundedLog.Records cfg.resetInformationSize
      ((sinceNote (entries.map Prod.snd)).filter (fun info => info.resetTimeMs ≠ 0))
      (system cfg clock (DataSource.initial files) calls schedule).state.resetInformationList.log := by
  have hrecords := reset_records cfg (entries.map Prod.snd)
  have hlist : (system cfg clock (DataSource.initial files) calls schedule).state.resetInformationList =
      Runs.run (enterReset cfg) ⟨[], false⟩ (entries.map Prod.snd) := h.list
  rwa [← hlist] at hrecords

theorem ListHistory.listed {β ρ : Type}
    {J : Journal Mutex DataSource RingBuffer β RingBuffer.Op Unit ρ} {source : DataSource}
    {entries : List (Nat × (ρ ⊕ Unit))}
    (h : ListHistory J acknowledgements cfg clock source calls schedule history entries) :
    (sinceNote (entries.map Prod.snd)).Sublist (announced J source.buffer (history.map Prod.snd)) :=
  (sinceNote_suffix entries).sublist.trans h.filed.sublist

end

theorem deletions_reported_interleaved (cfg : DataSource.Config) (clock : Nat → Nat) (files : Files)
    (calls : List Call) (schedule : List Nat) :
    ∃ history entries, ListHistory (deletionJournal cfg clock) Call.OverflowAcknowledgements cfg clock
        (DataSource.initial files) calls schedule history entries ∧
      BoundedLog.Records cfg.deletionInformationSize (sinceNote (entries.map Prod.snd))
        (system cfg clock (DataSource.initial files) calls schedule).state.deletionInformationList.log ∧
      ∀ schedule', ∃ history' entries', ListHistory (deletionJournal cfg clock)
          Call.OverflowAcknowledgements cfg clock (DataSource.initial files) calls
          (schedule ++ schedule') (history ++ history') (entries ++ entries') ∧
        (∀ p ∈ history',
          Unfinished (system cfg clock (DataSource.initial files) calls schedule) p.1) ∧
        ∀ p ∈ entries', Unfinished (system cfg clock (DataSource.initial files) calls schedule) p.1 := by
  obtain ⟨history, entries, h, hmore⟩ :=
    calls_listed (DataSource.initial files) calls (program_deletions cfg clock) schedule
  exact ⟨history, entries, h, h.deletions, hmore⟩

theorem resets_reported_interleaved (cfg : DataSource.Config) (clock : Nat → Nat) (files : Files)
    (calls : List Call) (schedule : List Nat) :
    ∃ history entries, ListHistory (resetJournal cfg clock) Call.ResetAcknowledgements cfg clock
        (DataSource.initial files) calls schedule history entries ∧
      BoundedLog.Records cfg.resetInformationSize
        ((sinceNote (entries.map Prod.snd)).filter (fun info => info.resetTimeMs ≠ 0))
        (system cfg clock (DataSource.initial files) calls schedule).state.resetInformationList.log ∧
      ∀ schedule', ∃ history' entries', ListHistory (resetJournal cfg clock)
          Call.ResetAcknowledgements cfg clock (DataSource.initial files) calls
          (schedule ++ schedule') (history ++ history') (entries ++ entries') ∧
        (∀ p ∈ history',
          Unfinished (system cfg clock (DataSource.initial files) calls schedule) p.1) ∧
        ∀ p ∈ entries', Unfinished (system cfg clock (DataSource.initial files) calls schedule) p.1 := by
  obtain ⟨history, entries, h, hmore⟩ :=
    calls_listed (DataSource.initial files) calls (program_resets cfg clock) schedule
  exact ⟨history, entries, h, h.resets, hmore⟩

end QdsBuffer.Concurrent.Locks
