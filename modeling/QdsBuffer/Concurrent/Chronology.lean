import QdsBuffer.Concurrent.Reports
import QdsBuffer.RingBuffer.Chronology

namespace QdsBuffer.Concurrent.Locks
open LockOrder

-- The information of a Reset that found the buffer empty carries no times.
def dated (infos : List ResetInformation) : List ResetInformation :=
  infos.filter (fun info => info.resetTimeMs ≠ 0)

@[simp] theorem dated_append (infos infos' : List ResetInformation) :
    dated (infos ++ infos') = dated infos ++ dated infos' := List.filter_append _ _

theorem dated_of_zero {info : ResetInformation} (h : info.resetTimeMs = 0) : dated [info] = [] := by
  simp [dated, h]

theorem dated_of_ne {info : ResetInformation} (h : info.resetTimeMs ≠ 0) :
    dated [info] = [info] := by
  simp [dated, h]

variable {cfg : DataSource.Config} {clock : Nat → Nat} {rb : RingBuffer}

def Sound (cfg : DataSource.Config) (clock : Nat → Nat) (rb : RingBuffer) : Prop :=
  RingBuffer.WellFormed cfg.ring rb ∧ RingBuffer.Timed clock rb.buffer rb.ticks

theorem initial_sound : Sound cfg clock RingBuffer.initial :=
  ⟨RingBuffer.initial_wellFormed, List.Pairwise.nil, List.forall_mem_nil _⟩

section

variable (hclock : Monotone clock)
include hclock

theorem returned_inOrder {infos : List ResetInformation}
    (h : RingBuffer.ResetsInOrder cfg.ring clock rb (dated infos)) (op : RingBuffer.Op)
    (hrb : Sound cfg clock rb) :
    RingBuffer.ResetsInOrder cfg.ring clock (RingBuffer.step cfg.ring clock rb op)
      (dated (infos ++ returnedInformation cfg clock rb op)) := by
  have hkept := h.step hclock op hrb.1
  rw [dated_append]
  cases op with
  | reset reason =>
    unfold returnedInformation
    rcases Decidable.em ((RingBuffer.reset cfg.ring clock reason rb).1.resetTimeMs = 0) with
      hzero | hne
    · rw [dated_of_zero hzero, List.append_nil]
      exact hkept
    · rw [dated_of_ne hne]
      refine h.reset hclock reason hrb.1 hrb.2 ?_
      intro hempty
      rw [RingBuffer.reset_of_empty cfg.ring clock reason hempty] at hne
      exact hne rfl
  | _ =>
    have hnone : dated infos ++ dated [] = dated infos := List.append_nil _
    rwa [← hnone] at hkept

theorem notified_inOrder {infos : List DeletionInformation}
    (h : RingBuffer.DeletionsInOrder clock rb infos) (op : RingBuffer.Op)
    (hrb : Sound cfg clock rb) :
    RingBuffer.DeletionsInOrder clock (RingBuffer.step cfg.ring clock rb op)
      (infos ++ (RingBuffer.calls cfg.ring clock rb op).filterMap DataSource.notification) := by
  refine h.step hclock op hrb.1 ?_
  intro info hinfo
  obtain ⟨call, hcall, hnotified⟩ := List.mem_filterMap.mp hinfo
  obtain ⟨entry, hentry, rfl⟩ := Option.map_eq_some_iff.mp hnotified
  rcases RingBuffer.calls_dated op hrb.1 hrb.2 call hcall with hzero | ⟨heq, hpast⟩
  · exact .inl hzero
  · exact .inr ⟨heq, hpast entry hentry⟩

theorem announced_resets_inOrder (cfg : DataSource.Config) (ops : List RingBuffer.Op) :
    RingBuffer.ResetsInOrder cfg.ring clock
      (Runs.run (RingBuffer.step cfg.ring clock) RingBuffer.initial ops)
      (dated (announced (resetJournal cfg clock) RingBuffer.initial ops)) := by
  refine (announced_rule (J := resetJournal cfg clock)
    (P := fun rb infos => Sound cfg clock rb ∧
      RingBuffer.ResetsInOrder cfg.ring clock rb (dated infos)) ?_ ops ⟨initial_sound, ?_⟩).2
  · rintro rb infos op ⟨hrb, horder⟩
    exact ⟨RingBuffer.step_timed hclock rb op hrb, returned_inOrder hclock horder op hrb⟩
  · exact ⟨List.Pairwise.nil, nofun, nofun, nofun, nofun⟩

theorem announced_deletions_inOrder (cfg : DataSource.Config) (ops : List RingBuffer.Op) :
    RingBuffer.DeletionsInOrder clock
      (Runs.run (RingBuffer.step cfg.ring clock) RingBuffer.initial ops)
      (announced (deletionJournal cfg clock) RingBuffer.initial ops) := by
  refine (announced_rule (J := deletionJournal cfg clock)
    (P := fun rb infos => Sound cfg clock rb ∧ RingBuffer.DeletionsInOrder clock rb infos) ?_ ops
    ⟨initial_sound, ?_⟩).2
  · rintro rb infos op ⟨hrb, horder⟩
    exact ⟨RingBuffer.step_timed hclock rb op hrb, notified_inOrder hclock horder op hrb⟩
  · exact ⟨List.Pairwise.nil, nofun, nofun⟩

end

theorem logs_chronological_interleaved (cfg : DataSource.Config) (clock : Nat → Nat) (files : Files)
    (calls : List Call) (schedule : List Nat) (hclock : Monotone clock) :
    let s := (system cfg clock (DataSource.initial files) calls schedule).state
    RingBuffer.ResetsInOrder cfg.ring clock s.buffer s.resetInformationList.list ∧
      RingBuffer.DeletionsInOrder clock s.buffer s.deletionInformationList.list := by
  intro s
  refine ⟨?_, ?_⟩
  · obtain ⟨history, entries, h, -⟩ :=
      calls_listed (DataSource.initial files) calls (program_resets cfg clock) schedule
    have horder := announced_resets_inOrder hclock cfg (history.map Prod.snd)
    have hbuffer : s.buffer = _ := h.operations.buffer
    have hlist : s.resetInformationList.list = _ := h.resets.list
    rw [hbuffer, hlist]
    exact horder.sublist ((BoundedLog.last_sublist _ _).trans (h.listed.filter _))
  · obtain ⟨history, entries, h, -⟩ :=
      calls_listed (DataSource.initial files) calls (program_deletions cfg clock) schedule
    have horder := announced_deletions_inOrder hclock cfg (history.map Prod.snd)
    have hbuffer : s.buffer = _ := h.operations.buffer
    have hlist : s.deletionInformationList.list = _ := h.deletions.list
    rw [hbuffer, hlist]
    exact horder.sublist ((BoundedLog.last_sublist _ _).trans h.listed)

-- The second Add evicts the data set of the first one, then a Reset removes its own.
theorem logs_chronological_interleaved_reset :
    let cfg : DataSource.Config := ⟨1, 0, true, 1, 1⟩
    let access : Nat → FileAccess := fun _ => ⟨true, true, true, true⟩
    let calls : List Call :=
      [.add 1 DataSource.emptyDocument access, .add 2 DataSource.emptyDocument access, .reset .user]
    let schedule :=
      [0, 1, 0, 1, 0, 1, 0, 1, 0, 1, 1, 2, 1, 2, 1, 1, 1, 1, 1, 1, 2, 2, 2, 2, 2, 2, 2, 2]
    let s := (system cfg id (DataSource.initial (fun _ => none)) calls schedule).state
    (s.resetInformationList.list.length = 1 ∧ s.deletionInformationList.list.length = 1) ∧
      RingBuffer.ResetsInOrder cfg.ring id s.buffer s.resetInformationList.list ∧
      RingBuffer.DeletionsInOrder id s.buffer s.deletionInformationList.list := by
  intro cfg access calls schedule
  refine ⟨by decide +kernel, ?_⟩
  exact logs_chronological_interleaved cfg id (fun _ => none) calls schedule monotone_id

end QdsBuffer.Concurrent.Locks
