import QdsBuffer.RingBuffer.Notified
import QdsBuffer.RingBuffer.Times

namespace QdsBuffer.RingBuffer

variable {cfg : Config} {clock : Nat → Nat}

theorem StoreCase.ticks {id : Int} {ms : List Measurement} {d : Discarded} {p : Pushed}
    (hc : StoreCase cfg clock id ms d p) : d.ticks ≤ p.state.ticks := by
  cases hc with
  | badId => exact Nat.le_refl _
  | lockedEntry => exact Nat.le_refl _
  | append => exact Nat.le_succ _
  | replace => exact Nat.le_succ _

theorem StoreCase.times {id : Int} {ms : List Measurement} {d : Discarded} {p : Pushed} {t : Nat}
    (hc : StoreCase cfg clock id ms d p) (ht : t ∈ times p.state.buffer) :
    t ∈ times d.buffer ∨ t = clock d.ticks := by
  cases hc with
  | badId => exact .inl ht
  | lockedEntry => exact .inl ht
  | append =>
    rw [pushBack, times_append, List.mem_append] at ht
    exact ht.imp_right List.mem_singleton.mp
  | replace it =>
    rw [pushBack, times_append, List.mem_append] at ht
    refine ht.imp (fun hkept => ?_) List.mem_singleton.mp
    exact (List.eraseP_sublist.map _).subset hkept

theorem push_ticks (id : Int) (ms : List Measurement) {rb : RingBuffer} (hwf : WellFormed cfg rb) :
    rb.ticks ≤ (push cfg clock id ms rb).state.ticks := by
  by_cases hr : Room cfg rb.buffer
  · rw [push_of_room hwf.size hr]
    exact (makeRoom_ticks cfg clock rb).trans (store_case _ _ _ _ _).ticks
  · rw [push_of_not_room hwf.size hr]

theorem step_ticks (op : Op) {rb : RingBuffer} (hwf : WellFormed cfg rb) :
    rb.ticks ≤ (step cfg clock rb op).ticks := by
  cases op with
  | push id ms => exact push_ticks id ms hwf
  | delete id => exact Nat.le_refl _
  | reset reason =>
    rcases Decidable.em (rb.buffer = []) with hempty | hne
    · rw [step, reset_of_empty cfg clock reason hempty]
    · obtain ⟨info, -, hreset⟩ := reset_of_nonempty cfg clock reason hne
      rw [step, hreset]
      exact Nat.le_succ _
  | setLocked index locked => exact Nat.le_refl _

-- What an operation stores is not older than the operation.
theorem step_times (hclock : Monotone clock) (op : Op) {rb : RingBuffer} (hwf : WellFormed cfg rb)
    {t : Nat} (ht : t ∈ times (step cfg clock rb op).buffer) :
    t ∈ times rb.buffer ∨ clock rb.ticks ≤ t := by
  cases op with
  | push id ms =>
    rw [step] at ht
    by_cases hr : Room cfg rb.buffer
    · rw [push_of_room hwf.size hr] at ht
      rcases (store_case _ _ _ _ _).times ht with hkept | rfl
      · rw [makeRoom_buffer] at hkept
        exact .inl (((remaining_sublist cfg rb.buffer).map _).subset hkept)
      · exact .inr (hclock (makeRoom_ticks cfg clock rb))
    · rw [push_of_not_room hwf.size hr] at ht
      exact .inl ht
  | delete id => exact .inl (((deleteLoop_sublist cfg id rb.buffer).map _).subset ht)
  | reset reason =>
    rw [step, reset_buffer] at ht
    cases ht
  | setLocked index locked =>
    rw [step, setLocked, times_modify] at ht
    exact .inl ht

structure Covers (clock : Nat → Nat) (rb : RingBuffer) (info : ResetInformation) : Prop where
  time : info.resetTimeMs = clock rb.ticks
  oldest : info.oldestDatasetTimeMs ∈ times rb.buffer
  newest : info.newestDatasetTimeMs ∈ times rb.buffer
  order : info.oldestDatasetTimeMs ≤ info.newestDatasetTimeMs
  count : info.deletedDatasetsCount ≤ rb.buffer.length

theorem reset_covers (reason : ResetReason) {rb : RingBuffer} (h : Timed clock rb.buffer rb.ticks)
    (hne : rb.buffer ≠ []) : Covers clock rb (reset cfg clock reason rb).1 := by
  obtain ⟨front, rest, hfront⟩ := List.exists_cons_of_ne_nil hne
  obtain ⟨pre, back, hback⟩ := (List.eq_nil_or_concat' rb.buffer).resolve_left hne
  have hhead : rb.buffer.head? = some front := by simp [hfront]
  have hlast : rb.buffer.getLast? = some back := by simp [hback]
  have hleast := oldest_isLeast h.sorted hfront
  have hgreatest := newest_isGreatest h.sorted hback
  simp only [reset, hhead, hlast]
  exact ⟨rfl, hleast.1, hgreatest.1, hleast.2 hgreatest.1, Nat.mod_le _ _⟩

-- A data set evicted for room is reported with the time of its eviction.
def Dated (clock : Nat → Nat) (rb : RingBuffer) (call : DeleteCall) : Prop :=
  call.timestampMs = 0 ∨
    call.timestampMs = clock rb.ticks ∧ ∀ e ∈ call.entry, e.timestampMs ≤ clock rb.ticks

theorem notify_dated {rb : RingBuffer} {call : DeleteCall} (h : Dated clock rb call) :
    ∀ call' ∈ notify cfg call, Dated clock rb call' := by
  intro call' hcall'
  unfold notify at hcall'
  split at hcall'
  · rwa [List.mem_singleton.mp hcall']
  · cases hcall'

theorem evictionCalls_dated {rb : RingBuffer} (h : Timed clock rb.buffer rb.ticks) :
    ∀ call ∈ evictionCalls cfg clock rb, Dated clock rb call := by
  unfold evictionCalls
  cases hvictim : victim cfg rb.buffer with
  | none => simp
  | some v =>
    have hpast : v.timestampMs ≤ clock rb.ticks :=
      h.past _ (List.mem_map_of_mem (victim_mem hvictim).1)
    rw [Option.toList_some, List.flatMap_singleton]
    refine notify_dated (.inr ⟨rfl, ?_⟩)
    rintro e ⟨⟩
    exact hpast

theorem replacementCalls_dated (rb : RingBuffer) (id : Int) (b : List BufferEntry) :
    ∀ call ∈ replacementCalls cfg id b, Dated clock rb call := by
  unfold replacementCalls
  cases b.find? (hasId id) with
  | none => simp
  | some it =>
    rw [Option.toList_some, List.flatMap_singleton]
    exact notify_dated (.inl rfl)

theorem calls_dated (op : Op) {rb : RingBuffer} (hwf : WellFormed cfg rb)
    (h : Timed clock rb.buffer rb.ticks) : ∀ call ∈ calls cfg clock rb op, Dated clock rb call := by
  cases op with
  | push id ms =>
    rcases Classical.em (Refuses cfg rb.buffer id) with hrefuses | haccepts
    · rw [calls, (push_of_refuses clock ms hwf hrefuses).2.2]
      exact evictionCalls_dated h
    · obtain ⟨n, t, -, hpush⟩ := push_of_accepts clock ms hwf haccepts
      rw [calls, hpush, List.forall_mem_append]
      exact ⟨evictionCalls_dated h, replacementCalls_dated rb id _⟩
  | delete id =>
    rw [calls, delete, deleteLoop_eq id hwf.order]
    exact replacementCalls_dated rb id _
  | reset reason =>
    rcases Decidable.em (rb.buffer = []) with hempty | hne
    · rw [calls, reset_of_empty cfg clock reason hempty]
      exact List.forall_mem_nil _
    · obtain ⟨info, -, hreset⟩ := reset_of_nonempty cfg clock reason hne
      rw [calls, hreset]
      exact notify_dated (.inl rfl)
  | setLocked index locked => exact List.forall_mem_nil _

-- The logged resets follow each other, and what is stored is newer than all of them.
structure ResetsInOrder (cfg : Config) (clock : Nat → Nat) (rb : RingBuffer)
    (infos : List ResetInformation) : Prop where
  apart : infos.Pairwise (fun a b => a.resetTimeMs ≤ b.oldestDatasetTimeMs)
  inside : ∀ info ∈ infos, info.oldestDatasetTimeMs ≤ info.newestDatasetTimeMs ∧
    info.newestDatasetTimeMs ≤ info.resetTimeMs
  count : ∀ info ∈ infos, info.deletedDatasetsCount ≤ cfg.maxSize
  before : ∀ info ∈ infos, ∀ t ∈ times rb.buffer, info.resetTimeMs ≤ t
  past : ∀ info ∈ infos, info.resetTimeMs ≤ clock rb.ticks

structure DeletionsInOrder (clock : Nat → Nat) (rb : RingBuffer) (infos : List DeletionInformation) :
    Prop where
  order : infos.Pairwise (fun a b => b.deletionTimeMs = 0 ∨ a.deletionTimeMs ≤ b.deletionTimeMs)
  inside : ∀ info ∈ infos, info.deletionTimeMs = 0 ∨ info.dataSetTimeMs ≤ info.deletionTimeMs
  past : ∀ info ∈ infos, info.deletionTimeMs ≤ clock rb.ticks

theorem ResetsInOrder.sublist {rb : RingBuffer} {infos infos' : List ResetInformation}
    (h : ResetsInOrder cfg clock rb infos) (hs : infos'.Sublist infos) :
    ResetsInOrder cfg clock rb infos' where
  apart := h.apart.sublist hs
  inside info hinfo := h.inside info (hs.subset hinfo)
  count info hinfo := h.count info (hs.subset hinfo)
  before info hinfo := h.before info (hs.subset hinfo)
  past info hinfo := h.past info (hs.subset hinfo)

theorem DeletionsInOrder.sublist {rb : RingBuffer} {infos infos' : List DeletionInformation}
    (h : DeletionsInOrder clock rb infos) (hs : infos'.Sublist infos) :
    DeletionsInOrder clock rb infos' where
  order := h.order.sublist hs
  inside info hinfo := h.inside info (hs.subset hinfo)
  past info hinfo := h.past info (hs.subset hinfo)

section

variable (hclock : Monotone clock)
include hclock

theorem ResetsInOrder.step {rb : RingBuffer} {infos : List ResetInformation}
    (h : ResetsInOrder cfg clock rb infos) (op : Op) (hwf : WellFormed cfg rb) :
    ResetsInOrder cfg clock (step cfg clock rb op) infos where
  apart := h.apart
  inside := h.inside
  count := h.count
  before info hinfo t ht := by
    rcases step_times hclock op hwf ht with hkept | hnew
    · exact h.before info hinfo t hkept
    · exact (h.past info hinfo).trans hnew
  past info hinfo := (h.past info hinfo).trans (hclock (step_ticks op hwf))

theorem ResetsInOrder.reset {rb : RingBuffer} {infos : List ResetInformation}
    (h : ResetsInOrder cfg clock rb infos) (reason : ResetReason) (hwf : WellFormed cfg rb)
    (htimed : Timed clock rb.buffer rb.ticks) (hne : rb.buffer ≠ []) :
    ResetsInOrder cfg clock (RingBuffer.step cfg clock rb (.reset reason))
      (infos ++ [(RingBuffer.reset cfg clock reason rb).1]) := by
  have hcovers : Covers clock rb (RingBuffer.reset cfg clock reason rb).1 :=
    reset_covers reason htimed hne
  have hempty : times (RingBuffer.step cfg clock rb (.reset reason)).buffer = [] := by
    rw [RingBuffer.step, reset_buffer]
    rfl
  have hstep := h.step hclock (.reset reason) hwf
  refine ⟨?_, ?_, ?_, ?_, ?_⟩
  · refine List.pairwise_append.mpr ⟨h.apart, List.pairwise_singleton _ _, ?_⟩
    intro a ha b hb
    rw [List.mem_singleton.mp hb]
    exact h.before a ha _ hcovers.oldest
  · refine List.forall_mem_append.mpr ⟨h.inside, List.forall_mem_singleton.mpr ⟨hcovers.order, ?_⟩⟩
    rw [hcovers.time]
    exact htimed.past _ hcovers.newest
  · exact List.forall_mem_append.mpr ⟨h.count, List.forall_mem_singleton.mpr
      (hcovers.count.trans hwf.size)⟩
  · rw [hempty]
    exact fun _ _ => List.forall_mem_nil _
  · refine List.forall_mem_append.mpr ⟨hstep.past, List.forall_mem_singleton.mpr ?_⟩
    rw [hcovers.time]
    exact hclock (step_ticks _ hwf)

theorem DeletionsInOrder.step {rb : RingBuffer} {infos news : List DeletionInformation}
    (h : DeletionsInOrder clock rb infos) (op : Op) (hwf : WellFormed cfg rb)
    (hnews : ∀ info ∈ news, info.deletionTimeMs = 0 ∨
      info.deletionTimeMs = clock rb.ticks ∧ info.dataSetTimeMs ≤ clock rb.ticks) :
    DeletionsInOrder clock (RingBuffer.step cfg clock rb op) (infos ++ news) := by
  have hlate : ∀ info ∈ news, info.deletionTimeMs ≤ clock rb.ticks := by
    intro info hinfo
    rcases hnews info hinfo with hzero | ⟨heq, -⟩
    · rw [hzero]
      exact Nat.zero_le _
    · exact Nat.le_of_eq heq
  have hnow : clock rb.ticks ≤ clock (RingBuffer.step cfg clock rb op).ticks :=
    hclock (step_ticks op hwf)
  have hlater : ∀ a b : DeletionInformation, a.deletionTimeMs ≤ clock rb.ticks → b ∈ news →
      b.deletionTimeMs = 0 ∨ a.deletionTimeMs ≤ b.deletionTimeMs := by
    intro a b ha hb
    rcases hnews b hb with hzero | ⟨heq, -⟩
    · exact .inl hzero
    · rw [heq]
      exact .inr ha
  refine ⟨?_, ?_, ?_⟩
  · refine List.pairwise_append.mpr ⟨h.order, ?_, fun a ha b hb => hlater a b (h.past a ha) hb⟩
    exact List.pairwise_iff_forall_sublist.mpr
      (fun hab => hlater _ _ (hlate _ (hab.subset (by simp))) (hab.subset (by simp)))
  · refine List.forall_mem_append.mpr ⟨h.inside, ?_⟩
    intro info hinfo
    rcases hnews info hinfo with hzero | ⟨heq, hpast⟩
    · exact .inl hzero
    · rw [heq]
      exact .inr hpast
  · intro info hinfo
    refine Nat.le_trans ?_ hnow
    rcases List.mem_append.mp hinfo with hold | hnew
    · exact h.past info hold
    · exact hlate info hnew

end

end QdsBuffer.RingBuffer
