import QdsBuffer.RingBuffer.Refusal

namespace QdsBuffer.RingBuffer
open Bytes

variable {cfg : Config} {clock : Nat → Nat}

def evictionCalls (cfg : Config) (clock : Nat → Nat) (rb : RingBuffer) : List DeleteCall :=
  (victim cfg rb.buffer).toList.flatMap (fun v => notify cfg ⟨some v, false, clock rb.ticks⟩)

def replacementCalls (cfg : Config) (id : Int) (b : List BufferEntry) : List DeleteCall :=
  (b.find? (hasId id)).toList.flatMap (fun it => notify cfg ⟨some it, false, 0⟩)

theorem makeRoom_calls (rb : RingBuffer) :
    (makeRoom cfg clock rb).calls = evictionCalls cfg clock rb := by
  unfold makeRoom evictionCalls
  split <;> rename_i hv <;> simp [hv]

theorem find_hasId_none {id : Int} {b : List BufferEntry} :
    b.find? (hasId id) = none ↔ ∀ e ∈ b, e.id ≠ id := by
  simp [List.find?_eq_none, hasId]

theorem eraseP_hasId_of_none {id : Int} {b : List BufferEntry} (h : ∀ e ∈ b, e.id ≠ id) :
    b.eraseP (hasId id) = b :=
  List.eraseP_of_forall_not (by simpa [hasId] using h)

theorem mem_eraseP_hasId {id : Int} {b : List BufferEntry} (hn : (ids b).Nodup) {e : BufferEntry} :
    e ∈ b.eraseP (hasId id) ↔ e ∈ b ∧ e.id ≠ id := by
  cases hf : b.find? (hasId id) with
  | none =>
    have hne := find_hasId_none.mp hf
    rw [eraseP_hasId_of_none hne]
    exact ⟨fun he => ⟨he, hne e he⟩, fun he => he.1⟩
  | some it =>
    refine ⟨fun he => ⟨List.mem_of_mem_eraseP he, eraseP_hasId_ne hn hf e he⟩, ?_⟩
    rintro ⟨he, hid⟩
    exact (List.mem_eraseP_of_neg (by simpa [hasId] using hid)).mpr he

theorem mem_remaining {b : List BufferEntry} (hn : (ids b).Nodup) {e : BufferEntry} :
    e ∈ remaining cfg b ↔ e ∈ b ∧ ∀ v ∈ victim cfg b, e.id ≠ v.id := by
  cases hv : victim cfg b with
  | none => simp [remaining_of_no_victim hv]
  | some v =>
    obtain ⟨pre, post, hb, -, hr⟩ := victim_split hv
    have hd := hn
    rw [hb, ids_append, ids_cons, List.nodup_append] at hd
    have hpost : v.id ∉ ids post := (List.nodup_cons.mp hd.2.1).1
    rw [hr, hb]
    simp only [List.mem_append, List.mem_cons, Option.mem_def, Option.some.injEq, forall_eq']
    constructor
    · rintro (he | he)
      · exact ⟨.inl he, hd.2.2 e.id (mem_ids.mpr ⟨e, he, rfl⟩) v.id (by simp)⟩
      · exact ⟨.inr (.inr he), fun heq => hpost (mem_ids.mpr ⟨e, he, heq⟩)⟩
    · rintro ⟨he | rfl | he, hne⟩
      · exact .inl he
      · exact absurd rfl hne
      · exact .inr he

theorem push_of_refuses (clock : Nat → Nat) (ms : List Measurement) {rb : RingBuffer} {id : Int}
    (h : WellFormed cfg rb) (hr : Refuses cfg rb.buffer id) :
    refused (push cfg clock id ms rb).result = true ∧
    (push cfg clock id ms rb).state.buffer = remaining cfg rb.buffer ∧
    (push cfg clock id ms rb).calls = evictionCalls cfg clock rb := by
  have href : refused (push cfg clock id ms rb).result = true := (push_refused_iff h).mpr hr
  refine ⟨href, ?_⟩
  by_cases hroom : Room cfg rb.buffer
  · rw [push_of_room h.size hroom] at href ⊢
    obtain ⟨hs, hc⟩ := (store_case _ _ _ _ _).unchanged (makeRoom_counter cfg clock rb) href
    exact ⟨by rw [hs, ← makeRoom_buffer cfg clock], by rw [hc, makeRoom_calls]⟩
  · have hv : victim cfg rb.buffer = none := by
      simpa [Room] using (not_or.mp hroom).2
    rw [push_of_not_room h.size hroom, remaining_of_no_victim hv]
    exact ⟨rfl, by simp [evictionCalls, hv]⟩

theorem push_of_accepts (clock : Nat → Nat) (ms : List Measurement) {rb : RingBuffer} {id : Int}
    (h : WellFormed cfg rb) (hr : ¬ Refuses cfg rb.buffer id) :
    ∃ n t, 0 ≤ n ∧ push cfg clock id ms rb =
      ⟨.ok n, ⟨(remaining cfg rb.buffer).eraseP (hasId id) ++ [⟨id, ms, clock t, false⟩], t + 1⟩,
        evictionCalls cfg clock rb ++ replacementCalls cfg id (remaining cfg rb.buffer)⟩ := by
  have hroom : Room cfg rb.buffer := by
    by_contra hn
    exact hr (.inl hn)
  have hord : IdOrder cfg (remaining cfg rb.buffer) := h.order.sublist (remaining_sublist cfg _)
  have href : ¬ refused (push cfg clock id ms rb).result = true := fun hn =>
    hr ((push_refused_iff h).mp hn)
  rw [push_of_room h.size hroom] at href ⊢
  have hcase := store_case cfg clock id ms (makeRoom cfg clock rb)
  generalize store cfg clock id ms (makeRoom cfg clock rb) = p at hcase href
  cases hcase with
  | badId => exact absurd rfl href
  | lockedEntry => exact absurd rfl href
  | append h0 h1 =>
    rw [makeRoom_buffer] at h0 h1
    have hne : ∀ e ∈ remaining cfg rb.buffer, e.id ≠ id := by
      by_cases hm : cfg.counterMode = 0
      · intro e he
        obtain ⟨back, hl⟩ := Option.isSome_iff_exists.mp
          (List.getLast?_isSome.mpr (List.ne_nil_of_mem he))
        have := h0 hm back hl
        have := hord.le_last hm hl e he
        omega
      · exact h1 hm
    refine ⟨_, (makeRoom cfg clock rb).ticks, makeRoom_counter cfg clock rb, ?_⟩
    simp only [pushBack, makeRoom_buffer, makeRoom_calls, eraseP_hasId_of_none hne,
      replacementCalls, find_hasId_none.mpr hne, Option.toList_none, List.flatMap_nil,
      List.append_nil]
  | replace it hm hf hk =>
    rw [makeRoom_buffer] at hf
    refine ⟨_, (makeRoom cfg clock rb).ticks, makeRoom_counter cfg clock rb, ?_⟩
    simp only [pushBack, makeRoom_buffer, makeRoom_calls, replacementCalls, hf,
      Option.toList_some, List.flatMap_singleton]

theorem mem_push {rb : RingBuffer} {id : Int} {ms : List Measurement} {e : BufferEntry}
    (h : WellFormed cfg rb) (he : e ∈ (push cfg clock id ms rb).state.buffer) :
    e ∈ rb.buffer ∨ e.id = id ∧ e.measurements = ms := by
  by_cases hr : Refuses cfg rb.buffer id
  · rw [(push_of_refuses clock ms h hr).2.1] at he
    exact .inl ((remaining_sublist cfg rb.buffer).subset he)
  · obtain ⟨n, t, -, hp⟩ := push_of_accepts clock ms h hr
    rw [hp] at he
    rcases List.mem_append.mp he with he | he
    · exact .inl ((remaining_sublist cfg rb.buffer).subset (List.mem_of_mem_eraseP he))
    · rw [List.mem_singleton.mp he]
      exact .inr ⟨rfl, rfl⟩

theorem deleteLoop_eq (id : Int) {b : List BufferEntry} (h : IdOrder cfg b) :
    deleteLoop cfg id b = (b.eraseP (hasId id), replacementCalls cfg id b) := by
  induction b with
  | nil => rfl
  | cons e b ih =>
    by_cases he : e.id = id
    · simp [deleteLoop, replacementCalls, hasId, he]
    · have hr := ih (h.sublist (List.sublist_cons_self e b))
      have hfind : replacementCalls cfg id (e :: b) = replacementCalls cfg id b := by
        simp [replacementCalls, hasId, he]
      have herase : (e :: b).eraseP (hasId id) = e :: b.eraseP (hasId id) := by
        simp [hasId, he]
      simp only [deleteLoop, he, ↓reduceIte, hfind, herase]
      split
      · -- The ids rise from e on, so no entry behind it has the smaller id.
        rename_i hlt
        have hord := h
        simp only [IdOrder, hlt.1, ↓reduceIte, ids_cons, List.pairwise_cons] at hord
        have hne : ∀ x ∈ b, x.id ≠ id := by
          intro x hx
          have := hord.1 x.id (mem_ids.mpr ⟨x, hx, rfl⟩)
          omega
        rw [eraseP_hasId_of_none hne, replacementCalls, find_hasId_none.mpr hne]
        rfl
      · rw [hr]

end QdsBuffer.RingBuffer
