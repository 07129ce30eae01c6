import QdsBuffer.RingBuffer.Invariant

namespace QdsBuffer.RingBuffer
open Bytes

variable {cfg : Config} {clock : Nat → Nat}

def refused : Except Exception Int → Bool
  | .error _ => true
  | .ok n => n = -1

def BadId (cfg : Config) (b : List BufferEntry) (id : Int) : Prop :=
  cfg.counterMode = 0 ∧ ∃ back ∈ b.getLast?, id ≤ back.id

def LockedEntry (cfg : Config) (b : List BufferEntry) (id : Int) : Prop :=
  cfg.counterMode ≠ 0 ∧ ∃ it ∈ b, it.id = id ∧ it.locked = true

def Rejects (cfg : Config) (b : List BufferEntry) (id : Int) : Prop :=
  BadId cfg b id ∨ LockedEntry cfg b id

def Refuses (cfg : Config) (b : List BufferEntry) (id : Int) : Prop :=
  ¬ Room cfg b ∨ Rejects cfg (remaining cfg b) id

theorem makeRoom_counter (cfg : Config) (clock : Nat → Nat) (rb : RingBuffer) :
    0 ≤ (makeRoom cfg clock rb).deletionCounter := by
  unfold makeRoom
  split <;> simp

theorem find_hasId {id : Int} {b : List BufferEntry} {it : BufferEntry}
    (hn : (ids b).Nodup) (hm : it ∈ b) (h : it.id = id) : b.find? (hasId id) = some it := by
  cases hf : b.find? (hasId id) with
  | none => exact absurd (by simpa [hasId] using h) (List.find?_eq_none.mp hf it hm)
  | some e =>
    have he : e.id = id := by simpa [hasId] using List.find?_some hf
    rw [eq_of_id hn (List.mem_of_find?_eq_some hf) hm (he.trans h.symm)]

theorem StoreCase.refused_iff {id : Int} {ms : List Measurement} {d : Discarded} {p : Pushed}
    (hc : StoreCase cfg clock id ms d p) (hd : 0 ≤ d.deletionCounter) (hn : (ids d.buffer).Nodup) :
    refused p.result = true ↔ Rejects cfg d.buffer id := by
  cases hc with
  | badId back hm hl hle => exact ⟨fun _ => .inl ⟨hm, back, hl, hle⟩, fun _ => rfl⟩
  | lockedEntry it hm hf hk =>
    have hit : it.id = id := by simpa [hasId] using List.find?_some hf
    exact ⟨fun _ => .inr ⟨hm, it, List.mem_of_find?_eq_some hf, hit, hk⟩, fun _ => rfl⟩
  | append h0 h1 =>
    have hr : ¬ Rejects cfg d.buffer id := by
      rintro (⟨hm, back, hl, hle⟩ | ⟨hm, it, hit, hid, -⟩)
      · have := h0 hm back hl
        omega
      · exact h1 hm it hit hid
    simp only [pushBack, refused, decide_eq_true_eq, hr, iff_false]
    omega
  | replace it hm hf hk =>
    have hr : ¬ Rejects cfg d.buffer id := by
      rintro (⟨h0, -⟩ | ⟨-, e, he, hid, hl⟩)
      · exact hm h0
      · rw [find_hasId hn he hid, Option.some.injEq] at hf
        rw [hf, hk] at hl
        exact absurd hl (by simp)
    simp only [pushBack, refused, decide_eq_true_eq, hr, iff_false]
    omega

theorem push_refused_iff {rb : RingBuffer} {id : Int} {ms : List Measurement}
    (h : WellFormed cfg rb) :
    refused (push cfg clock id ms rb).result = true ↔ Refuses cfg rb.buffer id := by
  by_cases hr : Room cfg rb.buffer
  · rw [push_of_room h.size hr, (store_case _ _ _ _ _).refused_iff (makeRoom_counter cfg clock rb)
      (by rw [makeRoom_buffer]; exact (h.order.sublist (remaining_sublist cfg _)).nodup)]
    simp [Refuses, hr, makeRoom_buffer]
  · rw [push_of_not_room h.size hr]
    cases cfg.allowOverflow <;> simp [refused, Refuses, hr]

def Replaces (cfg : Config) (b : List BufferEntry) (id : Int) : Prop :=
  cfg.counterMode ≠ 0 ∧ Room cfg b ∧ ∃ it ∈ remaining cfg b, it.id = id ∧ it.locked = false

theorem replaces_iff {b : List BufferEntry} {id : Int} (h : IdOrder cfg b) :
    Replaces cfg b id ↔ ¬ Refuses cfg b id ∧ id ∈ ids (remaining cfg b) := by
  have hord : IdOrder cfg (remaining cfg b) := h.sublist (remaining_sublist cfg b)
  constructor
  · rintro ⟨hm, hroom, it, hit, hid, hl⟩
    refine ⟨?_, mem_ids.mpr ⟨it, hit, hid⟩⟩
    rintro (hn | ⟨h0, -⟩ | ⟨-, e, he, heq, hk⟩)
    · exact hn hroom
    · exact hm h0
    · have hsame := eq_of_id hord.nodup he hit (heq.trans hid.symm)
      rw [hsame, hl] at hk
      cases hk
  · rintro ⟨hr, hm⟩
    simp only [Refuses, Rejects, not_or, not_not] at hr
    obtain ⟨hroom, hbad, hlocked⟩ := hr
    obtain ⟨it, hit, hid⟩ := mem_ids.mp hm
    have h0 : cfg.counterMode ≠ 0 := by
      intro h0
      obtain ⟨back, hl⟩ := Option.isSome_iff_exists.mp
        (List.getLast?_isSome.mpr (List.ne_nil_of_mem hit))
      exact hbad ⟨h0, back, hl, hid ▸ hord.le_last h0 hl it hit⟩
    refine ⟨h0, hroom, it, hit, hid, ?_⟩
    cases hk : it.locked with
    | false => rfl
    | true => exact absurd ⟨h0, it, hit, hid, hk⟩ hlocked

theorem StoreCase.unchanged {id : Int} {ms : List Measurement} {d : Discarded} {p : Pushed}
    (hc : StoreCase cfg clock id ms d p) (hd : 0 ≤ d.deletionCounter)
    (hr : refused p.result = true) : p.state = ⟨d.buffer, d.ticks⟩ ∧ p.calls = d.calls := by
  cases hc with
  | badId => exact ⟨rfl, rfl⟩
  | lockedEntry => exact ⟨rfl, rfl⟩
  | append =>
    simp only [pushBack, refused, decide_eq_true_eq] at hr
    omega
  | replace =>
    simp only [pushBack, refused, decide_eq_true_eq] at hr
    omega

def LosesEntry (cfg : Config) (b : List BufferEntry) (id : Int) : Prop :=
  (∃ v, victim cfg b = some v) ∧ Rejects cfg (remaining cfg b) id

theorem push_unchanged_iff {rb : RingBuffer} {id : Int} {ms : List Measurement}
    (h : WellFormed cfg rb) :
    (refused (push cfg clock id ms rb).result = true →
      (push cfg clock id ms rb).state.buffer = rb.buffer ∧ (push cfg clock id ms rb).calls = []) ↔
    ¬ LosesEntry cfg rb.buffer id := by
  rw [push_refused_iff h]
  constructor
  · rintro hu ⟨⟨v, hv⟩, hrej⟩
    have hroom : Room cfg rb.buffer := .inr (by simp [hv])
    have hb := (hu (.inr hrej)).1
    have href : refused (push cfg clock id ms rb).result = true :=
      (push_refused_iff h).mpr (.inr hrej)
    rw [push_of_room h.size hroom] at hb href
    rw [((store_case _ _ _ _ _).unchanged (makeRoom_counter cfg clock rb) href).1, makeRoom_buffer] at hb
    have hlen := remaining_length hv
    change remaining cfg rb.buffer = rb.buffer at hb
    rw [hb] at hlen
    omega
  · intro hl hr
    by_cases hroom : Room cfg rb.buffer
    · have hrej : Rejects cfg (remaining cfg rb.buffer) id := hr.resolve_left (not_not.mpr hroom)
      have hv : victim cfg rb.buffer = none := by
        cases hv : victim cfg rb.buffer with
        | none => rfl
        | some v => exact absurd ⟨⟨v, hv⟩, hrej⟩ hl
      have href : refused (push cfg clock id ms rb).result = true :=
        (push_refused_iff h).mpr (.inr hrej)
      rw [push_of_room h.size hroom] at href ⊢
      obtain ⟨hs, hc⟩ := (store_case _ _ _ _ _).unchanged (makeRoom_counter cfg clock rb) href
      rw [hs, hc]
      simp [makeRoom, hv]
    · rw [push_of_not_room h.size hroom]
      exact ⟨rfl, rfl⟩

theorem refused_push_keeps_buffer_iff (cfg : Config) (clock : Nat → Nat) (ops : List Op) (id : Int)
    (ms : List Measurement) :
    let rb := Runs.run (step cfg clock) initial ops
    let p := push cfg clock id ms rb
    (refused p.result = true → p.state.buffer = rb.buffer ∧ p.calls = []) ↔
      ¬ LosesEntry cfg rb.buffer id :=
  push_unchanged_iff (run_wellFormed cfg clock ops)

theorem refused_push_discards :
    let rb := Runs.run (step ⟨2, 0, true, true⟩ id) initial [.push 1 [], .push 2 []]
    let p := push ⟨2, 0, true, true⟩ id 2 [] rb
    refused p.result = true ∧ ¬ (p.state.buffer = rb.buffer ∧ p.calls = []) := by
  decide

end QdsBuffer.RingBuffer
