import QdsBuffer.RingBuffer.Basic

namespace QdsBuffer.RingBuffer
open Bytes

variable {cfg : Config} {clock : Nat → Nat}

def unlocked (e : BufferEntry) : Bool := !e.locked

def hasId (id : Int) (e : BufferEntry) : Bool := e.id = id

def victim (cfg : Config) (b : List BufferEntry) : Option BufferEntry :=
  if cfg.maxSize ≤ b.length ∧ cfg.allowOverflow then b.find? unlocked else none

def remaining (cfg : Config) (b : List BufferEntry) : List BufferEntry :=
  if cfg.maxSize ≤ b.length ∧ cfg.allowOverflow then b.eraseP unlocked else b

def Room (cfg : Config) (b : List BufferEntry) : Prop :=
  b.length < cfg.maxSize ∨ (victim cfg b).isSome

instance (b : List BufferEntry) : Decidable (Room cfg b) := inferInstanceAs (Decidable (_ ∨ _))

def makeRoom (cfg : Config) (clock : Nat → Nat) (rb : RingBuffer) : Discarded :=
  match victim cfg rb.buffer with
  | some v =>
    ⟨remaining cfg rb.buffer, if cfg.hasCallback then rb.ticks + 1 else rb.ticks,
      notify cfg ⟨some v, false, clock rb.ticks⟩, 1⟩
  | none => ⟨rb.buffer, rb.ticks, [], 0⟩

theorem discard_of_lt {size ticks : Nat} {es : List BufferEntry} (h : size < cfg.maxSize) :
    discard cfg clock size ticks es = ⟨es, ticks, [], 0⟩ := by
  cases es with
  | nil => rfl
  | cons e es => simp [discard, Nat.not_le.mpr h]

theorem discard_of_eq (clock : Nat → Nat) (ticks : Nat) {size : Nat} {es : List BufferEntry}
    (hs : size = cfg.maxSize) (hl : es.length ≤ size) :
    discard cfg clock size ticks es =
      match es.find? unlocked with
      | some v =>
        ⟨es.eraseP unlocked, if cfg.hasCallback then ticks + 1 else ticks,
          notify cfg ⟨some v, false, clock ticks⟩, 1⟩
      | none => ⟨es, ticks, [], 0⟩ := by
  induction es with
  | nil => rfl
  | cons e es ih =>
    have hlt : size - 1 < cfg.maxSize := by simp only [List.length_cons] at hl; omega
    simp only [discard, Nat.le_of_eq hs.symm, ↓reduceIte]
    cases he : e.locked with
    | false => simp [unlocked, he, discard_of_lt hlt]
    | true =>
      rw [ih (by simp only [List.length_cons] at hl; omega)]
      cases hf : es.find? unlocked with
      | none => simp [unlocked, he, hf]
      | some v => simp [unlocked, he, hf]

theorem victim_eq_none_of_lt {b : List BufferEntry} (h : b.length < cfg.maxSize) :
    victim cfg b = none := by
  simp [victim, Nat.not_le.mpr h]

theorem victim_mem {b : List BufferEntry} {v : BufferEntry} (h : victim cfg b = some v) :
    v ∈ b ∧ v.locked = false := by
  simp only [victim] at h
  split at h
  · exact ⟨List.mem_of_find?_eq_some h, by simpa [unlocked] using List.find?_some h⟩
  · simp at h

theorem victim_full {b : List BufferEntry} {v : BufferEntry} (h : victim cfg b = some v) :
    cfg.maxSize ≤ b.length ∧ cfg.allowOverflow = true := by
  simp only [victim] at h
  split at h
  · assumption
  · simp at h

theorem victim_split {b : List BufferEntry} {v : BufferEntry} (h : victim cfg b = some v) :
    ∃ pre post, b = pre ++ v :: post ∧ (∀ e ∈ pre, e.locked = true) ∧
      remaining cfg b = pre ++ post := by
  have hc := victim_full h
  simp only [victim, hc, and_self, ↓reduceIte] at h
  obtain ⟨hv, pre, post, hb, hp⟩ := List.find?_eq_some_iff_append.mp h
  have hpre : ∀ e ∈ pre, ¬ unlocked e = true := by
    intro e he
    simpa using hp e he
  refine ⟨pre, post, hb, ?_, ?_⟩
  · intro e he
    simpa [unlocked] using hpre e he
  · simp only [remaining, hc, and_self, ↓reduceIte]
    subst hb
    rw [List.eraseP_append_right _ (by simpa using hpre)]
    simp [hv]

theorem remaining_sublist (cfg : Config) (b : List BufferEntry) :
    (remaining cfg b).Sublist b := by
  simp only [remaining]
  split
  · exact List.eraseP_sublist
  · exact List.Sublist.refl b

theorem remaining_of_no_victim {b : List BufferEntry} (h : victim cfg b = none) :
    remaining cfg b = b := by
  simp only [victim, remaining] at h ⊢
  split
  · rename_i hc
    simp only [hc, and_self, ↓reduceIte, List.find?_eq_none] at h
    exact List.eraseP_of_forall_not (by simpa using h)
  · rfl

theorem remaining_length {b : List BufferEntry} {v : BufferEntry} (h : victim cfg b = some v) :
    (remaining cfg b).length + 1 = b.length := by
  obtain ⟨pre, post, hb, -, hr⟩ := victim_split h
  rw [hr, hb]
  simp only [List.length_append, List.length_cons]
  omega

theorem room_length {b : List BufferEntry} (hl : b.length ≤ cfg.maxSize) (h : Room cfg b) :
    (remaining cfg b).length < cfg.maxSize := by
  cases hv : victim cfg b with
  | some v =>
    have := remaining_length hv
    omega
  | none =>
    rw [remaining_of_no_victim hv]
    simpa [Room, hv] using h

theorem makeRoom_buffer (cfg : Config) (clock : Nat → Nat) (rb : RingBuffer) :
    (makeRoom cfg clock rb).buffer = remaining cfg rb.buffer := by
  simp only [makeRoom]
  split
  · rfl
  · exact (remaining_of_no_victim (by assumption)).symm

theorem push_of_room {rb : RingBuffer} {id : Int} {ms : List Measurement}
    (hl : rb.buffer.length ≤ cfg.maxSize) (h : Room cfg rb.buffer) :
    push cfg clock id ms rb = store cfg clock id ms (makeRoom cfg clock rb) := by
  by_cases hf : cfg.maxSize ≤ rb.buffer.length
  · obtain hlt | hs := h
    · omega
    · obtain ⟨v, hv⟩ := Option.isSome_iff_exists.mp hs
      have ha := (victim_full hv).2
      have hd : discard cfg clock rb.buffer.length rb.ticks rb.buffer = makeRoom cfg clock rb := by
        have hv' := hv
        simp only [victim, hf, ha, and_self, ↓reduceIte] at hv'
        rw [discard_of_eq clock _ (Nat.le_antisymm hl hf) (Nat.le_refl _), hv']
        simp [makeRoom, hv, remaining, hf, ha]
      have hr : ¬ cfg.maxSize ≤ (makeRoom cfg clock rb).buffer.length := by
        rw [makeRoom_buffer]
        exact Nat.not_le.mpr (room_length hl (.inr hs))
      simp only [push, hf, ha, hd, hr, ↓reduceIte, Bool.not_true, Bool.false_eq_true]
  · simp only [push, hf, ↓reduceIte, makeRoom, victim_eq_none_of_lt (Nat.not_le.mp hf)]

theorem push_of_not_room {rb : RingBuffer} {id : Int} {ms : List Measurement}
    (hl : rb.buffer.length ≤ cfg.maxSize) (h : ¬ Room cfg rb.buffer) :
    push cfg clock id ms rb =
      ⟨if cfg.allowOverflow then .ok (-1) else .error ringBufferOverflowException, rb, []⟩ := by
  simp only [Room, not_or, Nat.not_lt, Option.not_isSome_iff_eq_none] at h
  obtain ⟨hf, hv⟩ := h
  cases ha : cfg.allowOverflow with
  | false => simp [push, hf, ha]
  | true =>
    simp only [victim, hf, ha, and_self, ↓reduceIte] at hv
    have hd := discard_of_eq clock rb.ticks (Nat.le_antisymm hl hf) (Nat.le_refl _)
    rw [hv] at hd
    simp [push, hf, ha, hd]

def badId : Exception := ringBufferException (ascii "Bad Id") "RingBuffer::Push"

inductive StoreCase (cfg : Config) (clock : Nat → Nat) (id : Int) (ms : List Measurement)
    (d : Discarded) : Pushed → Prop
  | badId (back : BufferEntry) : cfg.counterMode = 0 → d.buffer.getLast? = some back →
      id ≤ back.id → StoreCase cfg clock id ms d ⟨.error badId, ⟨d.buffer, d.ticks⟩, d.calls⟩
  | lockedEntry (it : BufferEntry) : cfg.counterMode ≠ 0 → d.buffer.find? (hasId id) = some it →
      it.locked = true → StoreCase cfg clock id ms d ⟨.ok (-1), ⟨d.buffer, d.ticks⟩, d.calls⟩
  | append : (cfg.counterMode = 0 → ∀ back, d.buffer.getLast? = some back → back.id < id) →
      (cfg.counterMode ≠ 0 → ∀ e ∈ d.buffer, e.id ≠ id) →
      StoreCase cfg clock id ms d (pushBack clock id ms d)
  | replace (it : BufferEntry) : cfg.counterMode ≠ 0 → d.buffer.find? (hasId id) = some it →
      it.locked = false → StoreCase cfg clock id ms d (pushBack clock id ms
        { d with
          buffer := d.buffer.eraseP (hasId id)
          calls := d.calls ++ notify cfg ⟨some it, false, 0⟩ })

theorem store_case (cfg : Config) (clock : Nat → Nat) (id : Int) (ms : List Measurement)
    (d : Discarded) : StoreCase cfg clock id ms d (store cfg clock id ms d) := by
  by_cases hm : cfg.counterMode = 0
  · simp only [store, hm, ↓reduceIte]
    cases hl : d.buffer.getLast? with
    | none => exact .append (by simp [hl]) (absurd hm)
    | some back =>
      by_cases hle : id ≤ back.id
      · simpa only [hle, ↓reduceIte] using .badId back hm hl hle
      · simp only [hle, ↓reduceIte]
        exact .append (by simp only [hl, Option.some.injEq]; rintro _ _ rfl; omega) (absurd hm)
  · have hfind : d.buffer.find? (fun e => decide (e.id = id)) = d.buffer.find? (hasId id) := rfl
    simp only [store, hm, ↓reduceIte, hfind]
    cases hf : d.buffer.find? (hasId id) with
    | none => exact .append (absurd · hm) (by simpa [hasId, List.find?_eq_none] using fun _ => hf)
    | some it =>
      cases hk : it.locked with
      | false => simpa only [hk, Bool.not_false, ↓reduceIte] using .replace it hm hf hk
      | true => simpa only [hk, Bool.not_true] using .lockedEntry it hm hf hk

theorem hasId_split {id : Int} {b : List BufferEntry} {it : BufferEntry}
    (h : b.find? (hasId id) = some it) :
    ∃ pre post, b = pre ++ it :: post ∧ it.id = id ∧ (∀ e ∈ pre, e.id ≠ id) ∧
      b.eraseP (hasId id) = pre ++ post := by
  obtain ⟨hv, pre, post, hb, hp⟩ := List.find?_eq_some_iff_append.mp h
  have hpre : ∀ e ∈ pre, ¬ hasId id e = true := by
    intro e he
    simpa using hp e he
  refine ⟨pre, post, hb, by simpa [hasId] using hv, ?_, ?_⟩
  · intro e he
    simpa [hasId] using hpre e he
  · subst hb
    rw [List.eraseP_append_right _ (by simpa using hpre)]
    simp [hv]

end QdsBuffer.RingBuffer
