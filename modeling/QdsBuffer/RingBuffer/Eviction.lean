import QdsBuffer.RingBuffer.Effect

namespace QdsBuffer.RingBuffer

variable {cfg : Config} {clock : Nat → Nat}

def New (cfg : Config) (b : List BufferEntry) (id : Int) : Prop :=
  if cfg.counterMode = 0 then ∀ e ∈ b, e.id < id else ∀ e ∈ b, e.id ≠ id

theorem New.sublist {b c : List BufferEntry} {id : Int} (h : New cfg b id) (hs : c.Sublist b) :
    New cfg c id := by
  unfold New at h ⊢
  split at h <;> rename_i hm <;> simp only [hm, ↓reduceIte]
  · exact fun e he => h e (hs.subset he)
  · exact fun e he => h e (hs.subset he)

theorem store_of_new (clock : Nat → Nat) (ms : List Measurement) {id : Int} {d : Discarded}
    (h : New cfg d.buffer id) : store cfg clock id ms d = pushBack clock id ms d := by
  have hcase := store_case cfg clock id ms d
  generalize store cfg clock id ms d = p at hcase
  cases hcase with
  | badId back hm hl hle =>
    simp only [New, hm, ↓reduceIte] at h
    have hlt := h back (List.mem_of_getLast? hl)
    omega
  | lockedEntry it hm hf =>
    simp only [New, hm, ↓reduceIte] at h
    exact absurd (find_hasId_none.mpr h) (by simp [hf])
  | append => rfl
  | replace it hm hf =>
    simp only [New, hm, ↓reduceIte] at h
    exact absurd (find_hasId_none.mpr h) (by simp [hf])

theorem push_of_new {rb : RingBuffer} {id : Int} (ms : List Measurement) (h : WellFormed cfg rb)
    (hroom : Room cfg rb.buffer) (hnew : New cfg rb.buffer id) :
    push cfg clock id ms rb = pushBack clock id ms (makeRoom cfg clock rb) := by
  rw [push_of_room h.size hroom]
  apply store_of_new
  rw [makeRoom_buffer]
  exact hnew.sublist (remaining_sublist cfg rb.buffer)

theorem victim_of_unlocked {b : List BufferEntry} (hfull : cfg.maxSize ≤ b.length)
    (ha : cfg.allowOverflow = true) (h : ∃ e ∈ b, e.locked = false) :
    ∃ v, victim cfg b = some v := by
  apply Option.isSome_iff_exists.mp
  simpa [victim, hfull, ha, unlocked, List.find?_isSome] using h

theorem victim_of_locked {b : List BufferEntry} (h : ∀ e ∈ b, e.locked = true) :
    victim cfg b = none := by
  have hf : b.find? unlocked = none := by simpa [List.find?_eq_none, unlocked] using h
  simp [victim, hf]

theorem victim_behind_locked {b pre post : List BufferEntry} {v : BufferEntry}
    (hfull : cfg.maxSize ≤ b.length) (ha : cfg.allowOverflow = true) (hb : b = pre ++ v :: post)
    (hpre : ∀ e ∈ pre, e.locked = true) (hv : v.locked = false) :
    victim cfg b = some v ∧ remaining cfg b = pre ++ post := by
  have hp : ∀ e ∈ pre, ¬ unlocked e = true := by
    intro e he
    simp [unlocked, hpre e he]
  have hun : unlocked v = true := by simp [unlocked, hv]
  simp only [victim, remaining, hfull, ha, and_self, ↓reduceIte]
  subst hb
  refine ⟨List.find?_eq_some_iff_append.mpr ⟨hun, pre, post, rfl, by simpa using hp⟩, ?_⟩
  rw [List.eraseP_append_right _ (by simpa using hp)]
  simp [hun]

theorem push_with_space {rb : RingBuffer} {id : Int} (ms : List Measurement)
    (h : WellFormed cfg rb) (hnew : New cfg rb.buffer id) (hlt : rb.buffer.length < cfg.maxSize) :
    push cfg clock id ms rb =
      ⟨.ok 0, ⟨rb.buffer ++ [⟨id, ms, clock rb.ticks, false⟩], rb.ticks + 1⟩, []⟩ := by
  rw [push_of_new ms h (.inl hlt) hnew, makeRoom, victim_eq_none_of_lt hlt, pushBack]

theorem push_evicts {rb : RingBuffer} {id : Int} (ms : List Measurement) (h : WellFormed cfg rb)
    (hnew : New cfg rb.buffer id) (hfull : cfg.maxSize ≤ rb.buffer.length)
    (ha : cfg.allowOverflow = true) (hunlocked : ∃ e ∈ rb.buffer, e.locked = false) :
    (push cfg clock id ms rb).result = .ok 1 ∧ ∃ pre v post t, rb.buffer = pre ++ v :: post ∧
      (∀ e ∈ pre, e.locked = true) ∧ v.locked = false ∧
      (push cfg clock id ms rb).state.buffer = pre ++ post ++ [⟨id, ms, t, false⟩] := by
  obtain ⟨v, hv⟩ := victim_of_unlocked hfull ha hunlocked
  obtain ⟨pre, post, hb, hpre, hrem⟩ := victim_split hv
  have hroom : Room cfg rb.buffer := .inr (by simp [hv])
  have hcount : (makeRoom cfg clock rb).deletionCounter = 1 := by simp only [makeRoom, hv]
  rw [push_of_new ms h hroom hnew, pushBack, makeRoom_buffer, hrem, hcount]
  exact ⟨rfl, pre, v, post, _, hb, hpre, (victim_mem hv).2, rfl⟩

theorem push_without_room (clock : Nat → Nat) {rb : RingBuffer} (id : Int) (ms : List Measurement)
    (h : WellFormed cfg rb) (hfull : cfg.maxSize ≤ rb.buffer.length)
    (hno : cfg.allowOverflow = false ∨ ∀ e ∈ rb.buffer, e.locked = true) :
    push cfg clock id ms rb =
      ⟨if cfg.allowOverflow then .ok (-1) else .error ringBufferOverflowException, rb, []⟩ := by
  apply push_of_not_room h.size
  have hv : victim cfg rb.buffer = none := by
    rcases hno with ha | hl
    · simp [victim, ha]
    · exact victim_of_locked hl
  simp [Room, hv, hfull]

theorem eviction_takes_oldest_unlocked (cfg : Config) (clock : Nat → Nat) (ops : List Op) (id : Int)
    (ms : List Measurement)
    (hnew : New cfg (Runs.run (step cfg clock) initial ops).buffer id) :
    let rb := Runs.run (step cfg clock) initial ops
    let p := push cfg clock id ms rb
    (rb.buffer.length < cfg.maxSize →
      p.result = .ok 0 ∧ ∃ t, p.state.buffer = rb.buffer ++ [⟨id, ms, t, false⟩]) ∧
    (cfg.maxSize ≤ rb.buffer.length → cfg.allowOverflow = false →
      p.result = .error ringBufferOverflowException ∧ p.state = rb) ∧
    (cfg.maxSize ≤ rb.buffer.length → cfg.allowOverflow = true →
      (∃ e ∈ rb.buffer, e.locked = false) →
      p.result = .ok 1 ∧ ∃ pre v post t, rb.buffer = pre ++ v :: post ∧
        (∀ e ∈ pre, e.locked = true) ∧ v.locked = false ∧
        p.state.buffer = pre ++ post ++ [⟨id, ms, t, false⟩]) ∧
    (cfg.maxSize ≤ rb.buffer.length → cfg.allowOverflow = true →
      (∀ e ∈ rb.buffer, e.locked = true) ∨ cfg.maxSize = 0 →
      p.result = .ok (-1) ∧ p.state = rb) := by
  intro rb p
  have hwf : WellFormed cfg rb := run_wellFormed cfg clock ops
  refine ⟨?_, ?_, ?_, ?_⟩
  · intro hlt
    have hp : p = _ := push_with_space ms hwf hnew hlt
    rw [hp]
    exact ⟨rfl, clock rb.ticks, rfl⟩
  · intro hfull ha
    have hp : p = _ := push_without_room clock id ms hwf hfull (.inl ha)
    rw [hp, ha]
    exact ⟨rfl, rfl⟩
  · intro hfull ha hunlocked
    exact push_evicts ms hwf hnew hfull ha hunlocked
  · intro hfull ha hlocked
    have hall : ∀ e ∈ rb.buffer, e.locked = true := by
      rcases hlocked with hl | h0
      · exact hl
      · have hsize := hwf.size
        have hnil : rb.buffer = [] := List.eq_nil_of_length_eq_zero (by omega)
        simp [hnil]
    have hp : p = _ := push_without_room clock id ms hwf hfull (.inr hall)
    rw [hp, ha]
    exact ⟨rfl, rfl⟩

theorem eviction_takes_oldest_unlocked_two :
    let cfg : Config := ⟨2, 0, true, true⟩
    let rb := Runs.run (step cfg id) initial [.push 1 [], .push 2 [], .setLocked 0 true]
    let p := push cfg id 3 [] rb
    (∃ e ∈ rb.buffer, e.locked = false) ∧ p.result = .ok 1 ∧ ∃ pre v post t,
      rb.buffer = pre ++ v :: post ∧ (∀ e ∈ pre, e.locked = true) ∧ v.locked = false ∧
      p.state.buffer = pre ++ post ++ [⟨3, [], t, false⟩] :=
  ⟨by decide, (eviction_takes_oldest_unlocked _ id _ 3 [] (by simp only [New]; decide)).2.2.1
    (by decide) rfl (by decide)⟩

end QdsBuffer.RingBuffer
