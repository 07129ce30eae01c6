import QdsBuffer.RingBuffer.Eviction
import QdsBuffer.RingBuffer.Search

namespace QdsBuffer.RingBuffer

variable {cfg : Config} {clock : Nat → Nat}

structure UpdatesOnly (rb : RingBuffer) (id : Int) (ms : List Measurement) (p : Pushed) :
    Prop where
  succeeds : refused p.result = false
  others : without id p.state.buffer = without id rb.buffer
  holds : ∃ e ∈ p.state.buffer, e.id = id ∧ e.measurements = ms
  size : p.state.buffer.length = rb.buffer.length

def Spares (cfg : Config) (rb : RingBuffer) (it : BufferEntry) : Prop :=
  rb.buffer.length < cfg.maxSize ∨ (cfg.allowOverflow = true ∧
    ∃ pre post, rb.buffer = pre ++ it :: post ∧ ∀ e ∈ pre, e.locked = true)

theorem mem_without {id : Int} {b : List BufferEntry} {e : BufferEntry} :
    e ∈ without id b ↔ e ∈ b ∧ e.id ≠ id := by
  simp [without]

theorem without_idem (id : Int) (b : List BufferEntry) : without id (without id b) = without id b :=
  without_of_absent (fun _ he => (mem_without.mp he).2)

theorem without_append_stored {id : Int} {b : List BufferEntry} {e : BufferEntry} (h : e.id = id) :
    without id (b ++ [e]) = without id b := by
  simp [without, h]

theorem without_length {b : List BufferEntry} {it : BufferEntry} (hn : (ids b).Nodup)
    (hit : it ∈ b) : (without it.id b).length + 1 = b.length := by
  rw [← eraseP_hasId_eq_without it.id hn]
  exact eraseP_hasId_length (find_hasId hn hit rfl)

theorem accepts_update {rb : RingBuffer} {it : BufferEntry} (h : WellFormed cfg rb)
    (hmode : cfg.counterMode = 1) (hit : it ∈ rb.buffer) (hunlocked : it.locked = false)
    (hroom : Room cfg rb.buffer) : ¬ Refuses cfg rb.buffer it.id := by
  rintro (hn | ⟨h0, -⟩ | ⟨-, e, he, hid, hl⟩)
  · exact hn hroom
  · rw [hmode] at h0
    exact absurd h0 (by decide)
  · have hsame : e = it :=
      eq_of_id h.order.nodup ((remaining_sublist cfg rb.buffer).subset he) hit hid
    rw [hsame, hunlocked] at hl
    cases hl

theorem push_update {rb : RingBuffer} {it : BufferEntry} (clock : Nat → Nat) (ms : List Measurement)
    (h : WellFormed cfg rb) (hr : ¬ Refuses cfg rb.buffer it.id) :
    refused (push cfg clock it.id ms rb).result = false ∧
    ∃ t, (push cfg clock it.id ms rb).state.buffer =
      without it.id (remaining cfg rb.buffer) ++ [⟨it.id, ms, t, false⟩] := by
  obtain ⟨n, t, hn, hp⟩ := push_of_accepts clock ms h hr
  have hrem : IdOrder cfg (remaining cfg rb.buffer) := h.order.sublist (remaining_sublist cfg _)
  rw [hp, eraseP_hasId_eq_without it.id hrem.nodup]
  refine ⟨?_, clock t, rfl⟩
  simp only [refused, decide_eq_false_iff_not]
  omega

theorem updatesOnly_iff {rb : RingBuffer} {it : BufferEntry} (clock : Nat → Nat)
    (ms : List Measurement) (h : WellFormed cfg rb) (hit : it ∈ rb.buffer)
    (hr : ¬ Refuses cfg rb.buffer it.id) :
    UpdatesOnly rb it.id ms (push cfg clock it.id ms rb) ↔
      without it.id (remaining cfg rb.buffer) = without it.id rb.buffer := by
  obtain ⟨href, t, hb⟩ := push_update clock ms h hr
  have hafter : without it.id (push cfg clock it.id ms rb).state.buffer =
      without it.id (remaining cfg rb.buffer) := by
    rw [hb, without_append_stored (show (BufferEntry.mk it.id ms t false).id = it.id from rfl),
      without_idem]
  refine ⟨fun hu => hafter.symm.trans hu.others, ?_⟩
  intro hsame
  refine ⟨href, hafter.trans hsame, ⟨⟨it.id, ms, t, false⟩, by simp [hb], rfl, rfl⟩, ?_⟩
  rw [hb, hsame, List.length_append, List.length_singleton]
  exact without_length h.order.nodup hit

theorem without_remaining {rb : RingBuffer} {it : BufferEntry}
    (hv : ∀ v, victim cfg rb.buffer = some v → v = it) :
    without it.id (remaining cfg rb.buffer) = without it.id rb.buffer := by
  cases hvictim : victim cfg rb.buffer with
  | none => rw [remaining_of_no_victim hvictim]
  | some v =>
    have hsame : v = it := hv v hvictim
    obtain ⟨pre, post, hb, -, hrem⟩ := victim_split hvictim
    rw [hrem, hb, hsame]
    simp [without]

theorem victim_of_spares {rb : RingBuffer} {it : BufferEntry} (hunlocked : it.locked = false)
    (hs : Spares cfg rb it) : ∀ v, victim cfg rb.buffer = some v → v = it := by
  intro v hv
  obtain ⟨hfull, ha⟩ := victim_full hv
  rcases hs with hlt | ⟨-, pre, post, hb, hpre⟩
  · omega
  · have hit := (victim_behind_locked hfull ha hb hpre hunlocked).1
    exact Option.some.inj (hv.symm.trans hit)

theorem spares_of_updatesOnly {rb : RingBuffer} {it : BufferEntry} {ms : List Measurement}
    (h : WellFormed cfg rb) (hmode : cfg.counterMode = 1) (hit : it ∈ rb.buffer)
    (hunlocked : it.locked = false)
    (hu : UpdatesOnly rb it.id ms (push cfg clock it.id ms rb)) : Spares cfg rb it := by
  rcases Nat.lt_or_ge rb.buffer.length cfg.maxSize with hlt | hfull
  · exact .inl hlt
  · have hroom : Room cfg rb.buffer := by
      by_contra hn
      have href := hu.succeeds
      rw [push_of_not_room h.size hn] at href
      cases ha : cfg.allowOverflow <;> simp [ha, refused] at href
    obtain ⟨v, hv⟩ : ∃ v, victim cfg rb.buffer = some v :=
      Option.isSome_iff_exists.mp (hroom.resolve_left (by omega))
    have hsame := (updatesOnly_iff clock ms h hit
      (accepts_update h hmode hit hunlocked hroom)).mp hu
    have hid : v.id = it.id := by
      by_contra hne
      have hleft : v ∈ without it.id (remaining cfg rb.buffer) := by
        rw [hsame]
        exact mem_without.mpr ⟨(victim_mem hv).1, hne⟩
      exact ((mem_remaining h.order.nodup).mp (mem_without.mp hleft).1).2 v hv rfl
    have hvit : v = it := eq_of_id h.order.nodup (victim_mem hv).1 hit hid
    obtain ⟨pre, post, hb, hpre, -⟩ := victim_split hv
    exact .inr ⟨(victim_full hv).2, pre, post, hvit ▸ hb, hpre⟩

theorem room_of_spares {rb : RingBuffer} {it : BufferEntry} (hit : it ∈ rb.buffer)
    (hunlocked : it.locked = false) (hs : Spares cfg rb it) : Room cfg rb.buffer := by
  rcases hs with hlt | ⟨ha, -⟩
  · exact .inl hlt
  · rcases Nat.lt_or_ge rb.buffer.length cfg.maxSize with hlt | hfull
    · exact .inl hlt
    · obtain ⟨v, hv⟩ := victim_of_unlocked hfull ha ⟨it, hit, hunlocked⟩
      exact .inr (by simp [hv])

theorem update_costs_no_other_iff (cfg : Config) (clock : Nat → Nat) (ops : List Op)
    (it : BufferEntry) (ms : List Measurement) (hmode : cfg.counterMode = 1)
    (hit : it ∈ (Runs.run (step cfg clock) initial ops).buffer) (hunlocked : it.locked = false) :
    let rb := Runs.run (step cfg clock) initial ops
    UpdatesOnly rb it.id ms (push cfg clock it.id ms rb) ↔ Spares cfg rb it := by
  intro rb
  have hwf : WellFormed cfg rb := run_wellFormed cfg clock ops
  refine ⟨spares_of_updatesOnly hwf hmode hit hunlocked, ?_⟩
  intro hs
  have hroom := room_of_spares hit hunlocked hs
  exact (updatesOnly_iff clock ms hwf hit (accepts_update hwf hmode hit hunlocked hroom)).mpr
    (without_remaining (victim_of_spares hunlocked hs))

theorem update_costs_no_other_iff_three :
    let cfg : Config := ⟨3, 1, true, true⟩
    let rb := Runs.run (step cfg id) initial [.push 1 [], .push 2 []]
    UpdatesOnly rb 2 [.fresh] (push cfg id 2 [.fresh] rb) ↔ Spares cfg rb ⟨2, [], 1, false⟩ :=
  update_costs_no_other_iff _ id [.push 1 [], .push 2 []] ⟨2, [], 1, false⟩ [.fresh] rfl
    (by decide) rfl

theorem update_evicts_another :
    let cfg : Config := ⟨2, 1, true, true⟩
    let rb := Runs.run (step cfg id) initial [.push 1 [], .push 2 []]
    ⟨2, [], 1, false⟩ ∈ rb.buffer ∧ ¬ UpdatesOnly rb 2 [.fresh] (push cfg id 2 [.fresh] rb) := by
  refine ⟨by decide, ?_⟩
  intro hu
  exact absurd hu.others (by decide)

end QdsBuffer.RingBuffer
