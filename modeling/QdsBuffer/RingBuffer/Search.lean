import QdsBuffer.RingBuffer.Effect

namespace QdsBuffer.RingBuffer

variable {cfg : Config} {clock : Nat → Nat}

def without (id : Int) (b : List BufferEntry) : List BufferEntry := b.filter (fun e => e.id ≠ id)

theorem without_of_absent {id : Int} {b : List BufferEntry} (h : ∀ e ∈ b, e.id ≠ id) :
    without id b = b :=
  List.filter_eq_self.mpr (by simpa using h)

theorem eraseP_hasId_eq_without (id : Int) {b : List BufferEntry} (hn : (ids b).Nodup) :
    b.eraseP (hasId id) = without id b := by
  cases hf : b.find? (hasId id) with
  | none =>
    have hne := find_hasId_none.mp hf
    rw [eraseP_hasId_of_none hne, without_of_absent hne]
  | some it =>
    have hleft := eraseP_hasId_ne hn hf
    obtain ⟨pre, post, hb, hit, -, he⟩ := hasId_split hf
    have hsame : without id b = without id (pre ++ post) := by
      simp [hb, without, hit]
    rw [hsame, he, without_of_absent (by rwa [he] at hleft)]

theorem replacementCalls_of_mem {id : Int} {b : List BufferEntry} {e : BufferEntry}
    (hn : (ids b).Nodup) (he : e ∈ b) (hid : e.id = id) :
    replacementCalls cfg id b = notify cfg ⟨some e, false, 0⟩ := by
  simp [replacementCalls, find_hasId hn he hid]

theorem delete_eq (id : Int) {rb : RingBuffer} (h : WellFormed cfg rb) :
    delete cfg id rb = (⟨without id rb.buffer, rb.ticks⟩, replacementCalls cfg id rb.buffer) := by
  simp only [delete, deleteLoop_eq id h.order, eraseP_hasId_eq_without id h.order.nodup]

theorem delete_agrees_with_full_search (cfg : Config) (clock : Nat → Nat) (ops : List Op) (id : Int) :
    let rb := Runs.run (step cfg clock) initial ops
    let d := delete cfg id rb
    d.1.buffer = without id rb.buffer ∧
      (∀ e ∈ rb.buffer, e.id = id → d.2 = notify cfg ⟨some e, false, 0⟩) ∧
      (id ∉ ids rb.buffer → d = (rb, [])) := by
  intro rb d
  have hwf : WellFormed cfg rb := run_wellFormed cfg clock ops
  have hd : d = _ := delete_eq id hwf
  rw [hd]
  refine ⟨rfl, ?_, ?_⟩
  · intro e he hid
    exact replacementCalls_of_mem hwf.order.nodup he hid
  · intro hid
    have hne : ∀ e ∈ rb.buffer, e.id ≠ id := by
      intro e he heq
      exact hid (mem_ids.mpr ⟨e, he, heq⟩)
    rw [without_of_absent hne, replacementCalls, find_hasId_none.mpr hne]
    rfl

end QdsBuffer.RingBuffer
