import QdsBuffer.DataSource.Loaded
import QdsBuffer.DataSource.Unused

namespace QdsBuffer.DataSource
open RingBuffer Bytes

variable {cfg : Config} {clock : Nat → Nat}

structure Updates (id : Int) (x : ReferenceData) (s : DataSource)
    (p : Except Exception Int × DataSource) : Prop where
  stored : ∃ n, p.1 = .ok n ∧ 0 ≤ n
  retrieved : ∃ d, getReference x.ref p.2 = .ok d ∧ d.content = x.content ∧ d.id = id
  replaced : ∀ old ∈ rows s, old.id = id → ∀ d, getReference old.ref p.2 ≠ .ok d

theorem accepts_update {b : List BufferEntry} {it : BufferEntry} (h : IdOrder cfg.ring b)
    (hm : cfg.counterMode ≠ 0) (hlt : b.length < cfg.bufferSize) (hit : it ∈ b)
    (hl : it.locked = false) : ¬ Refuses cfg.ring b it.id ∧ it.id ∈ ids (remaining cfg.ring b) := by
  have hrem : remaining cfg.ring b = b :=
    remaining_of_no_victim (victim_eq_none_of_lt hlt)
  refine (replaces_iff h).mp ⟨hm, .inl hlt, it, ?_, rfl, hl⟩
  rwa [hrem]

theorem processRefMapping_bound (id : Int) (access : Nat → FileAccess) {data : List Measurement}
    {value : Bytes} {r : References} {x : ReferenceData} (hone : refCount data = 1)
    (hv : refValues data = [value]) (hx : r.refMapping.find value = some x) (h0 : x.id = 0) :
    processRefMapping id access data r = (.ok data, r.bind id value) := by
  induction data generalizing access with
  | nil => cases hv
  | cons d data ih =>
    by_cases ht : d.type = .ref
    · have hnone := refValues_of_count (refCount_cons_ref ht (Nat.le_of_eq hone))
      have hd : refValue d = some value := by
        cases hr : refValue d with
        | none =>
          rw [refValues, List.filterMap_cons, hr, ← refValues, hnone] at hv
          cases hv
        | some w =>
          rw [refValues, List.filterMap_cons, hr, ← refValues, hnone] at hv
          exact congrArg some (List.head_eq_of_cons_eq hv)
      rw [processRefMapping_cons_ref ht]
      simp only [processRef, string_of_refValue hd, hx, h0, ↓reduceIte]
      rfl
    · rw [processRefMapping_cons_other ht, ih]
      · rfl
      · simpa [refCount, ht] using hone
      · simpa [refValues, refValue_of_type ht] using hv

theorem update_erases (clock : Nat → Nat) {s : DataSource} {ref : Bytes} {it : BufferEntry}
    (ms : List Measurement) (hwf : WellFormed cfg.ring s.buffer) (hm : cfg.counterMode ≠ 0)
    (hlt : (entries s).length < cfg.bufferSize) (hit : it ∈ entries s) (hl : it.locked = false) :
    ∀ d ∈ rows (pushMeasurements cfg clock it.id ms
      { s with refs := s.refs.bind it.id ref }).2, d.ref ≠ ref := by
  intro d hd href
  obtain ⟨hacc, hin⟩ := accepts_update hwf.order hm hlt hit hl
  have hrows := (push_accepted_effect (s := { s with refs := s.refs.bind it.id ref })
    clock ms hwf hacc).2.2 d
  obtain ⟨hold, hne, -⟩ := hrows.mp hd
  rcases mem_bind.mp hold with ⟨-, hother⟩ | ⟨y, -, -, rfl⟩
  · exact hother href
  · exact hne hin rfl

theorem update_loses_new_reference (cfg : Config) (clock : Nat → Nat) (files : Files)
    (ops : List Op) (json : Parsing.JsonParser.Delivery) (access : Nat → FileAccess)
    (data : List Measurement) (it : BufferEntry) (x : ReferenceData)
    (hm : cfg.counterMode = 1) (hlt : (entries (run cfg clock files ops)).length < cfg.bufferSize)
    (hit : it ∈ entries (run cfg clock files ops)) (hl : it.locked = false)
    (hd : parse json = .ok data) (hone : refCount data = 1) (href : refValues data = [x.ref])
    (hx : (run cfg clock files ops).refs.refMapping.find x.ref = some x) (h0 : x.id = 0) :
    ¬ Updates it.id x (run cfg clock files ops)
      (add cfg clock it.id json access (run cfg clock files ops)) := by
  have hwf := run_wellFormed cfg clock files ops
  have hm' : cfg.counterMode ≠ 0 := by
    rw [hm]
    decide
  intro hu
  obtain ⟨d, hget, -, -⟩ := hu.retrieved
  simp only [add, hd, processRefMapping_bound it.id access hone href hx h0] at hget
  obtain ⟨hmem, hdref⟩ := getReference_iff.mp hget
  exact update_erases clock data hwf hm' hlt hit hl d hmem hdref

theorem updated_entry_without_reference :
    let access : Nat → FileAccess := fun _ => ⟨true, true, true, true⟩
    let cfg : Config := ⟨2, 1, true, 0, 1⟩
    let s := run cfg id (fun _ => none)
      [.setReference (ascii "r") (ascii "d") [], .add 7 emptyDocument access]
    let p := add cfg id 7 (refDocument (ascii "r")) access s
    ¬ Updates 7 ⟨0, ascii "r", [], ascii "d"⟩ s p := by
  intro access cfg s p hu
  obtain ⟨d, hget, -, -⟩ := hu.retrieved
  cases hget

theorem update_loses_new_reference_empty :
    let access : Nat → FileAccess := fun _ => ⟨true, true, true, true⟩
    let cfg : Config := ⟨2, 1, true, 0, 1⟩
    let ops := [.setReference (ascii "r") (ascii "d") [], .add 7 emptyDocument access]
    let s := run cfg id (fun _ => none) ops
    ¬ Updates 7 ⟨0, ascii "r", [], ascii "d"⟩ s (add cfg id 7 (refDocument (ascii "r")) access s) := by
  intro access cfg ops
  exact update_loses_new_reference cfg id (fun _ => none) ops _ _ _ ⟨7, [], 0, false⟩
    ⟨0, ascii "r", [], ascii "d"⟩ rfl (by decide) (by decide) rfl
    (parse_refDocument (ascii "r")) rfl rfl rfl rfl

end QdsBuffer.DataSource
