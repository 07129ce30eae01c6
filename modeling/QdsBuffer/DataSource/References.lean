import QdsBuffer.DataSource.Basic

namespace QdsBuffer.References
open DataSource

def Fresh (r : References) : Prop :=
  ∀ x ∈ r.refMapping.rows, x.ref ≠ generatedRef r.refCounter

instance : DecidablePred Fresh := fun r =>
  inferInstanceAs (Decidable (∀ x ∈ r.refMapping.rows, _))

def counted (r : References) : References :=
  { r with refCounter := (r.refCounter + 1) % 2 ^ 64 }

def bind (id : Int) (value : Bytes) (r : References) : References :=
  { r with refMapping := r.refMapping.assign id value }

def loaded (id : Int) (value buffer : Bytes) (files : Files) (r : References) :
    References :=
  { r.counted with
    refMapping := r.refMapping.emplace ⟨id, generatedRef r.refCounter, formatOf value, buffer⟩
    files := files }

end QdsBuffer.References

namespace QdsBuffer.DataSource
open Bytes

def refValue (d : Measurement) : Option Bytes :=
  if d.type = .ref then
    match d.value with
    | .string value => some value
    | _ => none
  else none

def refValues (data : List Measurement) : List Bytes := data.filterMap refValue

def refCount (data : List Measurement) : Nat := data.countP (fun d => d.type = .ref)

def refDocument (ref : Bytes) : Parsing.JsonParser.Delivery :=
  ⟨[.onDocumentBegin, .onObjectBegin, .onKey (ascii "NAME"), .onString (ascii "a"),
    .onKey (ascii "TYPE"), .onString (ascii "REF"), .onKey (ascii "VALUE"), .onString ref,
    .onObjectEnd 3, .onDocumentEnd], none, 36 + ref.length, 36 + ref.length⟩

def emptyDocument : Parsing.JsonParser.Delivery :=
  ⟨[.onDocumentBegin, .onArrayBegin, .onArrayEnd 0, .onDocumentEnd], none, 2, 2⟩

theorem parse_refDocument (ref : Bytes) :
    parse (refDocument ref) = .ok [⟨ascii "a", .ref, [], .string ref⟩] := by
  have hw : Parsing.JsonParser.writeSome (fun state event =>
      Parsing.DataValidator.parserCallback (some state) event) (refDocument ref).calls
      Parsing.ParsingState.initial =
      .ok (true, ⟨[⟨ascii "a", .ref, [], .string ref⟩], none, false, true⟩) := rfl
  simp only [parse, Parsing.JsonParser.parse, hw]
  simp [refDocument, Parsing.JsonParser.errorCode]

theorem refCount_refDocument (ref : Bytes) :
    ∀ data, parse (refDocument ref) = .ok data → refCount data ≤ 1 := by
  intro data h
  rw [parse_refDocument] at h
  cases h
  exact Nat.le_refl 1

inductive RefCase (id : Int) (access : FileAccess) (d : Measurement) (r : References) :
    Turn × References → Prop
  | noString : (∀ value, d.value ≠ .string value) → RefCase id access d r (.throw badGet, r)
  | bound (value : Bytes) (it : ReferenceData) : d.value = .string value →
      r.refMapping.find value = some it → it.id = 0 →
      RefCase id access d r (.leave, r.bind id value)
  | refused (value : Bytes) (msg : Bytes) : d.value = .string value →
      (∀ it, r.refMapping.find value = some it → it.id ≠ 0) →
      RefCase id access d r (.throw (processError msg), r)
  | failed (value : Bytes) (msg : Bytes) : d.value = .string value →
      r.refMapping.find value = none → RefCase id access d r (.throw (fileError msg), r.counted)
  | loaded (value buffer : Bytes) (files : Files) : d.value = .string value →
      r.refMapping.find value = none → loadFile access r.files value = .ok (buffer, files) →
      RefCase id access d r
        (.next { d with value := .string (generatedRef r.refCounter) },
          r.loaded id value buffer files)

theorem loadFile_error {access : FileAccess} {files : Files} {path : Bytes} {e : Exception}
    (h : loadFile access files path = .error e) : ∃ msg, e = fileError msg := by
  unfold loadFile at h
  split at h
  · exact ⟨_, (Except.error.inj h).symm⟩
  · split at h
    · exact ⟨_, (Except.error.inj h).symm⟩
    · split at h
      · exact ⟨_, (Except.error.inj h).symm⟩
      · split at h
        · exact ⟨_, (Except.error.inj h).symm⟩
        · cases h

theorem ref_case (id : Int) (access : FileAccess) (d : Measurement) (r : References) :
    RefCase id access d r (processRef id access d r) := by
  unfold processRef
  cases hv : d.value with
  | blank => exact .noString (by simp [hv])
  | int64 i => exact .noString (by simp [hv])
  | double x => exact .noString (by simp [hv])
  | bool b => exact .noString (by simp [hv])
  | string value =>
    simp only
    cases hf : r.refMapping.find value with
    | some it =>
      by_cases h0 : it.id = 0
      · simpa only [h0, ↓reduceIte] using .bound value it hv hf h0
      · simp only [h0, ↓reduceIte]
        exact .refused value _ hv (by simpa [hf] using h0)
    | none =>
      simp only
      split
      · cases hl : loadFile access r.files value with
        | error e =>
          obtain ⟨msg, rfl⟩ := loadFile_error hl
          exact .failed value msg hv hf
        | ok p => exact .loaded value p.1 p.2 hv hf hl
      · exact .refused value _ hv (by simp [hf])

theorem refValue_string {d : Measurement} {value : Bytes} (ht : d.type = .ref)
    (hv : d.value = .string value) : refValue d = some value := by
  simp [refValue, ht, hv]

theorem mem_bind {id : Int} {value : Bytes} {r : References} {x : ReferenceData} :
    x ∈ (r.bind id value).refMapping.rows ↔
      (x ∈ r.refMapping.rows ∧ x.ref ≠ value) ∨
        ∃ y ∈ r.refMapping.rows, y.ref = value ∧ { y with id := id } = x := by
  simp only [References.bind, ReferenceContainer.assign, KeyedTable.mem_modify]

theorem mem_loaded_of_fresh {id : Int} {value buffer : Bytes} {files : Files} {r : References}
    (hf : r.Fresh) {x : ReferenceData} :
    x ∈ (r.loaded id value buffer files).refMapping.rows ↔
      x = ⟨id, generatedRef r.refCounter, formatOf value, buffer⟩ ∨ x ∈ r.refMapping.rows :=
  KeyedTable.mem_emplace hf

theorem loaded_of_not_fresh {id : Int} {value buffer : Bytes} {files : Files} {r : References}
    (hf : ¬ r.Fresh) : (r.loaded id value buffer files).refMapping = r.refMapping := by
  simp only [References.Fresh, not_forall, not_not] at hf
  obtain ⟨c, hc, he⟩ := hf
  exact KeyedTable.emplace_of_mem hc he

theorem mem_loaded_of_mem {id : Int} {value buffer : Bytes} {files : Files} {r : References}
    {x : ReferenceData} (h : x ∈ r.refMapping.rows) :
    x ∈ (r.loaded id value buffer files).refMapping.rows := by
  by_cases hf : r.Fresh
  · exact (mem_loaded_of_fresh hf).mpr (.inr h)
  · rwa [loaded_of_not_fresh hf]

theorem mem_loaded {id : Int} {value buffer : Bytes} {files : Files} {r : References}
    {x : ReferenceData} (h : x ∈ (r.loaded id value buffer files).refMapping.rows) :
    x ∈ r.refMapping.rows ∨ x = ⟨id, generatedRef r.refCounter, formatOf value, buffer⟩ := by
  by_cases hf : r.Fresh
  · exact ((mem_loaded_of_fresh hf).mp h).symm
  · exact .inl (by rwa [loaded_of_not_fresh hf] at h)

theorem RefCase.keeps {id : Int} {access : FileAccess} {d : Measurement} {r : References}
    {p : Turn × References} (hc : RefCase id access d r p) (ht : d.type = .ref)
    {x : ReferenceData} (hx : x ∈ r.refMapping.rows)
    (hn : x.id ≠ 0 ∨ refValue d ≠ some x.ref) : x ∈ p.2.refMapping.rows := by
  cases hc with
  | noString => exact hx
  | refused => exact hx
  | failed => exact hx
  | loaded => exact mem_loaded_of_mem hx
  | bound value it hv hf h0 =>
    refine mem_bind.mpr (.inl ⟨hx, ?_⟩)
    rintro rfl
    rcases hn with hn | hn
    · have hit := KeyedTable.eq_of_key hx (KeyedTable.find_eq_some.mp hf).1
        (KeyedTable.find_eq_some.mp hf).2.symm
      exact hn (hit ▸ h0)
    · exact hn (refValue_string ht hv)

theorem RefCase.origin {id : Int} {access : FileAccess} {d : Measurement} {r : References}
    {p : Turn × References} (hc : RefCase id access d r p) {x : ReferenceData}
    (hx : x ∈ p.2.refMapping.rows) : x ∈ r.refMapping.rows ∨ x.id = id := by
  cases hc with
  | noString => exact .inl hx
  | refused => exact .inl hx
  | failed => exact .inl hx
  | loaded => exact (mem_loaded hx).imp_right (congrArg ReferenceData.id)
  | bound value it hv hf h0 =>
    rcases mem_bind.mp hx with h | ⟨y, -, -, rfl⟩
    · exact .inl h.1
    · exact .inr rfl

theorem processRefMapping_cons_ref {id : Int} {access : Nat → FileAccess} {d : Measurement}
    {data : List Measurement} {r : References} (ht : d.type = .ref) :
    processRefMapping id access (d :: data) r =
      match processRef id (access 0) d r with
      | (.next d', r') =>
        let p := processRefMapping id (fun n => access (n + 1)) data r'
        (p.1.map (d' :: ·), p.2)
      | (.leave, r') => (.ok (d :: data), r')
      | (.throw e, r') => (.error e, r') := by
  rw [processRefMapping]
  exact if_pos ht

theorem processRefMapping_cons_other {id : Int} {access : Nat → FileAccess} {d : Measurement}
    {data : List Measurement} {r : References} (ht : d.type ≠ .ref) :
    processRefMapping id access (d :: data) r =
      ((processRefMapping id (fun n => access (n + 1)) data r).1.map (d :: ·),
        (processRefMapping id (fun n => access (n + 1)) data r).2) := by
  simp only [processRefMapping, ht, ↓reduceIte]

theorem processRefMapping_keeps {id : Int} {access : Nat → FileAccess} {data : List Measurement}
    {r : References} {p : Except Exception (List Measurement) × References}
    (hp : processRefMapping id access data r = p) {x : ReferenceData}
    (hx : x ∈ r.refMapping.rows) (hn : x.id ≠ 0 ∨ x.ref ∉ refValues data) :
    x ∈ p.2.refMapping.rows := by
  subst hp
  induction data generalizing access r with
  | nil => exact hx
  | cons d data ih =>
    have hrest : x.id ≠ 0 ∨ x.ref ∉ refValues data :=
      hn.imp_right (fun h hm => h (List.mem_filterMap.mpr (by
        obtain ⟨y, hy, he⟩ := List.mem_filterMap.mp hm
        exact ⟨y, List.mem_cons_of_mem _ hy, he⟩)))
    by_cases ht : d.type = .ref
    · have hd : x.id ≠ 0 ∨ refValue d ≠ some x.ref :=
        hn.imp_right (fun h he => h (List.mem_filterMap.mpr ⟨d, List.mem_cons_self, he⟩))
      have hk := (ref_case id (access 0) d r).keeps ht hx hd
      rw [processRefMapping_cons_ref ht]
      rcases hp : processRef id (access 0) d r with ⟨t, r'⟩
      rw [hp] at hk
      cases t with
      | next d' => exact ih hk hrest
      | leave => exact hk
      | throw e => exact hk
    · rw [processRefMapping_cons_other ht]
      exact ih hx hrest

theorem processRefMapping_origin {id : Int} {access : Nat → FileAccess} {data : List Measurement}
    {r : References} {p : Except Exception (List Measurement) × References}
    (hp : processRefMapping id access data r = p) {x : ReferenceData}
    (hx : x ∈ p.2.refMapping.rows) : x ∈ r.refMapping.rows ∨ x.id = id := by
  subst hp
  induction data generalizing access r with
  | nil => exact .inl hx
  | cons d data ih =>
    by_cases ht : d.type = .ref
    · have ho := (ref_case id (access 0) d r).origin (x := x)
      rw [processRefMapping_cons_ref ht] at hx
      rcases hp : processRef id (access 0) d r with ⟨t, r'⟩
      rw [hp] at hx ho
      cases t with
      | next d' => exact (ih hx).elim ho .inr
      | leave => exact ho hx
      | throw e => exact ho hx
    · rw [processRefMapping_cons_other ht] at hx
      exact ih hx

end QdsBuffer.DataSource
