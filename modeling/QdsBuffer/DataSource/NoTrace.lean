import QdsBuffer.DataSource.Loaded

namespace QdsBuffer.DataSource
open Bytes

structure NoTrace (r r' : References) (data : List Measurement) : Prop where
  elements : ∀ x, x ∈ r'.refMapping.rows ↔ x ∈ r.refMapping.rows
  files : ∀ value ∈ refValues data, ∀ content, r.files (cString value) = some content →
    r'.files (cString value) = some content

def LoadsFirst (access : Nat → FileAccess) (r : References) (data : List Measurement) : Prop :=
  ∃ pre d post value buffer, data = pre ++ d :: post ∧ refCount pre = 0 ∧
    refValue d = some value ∧ Loadable (access pre.length) r value buffer

theorem RefCase.files {id : Int} {access : FileAccess} {d : Measurement} {r : References}
    {p : Turn × References} (hc : RefCase id access d r p) (path : Bytes) :
    p.2.files path = r.files path ∨ p.2.files path = none := by
  cases hc with
  | noString => exact .inl rfl
  | bound => exact .inl rfl
  | refused => exact .inl rfl
  | failed => exact .inl rfl
  | loaded value buffer files hv hf hl =>
    unfold loadFile at hl
    split at hl
    · cases hl
    · split at hl
      · cases hl
      · split at hl
        · cases hl
        · split at hl
          · cases hl
          · cases hl
            change (if path = cString value then none else r.files path) = r.files path ∨
              (if path = cString value then none else r.files path) = none
            split
            · exact .inr rfl
            · exact .inl rfl

theorem processRefMapping_files (id : Int) (access : Nat → FileAccess) (data : List Measurement)
    {r : References} {path : Bytes} (h : r.files path = none) :
    (processRefMapping id access data r).2.files path = none := by
  induction data generalizing access r with
  | nil => exact h
  | cons d data ih =>
    by_cases ht : d.type = .ref
    · have hc := (ref_case id (access 0) d r).files path
      rw [processRefMapping_cons_ref ht]
      rcases hp : processRef id (access 0) d r with ⟨t, r'⟩
      rw [hp] at hc
      have hnone : r'.files path = none := hc.elim (fun he => he.trans h) (fun hn => hn)
      cases t with
      | next d' => exact ih _ hnone
      | leave => exact hnone
      | throw e => exact hnone
    · rw [processRefMapping_cons_other ht]
      exact ih _ h

theorem loadsFirst_cons_ref {access : Nat → FileAccess} {r : References} {d : Measurement}
    {data : List Measurement} (ht : d.type = .ref) :
    LoadsFirst access r (d :: data) ↔
      ∃ value buffer, refValue d = some value ∧ Loadable (access 0) r value buffer := by
  constructor
  · rintro ⟨pre, d', post, value, buffer, hsplit, hpre, hd, hload⟩
    cases pre with
    | nil =>
      cases hsplit
      exact ⟨value, buffer, hd, hload⟩
    | cons x pre =>
      cases hsplit
      simp [refCount, ht] at hpre
  · rintro ⟨value, buffer, hd, hload⟩
    exact ⟨[], d, data, value, buffer, rfl, rfl, hd, hload⟩

theorem loadsFirst_cons_other {access : Nat → FileAccess} {r : References} {d : Measurement}
    {data : List Measurement} (ht : d.type ≠ .ref) :
    LoadsFirst access r (d :: data) ↔ LoadsFirst (fun n => access (n + 1)) r data := by
  constructor
  · rintro ⟨pre, d', post, value, buffer, hsplit, hpre, hd, hload⟩
    cases pre with
    | nil =>
      cases hsplit
      rw [refValue_of_type ht] at hd
      cases hd
    | cons x pre =>
      cases hsplit
      refine ⟨pre, d', post, value, buffer, rfl, ?_, hd, hload⟩
      simpa [refCount, ht] using hpre
  · rintro ⟨pre, d', post, value, buffer, rfl, hpre, hd, hload⟩
    refine ⟨d :: pre, d', post, value, buffer, rfl, ?_, hd, hload⟩
    simpa [refCount, ht] using hpre

theorem not_loadsFirst_of_throw {id : Int} {access : Nat → FileAccess} {r r' : References}
    {d : Measurement} {data : List Measurement} {e : Exception} (ht : d.type = .ref)
    (h : processRef id (access 0) d r = (.throw e, r')) : ¬ LoadsFirst access r (d :: data) := by
  rw [loadsFirst_cons_ref ht]
  rintro ⟨value, buffer, hd, hload⟩
  have hv : d.value = .string value := string_of_refValue hd
  rw [processRef_loadable hv hload] at h
  cases h

theorem throw_leaves {id : Int} {access : FileAccess} {r r' : References} {d : Measurement}
    {data : List Measurement} {e : Exception} (h : processRef id access d r = (.throw e, r')) :
    NoTrace r r' data := by
  have hc := ref_case id access d r
  rw [h] at hc
  cases hc with
  | noString => exact ⟨fun _ => Iff.rfl, fun _ _ _ hf => hf⟩
  | refused => exact ⟨fun _ => Iff.rfl, fun _ _ _ hf => hf⟩
  | failed => exact ⟨fun _ => Iff.rfl, fun _ _ _ hf => hf⟩

theorem failed_leaves_no_trace_iff (id : Int) (access : Nat → FileAccess)
    (data : List Measurement) (r r' : References) (e : Exception)
    (h : processRefMapping id access data r = (.error e, r')) :
    NoTrace r r' data ↔ ¬ LoadsFirst access r data := by
  induction data generalizing access with
  | nil => cases h
  | cons d data ih =>
    by_cases ht : d.type = .ref
    · rw [processRefMapping_cons_ref ht] at h
      rcases hp : processRef id (access 0) d r with ⟨t, r₁⟩
      rw [hp] at h
      cases t with
      | leave => cases h
      | throw e' =>
        cases h
        exact iff_of_true (throw_leaves hp) (not_loadsFirst_of_throw ht hp)
      | next d' =>
        obtain ⟨value, buffer, hv, hload⟩ := loadable_of_next hp
        have hd := refValue_string ht hv
        rw [processRef_loadable hv hload] at hp
        cases hp
        have hgone : r'.files (cString value) = none := by
          rw [← (Prod.mk.inj h).2]
          exact processRefMapping_files id _ data (if_pos rfl)
        refine iff_of_false ?_ (not_not.mpr ((loadsFirst_cons_ref ht).mpr ⟨value, buffer, hd, hload⟩))
        intro hn
        have hkept := hn.files value (List.mem_filterMap.mpr ⟨d, List.mem_cons_self, hd⟩) buffer
          hload.content
        rw [hgone] at hkept
        cases hkept
    · rw [processRefMapping_cons_other ht] at h
      rcases hp : processRefMapping id (fun n => access (n + 1)) data r with ⟨res, r₁⟩
      rw [hp] at h
      cases res with
      | ok ms => cases h
      | error e' =>
        cases h
        have hvalues : refValues (d :: data) = refValues data := by
          simp [refValues, refValue_of_type ht]
        rw [loadsFirst_cons_other ht, ← ih _ hp]
        exact ⟨fun hn => ⟨hn.elements, hvalues ▸ hn.files⟩, fun hn => ⟨hn.elements, hvalues ▸ hn.files⟩⟩

theorem failed_call_removes_file :
    let access : Nat → FileAccess := fun _ => ⟨true, true, true, true⟩
    let r := (run ⟨2, 0, true, 0, 1⟩ id (fun p => if p = ascii "f" then some [1] else none) []).refs
    let data : List Measurement :=
      [⟨ascii "a", .ref, [], .string (ascii "f")⟩, ⟨ascii "b", .ref, [], .string (ascii "g")⟩]
    let p := processRefMapping 1 access data r
    (∃ msg, p.1 = .error (processError msg)) ∧ ¬ NoTrace r p.2 data := by
  intro access r data p
  refine ⟨⟨_, rfl⟩, ?_⟩
  intro h
  have hf := h.files (ascii "f") (by decide) [1] rfl
  cases hf

-- The file is loaded before the reference in use is met.
theorem failed_leaves_no_trace_iff_in_use :
    let access : Nat → FileAccess := fun _ => ⟨true, true, true, true⟩
    let r : References := ⟨KeyedTable.empty.emplace ⟨5, ascii "r", [], []⟩, 0,
      fun path => if path = ascii "f" then some [65] else none⟩
    let data : List Measurement := [⟨ascii "a", .ref, [], .string (ascii "f")⟩,
      ⟨ascii "b", .ref, [], .string (ascii "r")⟩, ⟨ascii "c", .ref, [], .string (ascii "g")⟩]
    NoTrace r (processRefMapping 1 access data r).2 data ↔ ¬LoadsFirst access r data :=
  failed_leaves_no_trace_iff 1 _ _ _ _ _ rfl

end QdsBuffer.DataSource
