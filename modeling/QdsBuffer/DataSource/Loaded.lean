import QdsBuffer.DataSource.SingleRef

namespace QdsBuffer.DataSource
open Bytes

structure Loadable (access : FileAccess) (r : References) (value buffer : Bytes) : Prop where
  unregistered : r.refMapping.find value = none
  fopen : access.fopen = true
  ifstream : access.ifstream = true
  read : access.read = true
  remove : access.remove = true
  content : r.files (cString value) = some buffer
  nonempty : buffer ≠ []

def removed (files : Files) (value : Bytes) : Files :=
  fun p => if p = cString value then none else files p

theorem processRef_loadable {id : Int} {access : FileAccess} {d : Measurement} {r : References}
    {value buffer : Bytes} (hv : d.value = .string value) (h : Loadable access r value buffer) :
    processRef id access d r = (.next { d with value := .string (generatedRef r.refCounter) },
      r.loaded id value buffer (removed r.files value)) := by
  have hlen : buffer.length ≠ 0 := fun h0 => h.nonempty (List.eq_nil_of_length_eq_zero h0)
  simp only [processRef, hv, h.unregistered, h.fopen, h.content, loadFile, h.ifstream, h.read,
    h.remove, hlen, ↓reduceIte, Option.isSome_some, Bool.and_self, Bool.not_true, Bool.false_eq_true]
  rfl

theorem loadable_of_next {id : Int} {access : FileAccess} {d d' : Measurement} {r r' : References}
    (h : processRef id access d r = (.next d', r')) :
    ∃ value buffer, d.value = .string value ∧ Loadable access r value buffer := by
  unfold processRef at h
  cases hv : d.value with
  | string value =>
    simp only [hv] at h
    cases hf : r.refMapping.find value with
    | some it =>
      simp only [hf] at h
      split at h <;> cases h
    | none =>
      simp only [hf] at h
      split at h
      · rename_i hopen
        simp only [Bool.and_eq_true, Option.isSome_iff_exists] at hopen
        obtain ⟨hfopen, buffer, hb⟩ := hopen
        refine ⟨value, buffer, rfl, ?_⟩
        unfold loadFile at h
        cases hi : access.ifstream with
        | false => simp [hi] at h
        | true =>
          simp only [hi, hb, ↓reduceIte] at h
          cases buffer with
          | nil => simp at h
          | cons b bs =>
            cases hr : access.read with
            | false => simp [hr] at h
            | true =>
              cases hm : access.remove with
              | false => simp [hr, hm] at h
              | true => exact ⟨hf, hfopen, hi, hr, hm, hb, by simp⟩
      · cases h
  | blank => simp [hv] at h
  | int64 i => simp [hv] at h
  | double x => simp [hv] at h
  | bool b => simp [hv] at h

theorem processRefMapping_append_other {id : Int} {access : Nat → FileAccess}
    {pre data : List Measurement} {r : References} (h : refCount pre = 0) :
    processRefMapping id access (pre ++ data) r =
      ((processRefMapping id (fun n => access (pre.length + n)) data r).1.map (pre ++ ·),
        (processRefMapping id (fun n => access (pre.length + n)) data r).2) := by
  induction pre generalizing access with
  | nil =>
    simp only [List.length_nil, Nat.zero_add, List.nil_append]
    rcases processRefMapping id access data r with ⟨res, r'⟩
    cases res <;> rfl
  | cons d pre ih =>
    have hd : d.type ≠ .ref ∧ refCount pre = 0 := by
      simpa [refCount, List.countP_eq_zero] using h
    have hshift : ∀ n, pre.length + n + 1 = (d :: pre).length + n := by
      intro n
      simp only [List.length_cons]
      omega
    rw [List.cons_append, processRefMapping_cons_other hd.1, ih hd.2]
    simp only [hshift]
    rcases processRefMapping id (fun n => access ((d :: pre).length + n)) data r with ⟨res, r'⟩
    cases res <;> rfl

def KeepsContent (id : Int) (buffer : Bytes) (d : Measurement) (r r' : References) : Prop :=
  ∃ ref x, d.value = .string ref ∧ r'.refMapping.find ref = some x ∧ x.id = id ∧
    x.content = buffer ∧ x ∉ r.refMapping.rows

theorem loaded_keeps_iff {id : Int} {value buffer : Bytes} {files : Files} {d : Measurement}
    {r : References} :
    KeepsContent id buffer { d with value := .string (generatedRef r.refCounter) } r
      (r.loaded id value buffer files) ↔ r.Fresh := by
  constructor
  · rintro ⟨ref, x, hv, hf, -, -, hnew⟩
    cases hv
    by_contra hnot
    rw [loaded_of_not_fresh hnot] at hf
    exact hnew (KeyedTable.find_eq_some.mp hf).1
  · intro hfresh
    refine ⟨_, ⟨id, generatedRef r.refCounter, formatOf value, buffer⟩, rfl, ?_, rfl, rfl, ?_⟩
    · exact KeyedTable.find_eq_some.mpr ⟨(mem_loaded_of_fresh hfresh).mpr (.inl rfl), rfl⟩
    · exact fun hold => hfresh _ hold rfl

theorem type_of_refValue {d : Measurement} {value : Bytes} (h : refValue d = some value) :
    d.type = .ref := by
  by_contra hn
  rw [refValue_of_type hn] at h
  cases h

theorem string_of_refValue {d : Measurement} {value : Bytes} (h : refValue d = some value) :
    d.value = .string value := by
  simp only [refValue, type_of_refValue h, ↓reduceIte] at h
  split at h
  · rename_i hv
    rw [hv, Option.some.inj h]
  · cases h

theorem loaded_file_kept_iff (id : Int) (access : Nat → FileAccess) (pre post : List Measurement)
    (d : Measurement) (r : References) (value buffer : Bytes) (hd : refValue d = some value)
    (hpre : refCount pre = 0) (hpost : refCount post = 0)
    (h : Loadable (access pre.length) r value buffer) :
    ∃ d' r', processRefMapping id access (pre ++ d :: post) r = (.ok (pre ++ d' :: post), r') ∧
      (KeepsContent id buffer d' r r' ↔ r.Fresh) := by
  have ht := type_of_refValue hd
  have hv := string_of_refValue hd
  refine ⟨{ d with value := .string (generatedRef r.refCounter) },
    r.loaded id value buffer (removed r.files value), ?_, loaded_keeps_iff⟩
  rw [processRefMapping_append_other hpre, processRefMapping_cons_ref ht, Nat.add_zero,
    processRef_loadable hv h]
  simp only [processRefMapping_of_count hpost, Except.map]

theorem registered_name_loses_file :
    let access : Nat → FileAccess := fun _ => ⟨true, true, true, true⟩
    let r := (run ⟨2, 0, true, 0, 1⟩ id (fun p => if p = ascii "f" then some [1] else none)
      [.setReference (ascii "ref-0") (ascii "d") []]).refs
    let p := processRefMapping 1 access [⟨ascii "a", .ref, [], .string (ascii "f")⟩] r
    Loadable (access 0) r (ascii "f") [1] ∧
      p.1 = .ok [⟨ascii "a", .ref, [], .string (ascii "ref-0")⟩] ∧ p.2.files (ascii "f") = none ∧
      ¬ KeepsContent 1 [1] ⟨ascii "a", .ref, [], .string (ascii "ref-0")⟩ r p.2 := by
  refine ⟨⟨rfl, rfl, rfl, rfl, rfl, rfl, by simp⟩, rfl, rfl, ?_⟩
  rintro ⟨ref, x, hv, hf, hid, -, -⟩
  cases hv
  cases hf
  exact absurd hid (by decide)

theorem loaded_file_kept_iff_first :
    let access : Nat → FileAccess := fun _ => ⟨true, true, true, true⟩
    let r : References := ⟨KeyedTable.empty, 0, fun p => if p = ascii "f" then some [1] else none⟩
    ∃ d' r', processRefMapping 1 access [⟨ascii "a", .ref, [], .string (ascii "f")⟩] r =
      (.ok [d'], r') ∧ (KeepsContent 1 [1] d' r r' ↔ r.Fresh) :=
  loaded_file_kept_iff 1 _ [] [] _ _ (ascii "f") [1] rfl rfl rfl
    ⟨rfl, rfl, rfl, rfl, rfl, rfl, by simp⟩

end QdsBuffer.DataSource
