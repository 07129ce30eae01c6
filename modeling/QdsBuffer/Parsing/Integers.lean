import QdsBuffer.Parsing.Documents
import Mathlib.Algebra.Group.Int.Defs

namespace QdsBuffer.Parsing
open Bytes

-- basic_parser's call for an integer literal of the range it has integers for.
def integerCall (n : Int) (text : Bytes) : HandlerCall :=
  if n < 2 ^ 63 then .onInt64 (Int64.ofInt n) text else .onUint64 (UInt64.ofNat n.toNat) text

namespace DataValidator

-- The values of an object, each with the validator of the key before it.
def fields : Option Validator → List Event → List (Validator × Scalar)
  | _, [] => []
  | _, .onKey key :: events => fields (keyValidator key) events
  | some v, .onValue scalar :: events => (v, scalar) :: fields none events
  | v, _ :: events => fields v events

def scalarType : Scalar → Option MeasurementType
  | .string s _ => Measurement.typesMap.lookup s
  | _ => none

def applyField (d : Measurement) (field : Validator × Scalar) : Except Exception Measurement :=
  validate field.1 field.2 d

structure Sets {β : Type} (v : Validator) (get : Measurement → β) (unset : β)
    (parsed : Scalar → Option β) : Prop where
  once : ∀ {s d d'}, validate v s d = .ok d' →
    get d = unset ∧ get d' ≠ unset ∧ parsed s = some (get d')
  only : ∀ {w s d d'}, w ≠ v → validate w s d = .ok d' → get d' = get d

theorem validateString_ok {keyName : String} {present : Measurement → Bool}
    {assign : Measurement → Bytes → Except Exception Measurement} {scalar : Scalar}
    {d d' : Measurement} (h : validateString keyName present assign scalar d = .ok d') :
    ∃ s value, scalar = .string s value ∧ present d = false ∧ assign d s = .ok d' := by
  cases scalar with
  | string s value =>
    simp only [validateString] at h
    cases hp : present d with
    | true => simp [hp] at h
    | false =>
      rw [hp, if_neg Bool.false_ne_true] at h
      exact ⟨s, value, rfl, rfl, h⟩
  | _ => cases h

theorem validateName_ok {scalar : Scalar} {d d' : Measurement} (h : validateName scalar d = .ok d') :
    d'.type = d.type ∧ d'.value = d.value := by
  obtain ⟨s, value, rfl, -, ha⟩ := validateString_ok h
  cases ha
  exact ⟨rfl, rfl⟩

theorem validateUnit_ok {scalar : Scalar} {d d' : Measurement} (h : validateUnit scalar d = .ok d') :
    d'.type = d.type ∧ d'.value = d.value := by
  obtain ⟨s, value, rfl, -, ha⟩ := validateString_ok h
  cases ha
  exact ⟨rfl, rfl⟩

theorem validateType_ok {scalar : Scalar} {d d' : Measurement} (h : validateType scalar d = .ok d') :
    d.type = .notSet ∧ d'.type ≠ .notSet ∧ scalarType scalar = some d'.type ∧
      d'.value = d.value := by
  obtain ⟨s, value, rfl, hp, ha⟩ := validateString_ok h
  simp only at ha
  split at ha
  · cases ha
  · rename_i hset
    cases ha
    refine ⟨by simpa using hp, hset, ?_, rfl⟩
    simp only [Measurement.setTypeFromString] at hset
    cases hl : Measurement.typesMap.lookup s with
    | none => simp [hl] at hset
    | some t => simp [scalarType, Measurement.setTypeFromString, hl]

theorem scalarValue_ne_blank {scalar : Scalar} {v : Value} (h : scalarValue scalar = some v) :
    v ≠ .blank := by
  rintro rfl
  cases scalar <;> simp [scalarValue] at h

theorem validateValue_ok {scalar : Scalar} {d d' : Measurement}
    (h : validateValue scalar d = .ok d') :
    d.value = .blank ∧ d'.value ≠ .blank ∧ scalarValue scalar = some d'.value ∧
      d'.type = d.type := by
  unfold validateValue at h
  cases hs : scalarValue scalar with
  | none =>
    rw [hs] at h
    cases h
  | some v =>
    simp only [hs] at h
    split at h
    · cases h
    · rename_i hblank
      cases h
      exact ⟨not_not.mp hblank, scalarValue_ne_blank hs, rfl, rfl⟩

theorem sets_type : Sets .type Measurement.type .notSet scalarType where
  once := by
    intro s d d' h
    obtain ⟨hbefore, hafter, hs, -⟩ := validateType_ok h
    exact ⟨hbefore, hafter, hs⟩
  only := by
    intro w s d d' hw h
    cases w with
    | name => exact (validateName_ok h).1
    | type => exact absurd rfl hw
    | unit => exact (validateUnit_ok h).1
    | value => exact (validateValue_ok h).2.2.2
    | decimals => cases h; rfl

theorem sets_value : Sets .value Measurement.value .blank scalarValue where
  once := by
    intro s d d' h
    obtain ⟨hbefore, hafter, hs, -⟩ := validateValue_ok h
    exact ⟨hbefore, hafter, hs⟩
  only := by
    intro w s d d' hw h
    cases w with
    | name => exact (validateName_ok h).2
    | type => exact (validateType_ok h).2.2.2
    | unit => exact (validateUnit_ok h).2
    | value => exact absurd rfl hw
    | decimals => cases h; rfl

theorem applyFields_cons {f : Validator × Scalar} {fs : List (Validator × Scalar)}
    {d d' : Measurement} (h : (f :: fs).foldlM applyField d = .ok d') :
    ∃ d₁, validate f.1 f.2 d = .ok d₁ ∧ fs.foldlM applyField d₁ = .ok d' := by
  rw [List.foldlM_cons] at h
  exact bind_ok h

section

variable {β : Type} {v : Validator} {get : Measurement → β} {unset : β}
  {parsed : Scalar → Option β}

theorem Sets.kept (hs : Sets v get unset parsed) {fs : List (Validator × Scalar)}
    {d d' : Measurement} (h : fs.foldlM applyField d = .ok d') (hd : get d ≠ unset) :
    get d' = get d ∧ ∀ s, (v, s) ∉ fs := by
  induction fs generalizing d with
  | nil =>
    cases h
    simp
  | cons f fs ih =>
    obtain ⟨d₁, hf, hrest⟩ := applyFields_cons h
    have hv : f.1 ≠ v := by
      rintro rfl
      exact hd (hs.once hf).1
    have hd₁ := hs.only hv hf
    obtain ⟨hget, hnone⟩ := ih hrest (by rwa [hd₁])
    refine ⟨hget.trans hd₁, ?_⟩
    intro s hmem
    rcases List.mem_cons.mp hmem with rfl | hmem
    · exact hv rfl
    · exact hnone s hmem

theorem Sets.all (hs : Sets v get unset parsed) {fs : List (Validator × Scalar)}
    {d d' : Measurement} (h : fs.foldlM applyField d = .ok d') {s : Scalar} (hm : (v, s) ∈ fs) :
    parsed s = some (get d') := by
  induction fs generalizing d with
  | nil => cases hm
  | cons f fs ih =>
    obtain ⟨d₁, hf, hrest⟩ := applyFields_cons h
    rcases List.mem_cons.mp hm with rfl | hm
    · obtain ⟨-, hset, hp⟩ := hs.once hf
      rw [hp, (hs.kept hrest hset).1]
    · exact ih hrest hm

theorem Sets.origin (hs : Sets v get unset parsed) {fs : List (Validator × Scalar)}
    {d d' : Measurement} (h : fs.foldlM applyField d = .ok d') (hd : get d = unset)
    (hd' : get d' ≠ unset) : ∃ s, (v, s) ∈ fs := by
  induction fs generalizing d with
  | nil =>
    cases h
    exact absurd hd hd'
  | cons f fs ih =>
    obtain ⟨d₁, hf, hrest⟩ := applyFields_cons h
    by_cases hv : f.1 = v
    · exact ⟨f.2, by rw [← hv]; exact List.mem_cons_self⟩
    · obtain ⟨s, hm⟩ := ih hrest ((hs.only hv hf).trans hd)
      exact ⟨s, List.mem_cons_of_mem f hm⟩

end

theorem readContent_fields {content : List Event} {c c' : Cursor}
    (h : readContent c content = .ok c') :
    (fields c.validator content).foldlM applyField c.data = .ok c'.data := by
  induction content generalizing c with
  | nil =>
    cases h
    rfl
  | cons e content ih =>
    rw [readContent, List.foldlM_cons] at h
    obtain ⟨c₁, hr, hcontent⟩ := bind_ok h
    have hrest := ih hcontent
    cases e with
    | onObjectBegin =>
      cases hr
      exact hrest
    | onObjectEnd =>
      cases hr
      exact hrest
    | onKey key =>
      rw [fields, keyValidator]
      unfold read at hr
      cases hf : buildParseValidation.find? (fun entry => strncmpEq entry.1 key) with
      | none => simp [hf] at hr
      | some entry =>
        simp only [hf, Except.ok.injEq] at hr
        subst hr
        exact hrest
    | onValue scalar =>
      unfold read at hr
      cases hk : c.hasKey with
      | false => simp [hk] at hr
      | true =>
        rw [hk] at hr
        obtain ⟨d, ha, rfl⟩ := map_eq_ok hr
        cases hv : c.validator with
        | none =>
          rw [hv] at ha
          cases ha
          exact hrest
        | some v =>
          rw [hv] at ha
          rw [fields, List.foldlM_cons, applyField, show validate v scalar c.data = .ok d from ha]
          exact hrest

theorem yields_fields {content : List Event} (ho : Opens content) {m : Measurement}
    (h : Yields content m) :
    (fields none content).foldlM applyField Measurement.fresh = .ok m ∧
      checkMeasurement m = .ok () := by
  obtain ⟨c, hc, rfl⟩ := (yields_iff ho).mp h
  obtain ⟨c₁, hr, hclose⟩ := bind_ok hc
  obtain ⟨u, hk, rfl⟩ := map_eq_ok hclose
  exact ⟨readContent_fields hr, hk⟩

theorem integer_fits {m : Measurement} {i : Int64} (h : checkMeasurement m = .ok ())
    (ht : m.type = .integer) (hv : m.value = .int64 i) : i.toInt ≤ 2147483647 := by
  unfold checkMeasurement at h
  split at h
  · cases h
  · split at h
    · cases h
    · split at h
      · cases h
      · rw [checkValue, ht, hv] at h
        simp only at h
        split at h
        · cases h
        · omega

theorem reinterpreted {n : Int} (h : 2 ^ 63 ≤ n) (h' : n < 2 ^ 64) :
    (UInt64.ofNat n.toNat).toInt64.toInt = n - 2 ^ 64 := by
  have hnat : (UInt64.ofNat n.toNat).toBitVec.toNat = n.toNat := by
    simp only [UInt64.toNat_toBitVec, UInt64.toNat_ofNat']
    omega
  change (UInt64.ofNat n.toNat).toBitVec.toInt = _
  rw [BitVec.toInt_eq_toNat_cond, hnat]
  split <;> omega

theorem integerCall_value {n : Int} (hlow : -2 ^ 63 ≤ n) (hhigh : n < 2 ^ 64) {text : Bytes}
    {s : Scalar} (h : (integerCall n text).event = some (.onValue s)) :
    ∃ i : Int64, scalarValue s = some (.int64 i) ∧
      i.toInt = if n < 2 ^ 63 then n else n - 2 ^ 64 := by
  unfold integerCall at h
  split at h
  · rename_i hn
    cases h
    exact ⟨Int64.ofInt n, rfl, by rw [if_pos hn, Int64.toInt_ofInt_of_le hlow hn]⟩
  · rename_i hn
    cases h
    exact ⟨(UInt64.ofNat n.toNat).toInt64, rfl, by rw [if_neg hn, reinterpreted (by omega) hhigh]⟩

end DataValidator

def Members.fields (o : Members) : List (Validator × Scalar) := DataValidator.fields none o.events

def HasLiteral (o : Members) (n : Int) : Prop :=
  -2 ^ 63 ≤ n ∧ n < 2 ^ 64 ∧
    ∃ text s, (integerCall n text).event = some (.onValue s) ∧ (.value, s) ∈ o.fields

def HasType (o : Members) (t : MeasurementType) : Prop :=
  ∃ s, (.type, s) ∈ o.fields ∧ DataValidator.scalarType s = some t

def AsWritten (o : Members) (m : Measurement) : Prop :=
  ∀ n, HasLiteral o n → m.type = .integer ∨ m.type = .long →
    ∃ i, m.value = .int64 i ∧ i.toInt = n ∧
      (m.type = .integer → -2 ^ 31 ≤ n ∧ n ≤ 2 ^ 31 - 1)

def InRange (doc : Json) : Prop :=
  ∀ o ∈ doc.objects, ∀ n, HasLiteral o n →
    (HasType o .long → n < 2 ^ 63) ∧ (HasType o .integer → -2 ^ 31 ≤ n ∧ n < 2 ^ 63)

namespace DataValidator

theorem object_stored {o : Members} (ho : Opens o.events) {m : Measurement}
    (h : Yields o.events m) {n : Int} (hn : HasLiteral o n) :
    ∃ i : Int64, m.value = .int64 i ∧ i.toInt = if n < 2 ^ 63 then n else n - 2 ^ 64 := by
  obtain ⟨hlow, hhigh, text, s, hs, hmem⟩ := hn
  obtain ⟨i, hi, hint⟩ := integerCall_value hlow hhigh hs
  have hv := sets_value.all (yields_fields ho h).1 hmem
  exact ⟨i, Option.some.inj (hv.symm.trans hi), hint⟩

theorem object_type {o : Members} (ho : Opens o.events) {m : Measurement}
    (h : Yields o.events m) (t : MeasurementType) : HasType o t ↔ m.type = t := by
  obtain ⟨hfold, hcheck⟩ := yields_fields ho h
  constructor
  · rintro ⟨s, hmem, hs⟩
    exact Option.some.inj ((sets_type.all hfold hmem).symm.trans hs)
  · rintro rfl
    obtain ⟨s, hmem⟩ := sets_type.origin hfold rfl (checkMeasurement_ok hcheck).type
    exact ⟨s, hmem, sets_type.all hfold hmem⟩

theorem asWritten_iff {o : Members} (ho : Opens o.events) {m : Measurement}
    (h : Yields o.events m) :
    AsWritten o m ↔ ∀ n, HasLiteral o n →
      (HasType o .long → n < 2 ^ 63) ∧ (HasType o .integer → -2 ^ 31 ≤ n ∧ n < 2 ^ 63) := by
  rw [object_type ho h, object_type ho h]
  constructor
  · intro hw n hn
    obtain ⟨i, hi, hint⟩ := object_stored ho h hn
    refine ⟨?_, ?_⟩
    · intro ht
      obtain ⟨j, hj, hjn, -⟩ := hw n hn (.inr ht)
      have hij : i = j := Value.int64.inj (hi.symm.trans hj)
      rw [← hij, hint] at hjn
      split at hjn <;> omega
    · intro ht
      obtain ⟨j, -, -, hr⟩ := hw n hn (.inl ht)
      have hr := hr ht
      omega
  · intro hr n hn ht
    obtain ⟨i, hi, hint⟩ := object_stored ho h hn
    obtain ⟨hlong, hinteger⟩ := hr n hn
    have hn63 : n < 2 ^ 63 := by
      rcases ht with ht | ht
      · exact (hinteger ht).2
      · exact hlong ht
    rw [if_pos hn63] at hint
    refine ⟨i, hi, hint, ?_⟩
    intro ht
    have hfits := integer_fits (yields_fields ho h).2 ht hi
    exact ⟨(hinteger ht).1, by omega⟩

theorem integers_as_written_iff {doc : Json} {ec : Option Bytes} {n size : Nat}
    {data : List Measurement} (h : outcome ⟨doc.inPieces, ec, n, size⟩ = some data) :
    ∃ ms, List.Forall₂ (fun o m => ∃ st, process ParsingState.initial (segment o.events) = .ok st ∧
        st.data = [m]) doc.objects ms ∧
      data = arranged ms ∧ ((∀ p ∈ doc.objects.zip ms, AsWritten p.1 p.2) ↔ InRange doc) := by
  obtain ⟨hopens, ms, hms, hdata⟩ := document_arranged h
  refine ⟨ms, hms, hdata, ?_⟩
  constructor
  · intro hall o ho
    obtain ⟨m, hm⟩ :=
      each_of_forall₂ (List.forall₂_iff_zip.mpr ⟨hms.length_eq, fun {_ _} hz => hz⟩) o ho
    exact (asWritten_iff (hopens o ho) (List.forall₂_zip hms hm)).mp (hall _ hm)
  · intro hr p hp
    have hy := List.forall₂_zip hms hp
    have ho := (List.of_mem_zip hp).1
    exact (asWritten_iff (hopens _ ho) hy).mpr (hr _ ho)

def measured (type : String) (value : Json) : Members :=
  member "NAME" "a" (member "TYPE" type (.cons (Cut.uncut (ascii "VALUE")) value .nil))

theorem integers_not_as_written :
    let long := measured "LONG" (.uint64 9223372036854775808 (ascii "9223372036854775808"))
    let integer := measured "INTEGER" (.int64 (-2147483649) (ascii "-2147483649"))
    let stored : List Measurement := [⟨ascii "a", .long, [], .int64 (-9223372036854775808)⟩,
      ⟨ascii "a", .integer, [], .int64 (-2147483649)⟩]
    let doc := Json.array (.cons (.object long) (.cons (.object integer) .nil))
    outcome ⟨doc.inPieces, none, 0, 0⟩ = some stored ∧ doc.objects = [long, integer] ∧
      HasLiteral long 9223372036854775808 ∧ HasLiteral integer (-2147483649) ∧
      ∀ p ∈ doc.objects.zip stored, ¬AsWritten p.1 p.2 := by
  intro long integer stored doc
  have hlong : HasLiteral long 9223372036854775808 :=
    ⟨by decide, by decide, ascii "9223372036854775808", _, rfl,
      .tail _ (.tail _ (.head _))⟩
  have hinteger : HasLiteral integer (-2147483649) :=
    ⟨by decide, by decide, ascii "-2147483649", _, rfl, .tail _ (.tail _ (.head _))⟩
  have hobjects : doc.objects = [long, integer] := rfl
  refine ⟨rfl, hobjects, hlong, hinteger, ?_⟩
  intro p hp hw
  rw [hobjects] at hp
  simp only [stored, List.zip_cons_cons, List.zip_nil_right, List.mem_cons, List.not_mem_nil,
    or_false] at hp
  rcases hp with rfl | rfl
  · obtain ⟨i, hi, hn, -⟩ := hw _ hlong (.inr rfl)
    cases hi
    exact absurd hn (by decide)
  · obtain ⟨-, -, -, hr⟩ := hw _ hinteger (.inl rfl)
    exact absurd (hr rfl).1 (by decide)

theorem integers_as_written_iff_largest :
    let doc := Json.object (measured "LONG" (.int64 9223372036854775807 (ascii "9223372036854775807")))
    ∃ ms, List.Forall₂ (fun o m => ∃ st, process ParsingState.initial (segment o.events) = .ok st ∧
        st.data = [m]) doc.objects ms ∧
      [⟨ascii "a", .long, [], .int64 9223372036854775807⟩] = arranged ms ∧
      ((∀ p ∈ doc.objects.zip ms, AsWritten p.1 p.2) ↔ InRange doc) := by
  intro doc
  have h : outcome ⟨doc.inPieces, none, 0, 0⟩ =
      some [⟨ascii "a", .long, [], .int64 9223372036854775807⟩] := rfl
  exact integers_as_written_iff h

end DataValidator

end QdsBuffer.Parsing
