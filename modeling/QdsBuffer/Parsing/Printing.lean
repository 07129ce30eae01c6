import QdsBuffer.Parsing.ToJson

namespace QdsBuffer.Parsing
open Bytes

-- Values with the same text: of a FLOAT or DOUBLE the text has six decimals.
def SameDigits : Value → Value → Prop
  | .double d, .double e => d.PrintsAs e
  | v, w => v = w

structure SameWritten (d d' : Measurement) : Prop where
  name : d.name = d'.name
  type : d.type = d'.type
  unit : d.unit = d'.unit
  value : SameDigits d.value d'.value

namespace DataValidator

inductive SameKind : Value → Value → Prop
  | string (s s' : Bytes) : SameKind (.string s) (.string s')
  | int64 (i i' : Int64) : SameKind (.int64 i) (.int64 i')
  | double (d d' : Binary64) : SameKind (.double d) (.double d')
  | bool (b b' : Bool) : SameKind (.bool b) (.bool b')

theorem ValueMatches.sameKind {t : MeasurementType} {v w : Value} (hv : ValueMatches t v)
    (hw : ValueMatches t w) : SameKind v w := by
  cases t <;> cases v <;> first | exact hv.elim | cases w <;> first | exact hw.elim | constructor

theorem valueToString_eq_iff {d d' : Measurement} (h : SameKind d.value d'.value) :
    d.valueToString = d'.valueToString ↔ SameDigits d.value d'.value := by
  unfold Measurement.valueToString SameDigits
  generalize d.value = v at h
  generalize d'.value = v' at h
  cases h with
  | string s s' => simp
  | int64 i i' =>
    constructor
    · intro heq
      exact congrArg Value.int64 (Int64.toInt_inj.mp (decimalInt_inj heq))
    · rintro ⟨⟩
      rfl
  | double x x' => exact Binary64.toText_eq_iff x x'
  | bool b b' => cases b <;> cases b' <;> decide

theorem typeToString_inj {d d' : Measurement} (h : d.type ≠ .notSet) (h' : d'.type ≠ .notSet)
    (heq : d.typeToString = d'.typeToString) : d.type = d'.type := by
  have hlookup := Measurement.typesMap_typeToString h
  rw [heq, Measurement.typesMap_typeToString h'] at hlookup
  exact (Option.some.inj hlookup).symm

theorem measurementObj_eq_iff {d d' : Measurement} (h : checkMeasurement d = .ok ())
    (h' : checkMeasurement d' = .ok ()) :
    measurementObj d = measurementObj d' ↔ SameWritten d d' := by
  have hvalid := checkMeasurement_ok h
  have hvalid' := checkMeasurement_ok h'
  constructor
  · intro heq
    have hparts : d.name = d'.name ∧ d.typeToString = d'.typeToString ∧ d.unit = d'.unit ∧
        d.valueToString = d'.valueToString := by
      unfold measurementObj at heq
      cases hu : d.unit with
      | nil =>
        cases hu' : d'.unit with
        | nil => simpa [hu, hu'] using heq
        | cons b bs => simp [hu, hu'] at heq
      | cons b bs =>
        cases hu' : d'.unit with
        | nil => simp [hu, hu'] at heq
        | cons b' bs' => simpa [hu, hu', and_assoc] using heq
    obtain ⟨hname, htypes, hunit, hvalues⟩ := hparts
    have htype := typeToString_inj hvalid.type hvalid'.type htypes
    exact ⟨hname, htype, hunit,
      (valueToString_eq_iff (hvalid.value.sameKind (htype ▸ hvalid'.value))).mp hvalues⟩
  · rintro ⟨hname, htype, hunit, hvalue⟩
    have hvalues :=
      (valueToString_eq_iff (hvalid.value.sameKind (htype ▸ hvalid'.value))).mpr hvalue
    have htypes : d.typeToString = d'.typeToString := by
      unfold Measurement.typeToString
      rw [htype]
    rw [measurementObj, measurementObj, hname, htypes, hunit, hvalues]

theorem members_events_inj {o o' : List Member}
    (h : o.flatMap Member.events = o'.flatMap Member.events) : o = o' := by
  induction o generalizing o' with
  | nil =>
    cases o' with
    | nil => rfl
    | cons m' o' => simp [Member.events] at h
  | cons m o ih =>
    cases o' with
    | nil => simp [Member.events] at h
    | cons m' o' =>
      simp only [List.flatMap_cons, Member.events, List.cons_append, List.nil_append,
        List.cons.injEq, Event.onKey.injEq, Event.onValue.injEq] at h
      obtain ⟨hkey, hvalue, hrest⟩ := h
      rw [ih hrest]
      cases m
      cases m'
      cases hkey
      cases hvalue
      rfl

theorem textMember_injective : Function.Injective textMember := by
  rintro ⟨key, value⟩ ⟨key', value'⟩ h
  cases h
  rfl

-- An object determines where it ends in a longer stream of events.
theorem segments_inj {cs cs' : List (List Event)} (h : ∀ c ∈ cs, Event.onObjectEnd ∉ c)
    (h' : ∀ c ∈ cs', Event.onObjectEnd ∉ c) (heq : cs.flatMap segment = cs'.flatMap segment) :
    cs = cs' := by
  induction cs generalizing cs' with
  | nil =>
    cases cs' with
    | nil => rfl
    | cons c' cs' => simp [segment] at heq
  | cons c cs ih =>
    cases cs' with
    | nil => simp [segment] at heq
    | cons c' cs' =>
      simp only [List.flatMap_cons, segment, List.cons_append, List.append_assoc,
        List.nil_append, List.cons.injEq, true_and] at heq
      obtain ⟨hc, hcs⟩ := List.forall_mem_cons.mp h
      obtain ⟨hc', hcs'⟩ := List.forall_mem_cons.mp h'
      obtain ⟨rfl, hrest⟩ := split_at_first hc hc' heq
      rw [ih hcs hcs' hrest]

theorem writtenContents_closed (list : List Measurement) :
    ∀ c ∈ writtenContents list, Event.onObjectEnd ∉ c :=
  fun c hc hend => (writtenContents_opens list c hc).all _ hend

theorem writtenContents_eq_iff {list list' : List Measurement} :
    writtenContents list = writtenContents list' ↔
      List.Forall₂ (fun d d' => measurementObj d = measurementObj d') list list' := by
  have hobj : ∀ d d', (writtenMembers d).flatMap Member.events =
      (writtenMembers d').flatMap Member.events ↔ measurementObj d = measurementObj d' := by
    intro d d'
    refine ⟨fun heq => ?_, fun heq => by rw [writtenMembers, writtenMembers, heq]⟩
    exact List.map_injective_iff.mpr textMember_injective (members_events_inj heq)
  rw [writtenContents, writtenContents, ← List.forall₂_eq_eq_eq, List.forall₂_map_left_iff,
    List.forall₂_map_right_iff]
  simp only [hobj]

theorem measurementArray_eq {list list' : List Measurement}
    (h : List.Forall₂ (fun d d' => measurementObj d = measurementObj d') list list') :
    measurementArray list = measurementArray list' := by
  have hmap : list.map (fun d => Members.ofTexts (measurementObj d)) =
      list'.map (fun d => Members.ofTexts (measurementObj d)) := by
    rw [← List.forall₂_eq_eq_eq, List.forall₂_map_left_iff, List.forall₂_map_right_iff]
    exact h.imp (fun d d' heq => congrArg Members.ofTexts heq)
  rw [measurementArray, measurementArray, hmap]

theorem forall₂_written_iff {list list' : List Measurement}
    (h : ∀ d ∈ list, checkMeasurement d = .ok ()) (h' : ∀ d ∈ list', checkMeasurement d = .ok ()) :
    List.Forall₂ (fun d d' => measurementObj d = measurementObj d') list list' ↔
      List.Forall₂ SameWritten list list' := by
  induction list generalizing list' with
  | nil => simp
  | cons d list ih =>
    obtain ⟨hd, hlist⟩ := List.forall_mem_cons.mp h
    cases list' with
    | nil => simp
    | cons d' list' =>
      obtain ⟨hd', hlist'⟩ := List.forall_mem_cons.mp h'
      rw [List.forall₂_cons, List.forall₂_cons, measurementObj_eq_iff hd hd', ih hlist hlist']

-- ToJson loses nothing but the decimals of FLOAT and DOUBLE values after the sixth.
theorem toJson_eq_iff (boost : BoostJson) {doc doc' : Json} {ec ec' : Option Bytes}
    {n n' size size' : Nat} {list list' : List Measurement}
    (haccepted : outcome ⟨doc.inPieces, ec, n, size⟩ = some list)
    (haccepted' : outcome ⟨doc'.inPieces, ec', n', size'⟩ = some list')
    (hboost : boost.Reproduces (measurementArray list))
    (hboost' : boost.Reproduces (measurementArray list')) :
    toJson boost list = toJson boost list' ↔ List.Forall₂ SameWritten list list' := by
  rw [← forall₂_written_iff (accepted_list haccepted).1 (accepted_list haccepted').1]
  constructor
  · intro heq
    have hcalls : (measurementArray list).inSingleCalls = (measurementArray list').inSingleCalls := by
      have hdeliver : boost.deliver (toJson boost list) = _ := hboost
      rw [heq] at hdeliver
      exact congrArg JsonParser.Delivery.calls (hdeliver.symm.trans hboost')
    have hevents := congrArg (List.filterMap HandlerCall.event) hcalls
    rw [written_events, written_events] at hevents
    exact writtenContents_eq_iff.mp (segments_inj (writtenContents_closed list)
      (writtenContents_closed list') hevents)
  · intro hobjs
    rw [toJson, toJson, measurementArray_eq hobjs]

theorem toJson_eq_iff_close :
    let list (bits : UInt64) : List Measurement := [⟨ascii "a", .double, [], .double ⟨bits⟩⟩]
    let text := ascii "[\x7b\"NAME\":\"a\",\"TYPE\":\"DOUBLE\",\"VALUE\":\"1.000000\"\x7d]"
    let boost : BoostJson := ⟨fun _ => text, fun text =>
      ⟨(measurementArray (list 0x3FF0000000000000)).inSingleCalls, none, text.length, text.length⟩⟩
    toJson boost (list 0x3FF0000000000000) = toJson boost (list 0x3FF0000000000001) ↔
      List.Forall₂ SameWritten (list 0x3FF0000000000000) (list 0x3FF0000000000001) := by
  intro list text boost
  have haccepted : ∀ bits, outcome ⟨(Json.object (member "NAME" "a" (member "TYPE" "DOUBLE"
      (.cons (Cut.uncut (ascii "VALUE")) (.double ⟨bits⟩ []) .nil)))).inPieces, none, 0, 0⟩ =
      some (list bits) := fun _ => rfl
  exact toJson_eq_iff boost (haccepted 0x3FF0000000000000) (haccepted 0x3FF0000000000001) rfl rfl

end DataValidator

end QdsBuffer.Parsing
