import QdsBuffer.Parsing.Structure
import QdsBuffer.Parsing.Reordered

namespace QdsBuffer.Parsing
open Bytes

-- The members of the object that ToJson builds for a measurement, in the order of their insertion.
def measurementObj (d : Measurement) : List (Bytes × Bytes) :=
  [(ascii "NAME", d.name), (ascii "TYPE", d.typeToString)] ++
    (if d.unit.isEmpty then [] else [(ascii "UNIT", d.unit)]) ++ [(ascii "VALUE", d.valueToString)]

def Members.ofTexts : List (Bytes × Bytes) → Members
  | [] => .nil
  | (key, value) :: members =>
    .cons (Cut.uncut key) (.string (Cut.uncut value)) (Members.ofTexts members)

def Elements.ofObjects : List Members → Elements
  | [] => .nil
  | members :: objects => .cons (.object members) (Elements.ofObjects objects)

def measurementArray (list : List Measurement) : Json :=
  .array (Elements.ofObjects (list.map (fun d => Members.ofTexts (measurementObj d))))

structure BoostJson where
  serialize : Json → Bytes
  deliver : Bytes → JsonParser.Delivery

def toJson (boost : BoostJson) (list : List Measurement) : Bytes :=
  boost.serialize (measurementArray list)

-- The text of the value is read without an error, every string and key in one call.
def BoostJson.Reproduces (boost : BoostJson) (value : Json) : Prop :=
  let text := boost.serialize value
  boost.deliver text = ⟨value.inSingleCalls, none, text.length, text.length⟩

def textMember (m : Bytes × Bytes) : Member := ⟨m.1, .string m.2 (some m.2)⟩

def writtenMembers (d : Measurement) : List Member := (measurementObj d).map textMember

def writtenContents (list : List Measurement) : List (List Event) :=
  list.map (fun d => (writtenMembers d).flatMap Member.events)

def textTypes : List MeasurementType := [.string, .word, .timestamp, .ref, .foreignKey]

namespace DataValidator

def reread (d : Measurement) : Measurement := { d with value := .string d.valueToString }

theorem fills_one {β : Type} [DecidableEq β] (unset : β) (parsed : Scalar → Option β) (s : Scalar) :
    fills unset parsed unset [s] = parsed s := by
  rw [fills_cons, fill, if_pos rfl]
  exact Option.bind_fun_some (parsed s)

theorem written_keys (d : Measurement) :
    ∀ m ∈ writtenMembers d, (keyValidator m.key).isSome = true := by
  have hkeys : ∀ key ∈ [ascii "NAME", ascii "TYPE", ascii "UNIT", ascii "VALUE"],
      (keyValidator key).isSome = true := by decide
  have hsub : ∀ kv ∈ measurementObj d,
      kv.1 ∈ [ascii "NAME", ascii "TYPE", ascii "UNIT", ascii "VALUE"] := by
    unfold measurementObj
    cases d.unit with
    | nil => simp
    | cons b bs => simp
  intro m hm
  obtain ⟨kv, hkv, rfl⟩ := List.mem_map.mp hm
  exact hkeys _ (hsub kv hkv)

theorem written_values (d : Measurement) :
    values .name (writtenMembers d) = [.string d.name (some d.name)] ∧
    values .type (writtenMembers d) = [.string d.typeToString (some d.typeToString)] ∧
    values .unit (writtenMembers d) =
      (if d.unit.isEmpty then [] else [.string d.unit (some d.unit)]) ∧
    values .value (writtenMembers d) = [.string d.valueToString (some d.valueToString)] := by
  unfold writtenMembers measurementObj
  cases d.unit with
  | nil => exact ⟨rfl, rfl, rfl, rfl⟩
  | cons b bs => exact ⟨rfl, rfl, rfl, rfl⟩

theorem reads_written {d : Measurement} (ht : d.type ≠ .notSet) :
    Reads Measurement.fresh (writtenMembers d) (reread d) := by
  obtain ⟨hname, htype, hunit, hvalue⟩ := written_values d
  refine ⟨written_keys d, ?_, ?_, ?_, ?_⟩
  · rw [hname]
    rfl
  · rw [htype]
    exact (fills_one _ _ _).trans (Measurement.typesMap_typeToString ht)
  · rw [hunit]
    cases hu : d.unit with
    | nil => exact congrArg some hu.symm
    | cons b bs => exact congrArg some hu.symm
  · rw [hvalue]
    rfl

theorem yields_written {d m : Measurement} (ht : d.type ≠ .notSet) :
    Yields ((writtenMembers d).flatMap Member.events) m ↔
      m = reread d ∧ checkMeasurement (reread d) = .ok () := by
  have hread := (readMembers_eq_some _ _ _).mpr (reads_written ht)
  rw [yields_members, ← readMembers_eq_some, hread, Option.some.injEq]
  constructor
  · rintro ⟨rfl, hc⟩
    exact ⟨rfl, hc⟩
  · rintro ⟨rfl, hc⟩
    exact ⟨rfl, hc⟩

theorem reread_text {d : Measurement} (h : checkMeasurement d = .ok ()) (ht : d.type ∈ textTypes) :
    reread d = d := by
  have hv := (checkMeasurement_ok h).value
  obtain ⟨name, type, unit, value⟩ := d
  cases value with
  | string s => rfl
  | _ =>
    simp only [textTypes, List.mem_cons, List.not_mem_nil, or_false] at ht
    rcases ht with rfl | rfl | rfl | rfl | rfl <;> exact hv.elim

theorem reread_accepted_iff {d : Measurement} (h : checkMeasurement d = .ok ()) :
    checkMeasurement (reread d) = .ok () ↔ d.type ∈ textTypes := by
  constructor
  · intro hc
    have hv : ValueMatches d.type (.string d.valueToString) := (checkMeasurement_ok hc).value
    unfold textTypes
    cases ht : d.type <;> rw [ht] at hv <;> first | exact hv.elim | simp
  · intro ht
    rwa [reread_text h ht]

theorem yields_written_iff {d m : Measurement} (h : checkMeasurement d = .ok ()) :
    Yields ((writtenMembers d).flatMap Member.events) m ↔ d.type ∈ textTypes ∧ m = d := by
  rw [yields_written (checkMeasurement_ok h).type, reread_accepted_iff h]
  constructor
  · rintro ⟨rfl, ht⟩
    exact ⟨ht, reread_text h ht⟩
  · rintro ⟨ht, rfl⟩
    exact ⟨(reread_text h ht).symm, ht⟩

theorem yields_written_all {list ms : List Measurement}
    (h : ∀ d ∈ list, checkMeasurement d = .ok ()) :
    List.Forall₂ Yields (writtenContents list) ms ↔
      (∀ d ∈ list, d.type ∈ textTypes) ∧ ms = list := by
  rw [writtenContents, List.forall₂_map_left_iff]
  induction list generalizing ms with
  | nil => simp
  | cons d list ih =>
    obtain ⟨hd, hlist⟩ := List.forall_mem_cons.mp h
    rw [List.forall₂_cons_left_iff, List.forall_mem_cons]
    simp only [yields_written_iff hd, ih hlist]
    constructor
    · rintro ⟨_, _, ⟨ht, rfl⟩, ⟨hts, rfl⟩, rfl⟩
      exact ⟨⟨ht, hts⟩, rfl⟩
    · rintro ⟨⟨ht, hts⟩, rfl⟩
      exact ⟨d, list, ⟨ht, rfl⟩, ⟨hts, rfl⟩, rfl⟩

theorem ofTexts_events (members : List (Bytes × Bytes)) :
    (Members.ofTexts members).events = (members.map textMember).flatMap Member.events := by
  induction members with
  | nil => rfl
  | cons m members ih =>
    rw [Members.ofTexts, Members.cons_events, ih]
    rfl

theorem ofObjects_events (objects : List Members) :
    (Elements.ofObjects objects).events = (objects.map Members.events).flatMap segment := by
  induction objects with
  | nil => rfl
  | cons o objects ih =>
    rw [Elements.ofObjects, Elements.cons_events, Json.object_events, ih]
    rfl

theorem measurementArray_events (list : List Measurement) :
    (measurementArray list).events = (writtenContents list).flatMap segment := by
  rw [measurementArray, Json.array_events, ofObjects_events, List.map_map]
  simp only [Function.comp_def, ofTexts_events, writtenContents, writtenMembers]

def Whole (t : Token) : Prop := t.Undivided ∧ t.final.answer = true

theorem ofTexts_whole (members : List (Bytes × Bytes)) :
    ∀ t ∈ (Members.ofTexts members).tokens, Whole t := by
  induction members with
  | nil => simp [Members.ofTexts, Members.tokens]
  | cons m members ih =>
    rw [Members.ofTexts, Members.tokens, Json.tokens]
    exact List.forall_mem_cons.mpr ⟨⟨rfl, rfl⟩, List.forall_mem_cons.mpr ⟨⟨rfl, rfl⟩, ih⟩⟩

theorem ofObjects_whole {objects : List Members} (h : ∀ o ∈ objects, ∀ t ∈ o.tokens, Whole t) :
    ∀ t ∈ (Elements.ofObjects objects).tokens, Whole t := by
  induction objects with
  | nil => simp [Elements.ofObjects, Elements.tokens]
  | cons o objects ih =>
    obtain ⟨ho, hobjects⟩ := List.forall_mem_cons.mp h
    rw [Elements.ofObjects, Elements.tokens, Json.tokens, List.forall_mem_append,
      List.forall_mem_cons, List.forall_mem_append]
    exact ⟨⟨⟨trivial, rfl⟩, ho, List.forall_mem_singleton.mpr ⟨trivial, rfl⟩⟩, ih hobjects⟩

theorem measurementArray_whole (list : List Measurement) :
    ∀ t ∈ (measurementArray list).document, Whole t := by
  have hobjects : ∀ o ∈ list.map (fun d => Members.ofTexts (measurementObj d)),
      ∀ t ∈ o.tokens, Whole t := by
    intro o ho
    obtain ⟨d, -, rfl⟩ := List.mem_map.mp ho
    exact ofTexts_whole (measurementObj d)
  have hends : ∀ call : HandlerCall, call.answer = true → Whole (.other call) :=
    fun _ ha => ⟨trivial, ha⟩
  rw [measurementArray, Json.document, Json.tokens, List.forall_mem_cons, List.forall_mem_append,
    List.forall_mem_cons, List.forall_mem_append]
  exact ⟨hends _ rfl, ⟨hends _ rfl, ofObjects_whole hobjects,
    List.forall_mem_singleton.mpr (hends _ rfl)⟩, List.forall_mem_singleton.mpr (hends _ rfl)⟩

theorem single_of_whole {t : Token} (h : Whole t) : t.single = t.final := by
  cases t with
  | key c => exact congrArg HandlerCall.onKey (Cut.whole_of_uncut h.1)
  | string c => exact congrArg HandlerCall.onString (Cut.whole_of_uncut h.1)
  | other call => rfl

theorem single_eq_final (list : List Measurement) : (measurementArray list).inSingleCalls =
    (measurementArray list).document.map Token.final :=
  List.map_congr_left (fun t ht => single_of_whole (measurementArray_whole list t ht))

theorem written_answers (list : List Measurement) :
    ∀ call ∈ (measurementArray list).inSingleCalls, call.answer = true := by
  rw [single_eq_final]
  exact List.forall_mem_map.mpr (fun t ht => (measurementArray_whole list t ht).2)

theorem written_events (list : List Measurement) :
    (measurementArray list).inSingleCalls.filterMap HandlerCall.event =
      (writtenContents list).flatMap segment := by
  rw [single_eq_final, ← measurementArray_events, ← document_events, eventsOf]

theorem writtenContents_opens (list : List Measurement) :
    ∀ c ∈ writtenContents list, Opens c :=
  List.forall_mem_map.mpr (fun d _ => members_opens (writtenMembers d))

theorem written_data {list : List Measurement} (h : ∀ d ∈ list, checkMeasurement d = .ok ())
    {st : ParsingState}
    (hst : process ParsingState.initial ((writtenContents list).flatMap segment) = .ok st) :
    (∀ d ∈ list, d.type ∈ textTypes) ∧ st.data = arranged list := by
  obtain ⟨ms, hms, hdata⟩ := data_arranged (writtenContents_opens list) hst
  obtain ⟨htext, rfl⟩ := (yields_written_all h).mp hms
  exact ⟨htext, hdata⟩

theorem outcome_written_iff {list data : List Measurement} (size : Nat)
    (h : ∀ d ∈ list, checkMeasurement d = .ok ()) :
    outcome ⟨(measurementArray list).inSingleCalls, none, size, size⟩ = some data ↔
      (∀ d ∈ list, d.type ∈ textTypes) ∧ data = arranged list := by
  constructor
  · intro ho
    obtain ⟨st, hst, rfl⟩ := outcome_events ho
    exact written_data h (written_events list ▸ hst)
  · rintro ⟨htext, rfl⟩
    have hms := (yields_written_all h).mpr ⟨htext, rfl⟩
    obtain ⟨st, hst⟩ :=
      process_segments_accepted (writtenContents_opens list) hms ParsingState.initial
    rw [← (written_data h hst).2]
    rw [← written_events] at hst
    exact outcome_of_events (written_answers list) hst size

theorem accepted_list {doc : Json} {ec : Option Bytes} {n size : Nat} {list : List Measurement}
    (h : outcome ⟨doc.inPieces, ec, n, size⟩ = some list) :
    (∀ d ∈ list, checkMeasurement d = .ok ()) ∧ ∃ ms, list = arranged ms := by
  obtain ⟨hopens, ms, hms, rfl⟩ := document_arranged h
  refine ⟨?_, ms, rfl⟩
  intro d hd
  have hmem : d ∈ ms := by
    rcases List.mem_append.mp hd with hd | hd
    · exact List.mem_of_mem_filter (List.mem_reverse.mp hd)
    · exact List.mem_of_mem_filter hd
  have hboth := (List.forall₂_and_left (p := fun o : Members => Opens o.events) _ _).mpr ⟨hopens, hms⟩
  obtain ⟨o, ho, hy⟩ := each_of_forall₂ hboth.flip d hmem
  exact (yields_fields ho hy).2

theorem arranged_again {ms : List Measurement}
    (h : (arranged ms).countP (fun d => d.type = .timestamp) ≤ 1) :
    arranged (arranged ms) = arranged ms := by
  have hfront : (arranged ms).filter (fun d => d.type = .timestamp) =
      (ms.filter (fun d => d.type = .timestamp)).reverse := by
    simp [arranged, List.filter_filter]
  have hback : (arranged ms).filter (fun d => d.type ≠ .timestamp) =
      ms.filter (fun d => d.type ≠ .timestamp) := by
    simp [arranged, List.filter_filter]
  rw [List.countP_eq_length_filter, hfront, List.length_reverse] at h
  have hone := eq_of_perm_of_length_le_one (List.reverse_perm _).symm h
  rw [arranged, hfront, hback, List.reverse_reverse, hone, arranged]

theorem parsing_undoes_toJson (boost : BoostJson) {doc : Json} {ec : Option Bytes} {n size : Nat}
    {list : List Measurement} (haccepted : outcome ⟨doc.inPieces, ec, n, size⟩ = some list)
    (hboost : boost.Reproduces (measurementArray list)) :
    ((∃ data, outcome (boost.deliver (toJson boost list)) = some data) ↔
      ∀ d ∈ list, d.type ∈ textTypes) ∧
    ((∀ d ∈ list, d.type ∈ textTypes) → list.countP (fun d => d.type = .timestamp) ≤ 1 →
      outcome (boost.deliver (toJson boost list)) = some list) := by
  obtain ⟨hchecked, ms, hms⟩ := accepted_list haccepted
  have houtcome : ∀ data, outcome (boost.deliver (toJson boost list)) = some data ↔
      (∀ d ∈ list, d.type ∈ textTypes) ∧ data = arranged list := by
    intro data
    rw [toJson, hboost]
    exact outcome_written_iff _ hchecked
  refine ⟨⟨?_, ?_⟩, ?_⟩
  · rintro ⟨data, hdata⟩
    exact ((houtcome data).mp hdata).1
  · intro htext
    exact ⟨_, (houtcome _).mpr ⟨htext, rfl⟩⟩
  · intro htext hone
    subst hms
    exact (houtcome _).mpr ⟨htext, (arranged_again hone).symm⟩

-- The TIMESTAMP comes last in the document and first in the list.
theorem parsing_undoes_toJson_timestamp :
    let list : List Measurement := [⟨ascii "t", .timestamp, [], .string (ascii "2020-01-02T03:04:05Z")⟩,
      ⟨ascii "a", .string, ascii "m", .string (ascii "b")⟩, ⟨ascii "r", .ref, [], .string (ascii "f")⟩]
    let text := ascii ("[\x7b\"NAME\":\"t\",\"TYPE\":\"TIMESTAMP\",\"VALUE\":\"2020-01-02T03:04:05Z\"\x7d," ++
      "\x7b\"NAME\":\"a\",\"TYPE\":\"STRING\",\"UNIT\":\"m\",\"VALUE\":\"b\"\x7d," ++
      "\x7b\"NAME\":\"r\",\"TYPE\":\"REF\",\"VALUE\":\"f\"\x7d]")
    let boost : BoostJson := ⟨fun _ => text,
      fun text => ⟨(measurementArray list).inSingleCalls, none, text.length, text.length⟩⟩
    ((∃ data, outcome (boost.deliver (toJson boost list)) = some data) ↔
      ∀ d ∈ list, d.type ∈ textTypes) ∧
    ((∀ d ∈ list, d.type ∈ textTypes) → list.countP (fun d => d.type = .timestamp) ≤ 1 →
      outcome (boost.deliver (toJson boost list)) = some list) := by
  intro list text boost
  have haccepted : outcome ⟨(Json.array (.cons (.object (member "NAME" "a" (member "TYPE" "STRING"
      (member "UNIT" "m" (member "VALUE" "b" .nil))))) (.cons (.object (member "NAME" "r"
      (member "TYPE" "REF" (member "VALUE" "f" .nil)))) (.cons (.object (member "NAME" "t"
      (member "TYPE" "TIMESTAMP" (member "VALUE" "2020-01-02T03:04:05Z" .nil))))
      .nil)))).inPieces, none, 0, 0⟩ = some list := by
    decide +kernel
  exact parsing_undoes_toJson boost haccepted rfl

end DataValidator

end QdsBuffer.Parsing
