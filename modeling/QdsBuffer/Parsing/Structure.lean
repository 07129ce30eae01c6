import QdsBuffer.Parsing.Documents

namespace QdsBuffer.Parsing
open Bytes

def Elements.toList : Elements → List Json
  | .nil => []
  | .cons value elements => value :: elements.toList

def Members.values : Members → List Json
  | .nil => []
  | .cons _ value members => value :: members.values

mutual

def Json.depth : Json → Nat
  | .array elements => elements.depth + 1
  | .object members => members.depth + 1
  | _ => 0

def Elements.depth : Elements → Nat
  | .nil => 0
  | .cons value elements => max value.depth elements.depth

def Members.depth : Members → Nat
  | .nil => 0
  | .cons _ value members => max value.depth members.depth

end

def Json.IsScalar : Json → Prop
  | .null => False
  | .array _ => False
  | .object _ => False
  | _ => True

def Json.IsArray : Json → Prop
  | .array _ => True
  | _ => False

def Json.ScalarMembers : Json → Prop
  | .object members => ∀ value ∈ members.values, value.IsScalar
  | _ => False

def Json.WellStructured : Json → Prop
  | .array elements => ∀ element ∈ elements.toList, element.ScalarMembers
  | doc => doc.ScalarMembers

def Json.NoArrayMember : Json → Prop
  | .object members => ∀ value ∈ members.values, ¬ value.IsArray
  | _ => True

def Json.NoInnerArray : Json → Prop
  | .array elements => ∀ element ∈ elements.toList, ¬ element.IsArray ∧ element.NoArrayMember
  | doc => doc.NoArrayMember

theorem Json.IsScalar.not_array {value : Json} (h : value.IsScalar) : ¬ value.IsArray := by
  cases value with
  | array elements => exact h.elim
  | _ => exact id

theorem Json.ScalarMembers.plain {value : Json} (h : value.ScalarMembers) :
    ¬ value.IsArray ∧ value.NoArrayMember := by
  cases value with
  | object members => exact ⟨id, fun v hv => (h v hv).not_array⟩
  | _ => exact h.elim

theorem Json.WellStructured.noInnerArray {doc : Json} (h : doc.WellStructured) :
    doc.NoInnerArray := by
  cases doc with
  | array elements => exact fun element he => (h element he).plain
  | object members =>
    have hm : (Json.object members).ScalarMembers := h
    exact hm.plain.2
  | _ => exact h.elim

theorem Elements.tokens_of_mem {elements : Elements} {value : Json} (h : value ∈ elements.toList)
    {t : Token} (ht : t ∈ value.tokens) : t ∈ elements.tokens := by
  match elements with
  | .nil => cases h
  | .cons first rest =>
    rw [Elements.tokens, List.mem_append]
    rcases List.mem_cons.mp h with rfl | h
    · exact .inl ht
    · exact .inr (Elements.tokens_of_mem h ht)

theorem Members.tokens_of_mem {members : Members} {value : Json} (h : value ∈ members.values)
    {t : Token} (ht : t ∈ value.tokens) : t ∈ members.tokens := by
  match members with
  | .nil => cases h
  | .cons key first rest =>
    rw [Members.tokens, List.mem_cons, List.mem_append]
    rcases List.mem_cons.mp h with rfl | h
    · exact .inr (.inl ht)
    · exact .inr (.inr (Members.tokens_of_mem h ht))

theorem Members.objects_of_mem {members : Members} {value : Json} (h : value ∈ members.values)
    (hflat : members.objects = []) : value.objects = [] := by
  match members with
  | .nil => cases h
  | .cons key first rest =>
    rw [Members.objects, List.append_eq_nil_iff] at hflat
    rcases List.mem_cons.mp h with rfl | h
    · exact hflat.1
    · exact Members.objects_of_mem h hflat.2

def NullFree (tokens : List Token) : Prop := Token.other .onNull ∉ tokens

namespace DataValidator

theorem writeSome_answers {calls : List HandlerCall} {st st' : ParsingState}
    (h : write calls st = .ok (true, st')) : ∀ call ∈ calls, call.answer = true := by
  induction calls generalizing st with
  | nil => simp
  | cons call calls ih =>
    simp only [write, JsonParser.writeSome] at h
    split at h
    · cases h
    · split at h
      · rename_i ha
        exact List.forall_mem_cons.mpr ⟨ha, ih h⟩
      · cases h

theorem outcome_answers {d : JsonParser.Delivery} {data : List Measurement}
    (h : outcome d = some data) : ∀ call ∈ d.calls, call.answer = true := by
  unfold outcome JsonParser.parse at h
  cases hw : write d.calls ParsingState.initial with
  | error e =>
    simp only [hw] at h
    cases h
  | ok p =>
    obtain ⟨completed, st⟩ := p
    cases completed with
    | true => exact writeSome_answers hw
    | false =>
      simp only [hw, JsonParser.errorCode] at h
      cases hec : d.ec <;> simp [hec] at h

theorem outcome_nullFree {doc : Json} {ec : Option Bytes} {n size : Nat} {data : List Measurement}
    (h : outcome ⟨doc.inPieces, ec, n, size⟩ = some data) : NullFree doc.tokens := by
  intro hnull
  have hcall : HandlerCall.onNull ∈ doc.inPieces := by
    refine List.mem_flatMap.mpr ⟨.other .onNull, ?_, by simp [Token.pieces]⟩
    simp [Json.document, hnull]
  exact absurd (outcome_answers h _ hcall) (by decide)

theorem not_scalar_outside {value : Json} (hs : value.IsScalar) {st st' : ParsingState}
    (ho : Outside st) : process st value.events ≠ .ok st' := by
  intro h
  have hvalue : ∃ s, value.events = [.onValue s] := by
    cases value with
    | null => exact hs.elim
    | array elements => exact hs.elim
    | object members => exact hs.elim
    | _ => exact ⟨_, rfl⟩
  obtain ⟨s, hevents⟩ := hvalue
  rw [hevents] at h
  obtain ⟨hne, hopen, -, -⟩ := onValue_ok (process_onValue h)
  rcases ho with hdone | hnil
  · exact absurd (hopen.symm.trans hdone) Bool.false_ne_true
  · exact hne hnil

theorem value_outside (value : Json) {st st' : ParsingState} (ho : Outside st)
    (h : process st value.events = .ok st') : Outside st' := by
  by_cases hv : value.objects = []
  · rw [(value_objects value ho h).1, hv] at h
    cases h
    exact ho
  · exact .inl (value_completes value h (.inr hv))

theorem elements_each {elements : Elements} {st st' : ParsingState} (ho : Outside st)
    (h : process st elements.events = .ok st') : ∀ value ∈ elements.toList,
      ∃ st₁ st₂, Outside st₁ ∧ process st₁ value.events = .ok st₂ := by
  match elements with
  | .nil => simp [Elements.toList]
  | .cons first rest =>
    rw [Elements.cons_events] at h
    obtain ⟨st₁, hfirst, hrest⟩ := process_append_ok _ h
    exact List.forall_mem_cons.mpr
      ⟨⟨st, st₁, ho, hfirst⟩, elements_each (value_outside first ho hfirst) hrest⟩

theorem object_scalarMembers {members : Members} {st st' : ParsingState}
    (h : process st (Json.object members).events = .ok st') (hnull : NullFree members.tokens)
    (harray : (Json.object members).NoArrayMember) : (Json.object members).ScalarMembers := by
  rw [Json.object_events] at h
  have hflat := object_is_flat h
  intro value hv
  have hobjects := Members.objects_of_mem hv hflat
  cases value with
  | null => exact hnull (Members.tokens_of_mem hv (by simp [Json.tokens]))
  | array elements => exact harray _ hv trivial
  | object inner => simp [Json.objects] at hobjects
  | _ => trivial

theorem value_scalarMembers {value : Json} {st st' : ParsingState} (ho : Outside st)
    (h : process st value.events = .ok st') (hnull : NullFree value.tokens)
    (harray : ¬ value.IsArray) (hmembers : value.NoArrayMember) : value.ScalarMembers := by
  cases value with
  | null => exact hnull (by simp [Json.tokens])
  | array elements => exact harray trivial
  | object members =>
    refine object_scalarMembers h ?_ hmembers
    exact fun hm => hnull (by simp [Json.tokens, hm])
  | _ => exact absurd h (not_scalar_outside (by trivial) ho)

theorem wellStructured_of_accepted {doc : Json} {st : ParsingState}
    (h : process ParsingState.initial doc.events = .ok st) (hnull : NullFree doc.tokens)
    (harray : doc.NoInnerArray) : doc.WellStructured := by
  have ho : Outside ParsingState.initial := .inr rfl
  cases doc with
  | array elements =>
    rw [Json.array_events] at h
    intro element he
    obtain ⟨st₁, st₂, ho₁, hp⟩ := elements_each ho h element he
    refine value_scalarMembers ho₁ hp ?_ (harray element he).1 (harray element he).2
    exact fun hm => hnull (by simp [Json.tokens, Elements.tokens_of_mem he hm])
  | object members => exact value_scalarMembers ho h hnull id harray
  | null => exact value_scalarMembers ho h hnull id trivial
  | _ => exact absurd h (not_scalar_outside (by trivial) ho)

theorem accepted_structure_iff {doc : Json} {ec : Option Bytes} {n size : Nat}
    {data : List Measurement} (h : outcome ⟨doc.inPieces, ec, n, size⟩ = some data) :
    doc.WellStructured ↔ doc.NoInnerArray := by
  obtain ⟨st, hst, -⟩ := outcome_process h
  exact ⟨Json.WellStructured.noInnerArray,
    wellStructured_of_accepted hst (outcome_nullFree h)⟩

def arrayValue : Json :=
  .object (member "NAME" "a" (member "TYPE" "LONG" (.cons (Cut.uncut (ascii "VALUE"))
    (.array (.cons (.int64 5 (ascii "5")) .nil)) .nil)))

theorem accepted_structure_iff_object :
    (Json.array (.cons (valueContext (Cut.uncut (ascii "a"))) .nil)).WellStructured ↔
      (Json.array (.cons (valueContext (Cut.uncut (ascii "a"))) .nil)).NoInnerArray :=
  @accepted_structure_iff _ none 0 0 [⟨ascii "a", .string, [], .string (ascii "a")⟩] rfl

theorem array_inside_accepted :
    arrayValue.depth ≤ 2 ∧ ¬ arrayValue.WellStructured ∧
      outcome ⟨arrayValue.inPieces, none, 0, 0⟩ = some [⟨ascii "a", .long, [], .int64 5⟩] := by
  refine ⟨by decide, ?_, rfl⟩
  intro h
  exact h (.array (.cons (.int64 5 (ascii "5")) .nil)) (.tail _ (.tail _ (.head _)))

end DataValidator

end QdsBuffer.Parsing
