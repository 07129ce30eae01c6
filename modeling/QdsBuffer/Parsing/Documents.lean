import QdsBuffer.Parsing.Objects
import QdsBuffer.Parsing.Pieces

namespace QdsBuffer.Parsing
open Bytes

mutual

def Json.objects : Json → List Members
  | .array elements => elements.objects
  | .object members => members :: members.objects
  | _ => []

def Elements.objects : Elements → List Members
  | .nil => []
  | .cons value elements => value.objects ++ elements.objects

def Members.objects : Members → List Members
  | .nil => []
  | .cons _ value members => value.objects ++ members.objects

end

def eventsOf (tokens : List Token) : List Event :=
  (tokens.map Token.final).filterMap HandlerCall.event

def Json.events (value : Json) : List Event := eventsOf value.tokens

def Elements.events (elements : Elements) : List Event := eventsOf elements.tokens

def Members.events (members : Members) : List Event := eventsOf members.tokens

theorem eventsOf_append (ts us : List Token) : eventsOf (ts ++ us) = eventsOf ts ++ eventsOf us := by
  simp [eventsOf]

theorem eventsOf_silent {call : HandlerCall} (h : call.event = none) (ts : List Token) :
    eventsOf (.other call :: ts) = eventsOf ts := by
  simp [eventsOf, Token.final, h]

theorem Json.array_events (elements : Elements) : (Json.array elements).events = elements.events := by
  rw [Json.events, Json.tokens, eventsOf_silent rfl, eventsOf_append, eventsOf_silent rfl]
  exact List.append_nil _

theorem Json.object_events (members : Members) :
    (Json.object members).events = segment members.events := by
  rw [Json.events, Json.tokens]
  change Event.onObjectBegin :: eventsOf (members.tokens ++ _) = _
  rw [eventsOf_append]
  rfl

theorem Elements.cons_events (value : Json) (elements : Elements) :
    (Elements.cons value elements).events = value.events ++ elements.events := by
  rw [Elements.events, Elements.tokens, eventsOf_append]
  rfl

theorem Members.cons_events (key : Cut) (value : Json) (members : Members) :
    (Members.cons key value members).events = .onKey key.last :: (value.events ++ members.events) := by
  rw [Members.events, Members.tokens]
  change Event.onKey key.last :: eventsOf (value.tokens ++ members.tokens) = _
  rw [eventsOf_append]
  rfl

theorem document_events (doc : Json) : eventsOf doc.document = doc.events := by
  rw [Json.document, eventsOf_silent rfl, eventsOf_append, eventsOf_silent rfl]
  exact List.append_nil _

def Json.Leaf : Json → Prop
  | .array _ => False
  | .object _ => False
  | _ => True

theorem Json.leaf_objects {value : Json} (h : value.Leaf) : value.objects = [] := by
  cases value with
  | array elements => exact h.elim
  | object members => exact h.elim
  | _ => rfl

theorem Json.leaf_events {value : Json} (h : value.Leaf) :
    value.events = [] ∨ ∃ s, value.events = [.onValue s] := by
  cases value with
  | array elements => exact h.elim
  | object members => exact h.elim
  | null => exact .inl rfl
  | _ => exact .inr ⟨_, rfl⟩

theorem Json.leaf_content {value : Json} (h : value.Leaf) : ∀ e ∈ value.events, IsContent e := by
  rcases Json.leaf_events h with he | ⟨s, he⟩
  · simp [he]
  · simp [he, IsContent]

mutual

theorem Json.events_content (value : Json) (h : value.objects = []) :
    ∀ e ∈ value.events, IsContent e := by
  cases value with
  | array elements =>
    rw [Json.array_events]
    exact elements.events_content h
  | object members => simp [Json.objects] at h
  | _ => exact Json.leaf_content trivial

theorem Elements.events_content (elements : Elements) (h : elements.objects = []) :
    ∀ e ∈ elements.events, IsContent e := by
  cases elements with
  | nil => simp [Elements.events, Elements.tokens, eventsOf]
  | cons value elements =>
    rw [Elements.objects, List.append_eq_nil_iff] at h
    rw [Elements.cons_events]
    exact List.forall_mem_append.mpr
      ⟨value.events_content h.1, elements.events_content h.2⟩

theorem Members.events_content (members : Members) (h : members.objects = []) :
    ∀ e ∈ members.events, IsContent e := by
  cases members with
  | nil => simp [Members.events, Members.tokens, eventsOf]
  | cons key value members =>
    rw [Members.objects, List.append_eq_nil_iff] at h
    rw [Members.cons_events]
    exact List.forall_mem_cons.mpr ⟨trivial, List.forall_mem_append.mpr
      ⟨value.events_content h.1, members.events_content h.2⟩⟩

end

theorem Members.opens (members : Members) (h : members.objects = []) : Opens members.events := by
  refine ⟨members.events_content h, ?_⟩
  intro scalar
  cases members with
  | nil => simp [Members.events, Members.tokens, eventsOf]
  | cons key value members => simp [Members.cons_events]

namespace DataValidator

theorem process_append_ok (as : List Event) {bs : List Event} {st st' : ParsingState}
    (h : process st (as ++ bs) = .ok st') :
    ∃ st₁, process st as = .ok st₁ ∧ process st₁ bs = .ok st' := by
  rw [process_append] at h
  exact bind_ok h

theorem process_segment_ok {st st' : ParsingState} {content : List Event}
    (h : process st (segment content) = .ok st') :
    st'.currentElementCompleted = true ∧ ∃ st₁ st₂, process st₁ content = .ok st₂ ∧
      st₂.currentElementCompleted = false := by
  obtain ⟨st₁, -, h₁⟩ := process_append_ok [.onObjectBegin] h
  obtain ⟨st₂, hcontent, h₂⟩ := process_append_ok _ h₁
  have hend : onObjectEnd st₂ = .ok st' := by
    simpa [process, parserCallback, dispatch] using h₂
  obtain ⟨-, -, -, hopen, -, -, hdone⟩ := onObjectEnd_ok hend
  exact ⟨hdone, st₁, st₂, hcontent, hopen⟩

theorem process_onValue {st st' : ParsingState} {s : Scalar}
    (h : process st [.onValue s] = .ok st') : onValue st s = .ok st' := by
  simpa [process, parserCallback, dispatch] using h

theorem process_onKey {st st' : ParsingState} {key : Bytes} {events : List Event}
    (h : process st (.onKey key :: events) = .ok st') :
    ∃ st₁, onKey st key = .ok st₁ ∧ process st₁ events = .ok st' := by
  obtain ⟨st₁, hkey, hrest⟩ := process_append_ok [.onKey key] h
  exact ⟨st₁, by simpa [process, parserCallback, dispatch] using hkey, hrest⟩

theorem leaf_completes {value : Json} (hl : value.Leaf) {st st' : ParsingState}
    (h : process st value.events = .ok st')
    (hc : st.currentElementCompleted = true ∨ value.objects ≠ []) :
    st'.currentElementCompleted = true := by
  have hdone := hc.resolve_right (not_not_intro (Json.leaf_objects hl))
  rcases Json.leaf_events hl with he | ⟨s, he⟩
  · rw [he] at h
    cases h
    exact hdone
  · rw [he] at h
    obtain ⟨-, hopen, -, -⟩ := onValue_ok (process_onValue h)
    exact absurd (hopen.symm.trans hdone) Bool.false_ne_true

mutual

theorem value_completes (value : Json) {st st' : ParsingState}
    (h : process st value.events = .ok st')
    (hc : st.currentElementCompleted = true ∨ value.objects ≠ []) :
    st'.currentElementCompleted = true := by
  cases value with
  | array elements =>
    rw [Json.array_events] at h
    exact elements_complete elements h hc
  | object members =>
    rw [Json.object_events] at h
    exact (process_segment_ok h).1
  | _ => exact leaf_completes (by trivial) h hc

theorem elements_complete (elements : Elements) {st st' : ParsingState}
    (h : process st elements.events = .ok st')
    (hc : st.currentElementCompleted = true ∨ elements.objects ≠ []) :
    st'.currentElementCompleted = true := by
  cases elements with
  | nil =>
    cases h
    exact hc.resolve_right (not_not_intro rfl)
  | cons value elements =>
    rw [Elements.cons_events] at h
    obtain ⟨st₁, hvalue, hrest⟩ := process_append_ok _ h
    by_cases hv : st.currentElementCompleted = true ∨ value.objects ≠ []
    · exact elements_complete elements hrest (.inl (value_completes value hvalue hv))
    · rw [not_or, not_not] at hv
      refine elements_complete elements hrest (.inr ?_)
      simpa [Elements.objects, hv.1, hv.2] using hc

theorem members_complete (members : Members) {st st' : ParsingState}
    (h : process st members.events = .ok st')
    (hc : st.currentElementCompleted = true ∨ members.objects ≠ []) :
    st'.currentElementCompleted = true := by
  cases members with
  | nil =>
    cases h
    exact hc.resolve_right (not_not_intro rfl)
  | cons key value members =>
    rw [Members.cons_events] at h
    obtain ⟨st₀, hkey, hrest⟩ := process_onKey h
    obtain ⟨-, hopen, -, -⟩ := onKey_ok hkey
    obtain ⟨st₁, hvalue, hrest⟩ := process_append_ok _ hrest
    by_cases hv : value.objects = []
    · refine members_complete members hrest (.inr ?_)
      simpa [Members.objects, hopen, hv] using hc
    · exact members_complete members hrest (.inl (value_completes value hvalue (.inr hv)))

end

theorem object_is_flat {members : Members} {st st' : ParsingState}
    (h : process st (segment members.events) = .ok st') : members.objects = [] := by
  obtain ⟨-, st₁, st₂, hmembers, hopen⟩ := process_segment_ok h
  by_contra hne
  exact Bool.false_ne_true (hopen.symm.trans (members_complete members hmembers (.inr hne)))

def Outside (st : ParsingState) : Prop := st.currentElementCompleted = true ∨ st.data = []

theorem leaf_outside {value : Json} (hl : value.Leaf) {st st' : ParsingState} (ho : Outside st)
    (h : process st value.events = .ok st') :
    value.events = (value.objects.map Members.events).flatMap segment ∧
      ∀ o ∈ value.objects, o.objects = [] := by
  rw [Json.leaf_objects hl]
  rcases Json.leaf_events hl with he | ⟨s, he⟩
  · exact ⟨he, by simp⟩
  · rw [he] at h
    obtain ⟨hne, hopen, -, -⟩ := onValue_ok (process_onValue h)
    rcases ho with hdone | hnil
    · exact absurd (hopen.symm.trans hdone) Bool.false_ne_true
    · exact absurd hnil hne

mutual

theorem value_objects (value : Json) {st st' : ParsingState} (ho : Outside st)
    (h : process st value.events = .ok st') :
    value.events = (value.objects.map Members.events).flatMap segment ∧
      ∀ o ∈ value.objects, o.objects = [] := by
  cases value with
  | array elements =>
    rw [Json.array_events] at h ⊢
    exact elements_objects elements ho h
  | object members =>
    rw [Json.object_events] at h ⊢
    have hflat := object_is_flat h
    simp [Json.objects, hflat]
  | _ => exact leaf_outside trivial ho h

theorem elements_objects (elements : Elements) {st st' : ParsingState} (ho : Outside st)
    (h : process st elements.events = .ok st') :
    elements.events = (elements.objects.map Members.events).flatMap segment ∧
      ∀ o ∈ elements.objects, o.objects = [] := by
  cases elements with
  | nil => exact ⟨rfl, by simp [Elements.objects]⟩
  | cons value elements =>
    rw [Elements.cons_events] at h ⊢
    obtain ⟨st₁, hvalue, hrest⟩ := process_append_ok _ h
    obtain ⟨heq, hflat⟩ := value_objects value ho hvalue
    have ho₁ : Outside st₁ := by
      by_cases hv : value.objects = []
      · rw [heq, hv] at hvalue
        cases hvalue
        exact ho
      · exact .inl (value_completes value hvalue (.inr hv))
    obtain ⟨heq', hflat'⟩ := elements_objects elements ho₁ hrest
    refine ⟨?_, List.forall_mem_append.mpr ⟨hflat, hflat'⟩⟩
    rw [heq, heq', Elements.objects, List.map_append, List.flatMap_append]

end

theorem outcome_events {d : JsonParser.Delivery} {data : List Measurement}
    (h : outcome d = some data) :
    ∃ st, process ParsingState.initial (d.calls.filterMap HandlerCall.event) = .ok st ∧
      st.data = data := by
  unfold outcome at h
  split at h
  · rename_i message st hp
    exact ⟨st, JsonParser.parse_process hp, Option.some.inj h⟩
  · cases h

theorem outcome_of_events {calls : List HandlerCall} (ha : ∀ call ∈ calls, call.answer = true)
    {st : ParsingState}
    (h : process ParsingState.initial (calls.filterMap HandlerCall.event) = .ok st) (size : Nat) :
    outcome ⟨calls, none, size, size⟩ = some st.data := by
  have hec : JsonParser.errorCode ⟨calls, none, size, size⟩ true = none := by
    simp [JsonParser.errorCode]
  unfold outcome JsonParser.parse
  simp only [JsonParser.process_writeSome ha h, hec]

theorem outcome_process {doc : Json} {ec : Option Bytes} {n size : Nat} {data : List Measurement}
    (h : outcome ⟨doc.inPieces, ec, n, size⟩ = some data) :
    ∃ st, process ParsingState.initial doc.events = .ok st ∧ st.data = data := by
  have hfinal : (write doc.inPieces ParsingState.initial).toOption =
      (write (doc.document.map Token.final) ParsingState.initial).toOption := by
    rw [Json.inPieces, write_pieces]
  rw [outcome_congr hfinal] at h
  rw [← document_events]
  exact outcome_events h

theorem document_arranged {doc : Json} {ec : Option Bytes} {n size : Nat} {data : List Measurement}
    (h : outcome ⟨doc.inPieces, ec, n, size⟩ = some data) :
    (∀ o ∈ doc.objects, Opens o.events) ∧
      ∃ ms, List.Forall₂ (fun o m => Yields o.events m) doc.objects ms ∧ data = arranged ms := by
  obtain ⟨st, hst, rfl⟩ := outcome_process h
  obtain ⟨heq, hflat⟩ := value_objects doc (.inr rfl) hst
  have hopens : ∀ o ∈ doc.objects, Opens o.events := fun o ho => o.opens (hflat o ho)
  refine ⟨hopens, ?_⟩
  rw [heq] at hst
  obtain ⟨ms, hms, hdata⟩ := data_arranged (List.forall_mem_map.mpr hopens) hst
  exact ⟨ms, List.forall₂_map_left_iff.mp hms, hdata⟩

end DataValidator

end QdsBuffer.Parsing
