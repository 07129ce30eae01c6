import QdsBuffer.Parsing.Accepted
import Mathlib.Data.List.Forall2

namespace QdsBuffer.Parsing
open Bytes

structure Member where
  key : Bytes
  value : Scalar

def Member.events (m : Member) : List Event := [.onKey m.key, .onValue m.value]

def segment (content : List Event) : List Event := .onObjectBegin :: (content ++ [.onObjectEnd])

def objectEvents (o : List Member) : List Event := segment (o.flatMap Member.events)

def IsContent : Event → Prop
  | .onKey _ => True
  | .onValue _ => True
  | _ => False

structure Opens (content : List Event) : Prop where
  all : ∀ e ∈ content, IsContent e
  opens : ∀ scalar, content.head? ≠ some (.onValue scalar)

def arranged (ms : List Measurement) : List Measurement :=
  (ms.filter (fun m => m.type = .timestamp)).reverse ++ ms.filter (fun m => m.type ≠ .timestamp)

namespace DataValidator

-- What the validator keeps of an object that is open: the measurement at the back and two flags.
structure Cursor where
  data : Measurement
  validator : Option Validator
  hasKey : Bool

def Cursor.inside (front : List Measurement) (c : Cursor) : ParsingState :=
  ⟨front ++ [c.data], c.validator, c.hasKey, false⟩

def Cursor.closed (front : List Measurement) (c : Cursor) : ParsingState :=
  ⟨placed front c.data, c.validator, c.hasKey, true⟩

def read (c : Cursor) : Event → Except Exception Cursor
  | .onKey key =>
    match buildParseValidation.find? (fun entry => strncmpEq entry.1 key) with
    | some entry => .ok { c with hasKey := true, validator := some entry.2 }
    | none =>
      .error (parsingException (ascii "Invalid key '" ++ key ++ ascii "'") "DataValidator::OnKey")
  | .onValue scalar =>
    if !c.hasKey then
      .error (parsingException (ascii "Missing key for value '" ++ scalar.valueAsString ++ ascii "'")
        "DataValidator::OnValue")
    else (applyValidator c.validator scalar c.data).map (⟨·, none, false⟩)
  | _ => .ok c

def readContent (c : Cursor) (content : List Event) : Except Exception Cursor := content.foldlM read c

def close (c : Cursor) : Except Exception Cursor := (checkMeasurement c.data).map (fun _ => c)

def readObject (content : List Event) : Except Exception Cursor :=
  (readContent ⟨Measurement.fresh, none, false⟩ content).bind close

def Yields (content : List Event) (m : Measurement) : Prop :=
  ∃ st, process ParsingState.initial (segment content) = .ok st ∧ st.data = [m]

theorem process_append (st : ParsingState) (as bs : List Event) :
    process st (as ++ bs) = (process st as).bind (process · bs) := List.foldlM_append

theorem read_inside (front : List Measurement) (c : Cursor) {e : Event} (he : IsContent e) :
    parserCallback (some (c.inside front)) e = (read c e).map (Cursor.inside front) := by
  cases e with
  | onObjectBegin => exact he.elim
  | onObjectEnd => exact he.elim
  | onKey key =>
    simp only [parserCallback, dispatch, onKey, read, Cursor.inside]
    cases buildParseValidation.find? (fun entry => strncmpEq entry.1 key) with
    | none => simp [Except.map]
    | some entry => simp [Except.map, Cursor.inside]
  | onValue scalar =>
    simp only [parserCallback, dispatch, onValue, read, Cursor.inside, List.getLast?_concat,
      List.dropLast_concat]
    cases c.hasKey with
    | false => rfl
    | true => cases applyValidator c.validator scalar c.data <;> rfl

theorem readContent_inside (front : List Measurement) {content : List Event} (c : Cursor)
    (h : ∀ e ∈ content, IsContent e) :
    process (c.inside front) content = (readContent c content).map (Cursor.inside front) := by
  induction content generalizing c with
  | nil => rfl
  | cons e content ih =>
    rw [process_cons, read_inside front c (h e List.mem_cons_self), readContent, List.foldlM_cons]
    cases read c e with
    | error err => rfl
    | ok c' => exact ih c' (fun x hx => h x (List.mem_cons_of_mem e hx))

theorem close_inside (front : List Measurement) (c : Cursor) :
    process (c.inside front) [.onObjectEnd] = (close c).map (Cursor.closed front) := by
  rw [process_cons]
  simp only [parserCallback, dispatch, onObjectEnd, Cursor.inside, List.getLast?_concat,
    List.dropLast_concat, close]
  cases checkMeasurement c.data <;> rfl

theorem readContent_opens {content : List Event} (h : Opens content) (v : Option Validator)
    (k : Bool) :
    (readContent ⟨Measurement.fresh, v, k⟩ content).bind close = readObject content := by
  cases content with
  | nil => rfl
  | cons e content =>
    cases e with
    | onKey key =>
      simp only [readObject, readContent, List.foldlM_cons, read]
    | onValue scalar => exact absurd rfl (h.opens scalar)
    | onObjectBegin => exact (h.all _ List.mem_cons_self).elim
    | onObjectEnd => exact (h.all _ List.mem_cons_self).elim

theorem process_segment {content : List Event} (h : Opens content) (st : ParsingState) :
    process st (segment content) = (readObject content).map (Cursor.closed st.data) := by
  have hbegin : parserCallback (some st) .onObjectBegin =
      .ok (Cursor.inside st.data ⟨Measurement.fresh, st.validator, st.hasKey⟩) := rfl
  rw [segment, process_cons, hbegin, ← readContent_opens h st.validator st.hasKey]
  change process _ (content ++ [.onObjectEnd]) = _
  rw [process_append, readContent_inside st.data _ h.all]
  cases readContent ⟨Measurement.fresh, st.validator, st.hasKey⟩ content with
  | error e => rfl
  | ok c => exact close_inside st.data c

theorem yields_iff {content : List Event} (h : Opens content) {m : Measurement} :
    Yields content m ↔ ∃ c, readObject content = .ok c ∧ c.data = m := by
  have hplaced : ∀ d, placed [] d = [d] := fun d => by simp [placed]
  rw [Yields, process_segment h]
  cases readObject content with
  | error e => simp [Except.map]
  | ok c => simp [Except.map, Cursor.closed, ParsingState.initial, hplaced]

theorem yields_of_accepted {content : List Event} (h : Opens content) {st : ParsingState}
    (hp : process ParsingState.initial (segment content) = .ok st) : ∃ m, Yields content m := by
  rw [process_segment h] at hp
  obtain ⟨c, hr, -⟩ := map_eq_ok hp
  exact ⟨c.data, (yields_iff h).mpr ⟨c, hr, rfl⟩⟩

theorem process_segments {contents : List (List Event)} (h : ∀ c ∈ contents, Opens c)
    {st st' : ParsingState} (hp : process st (contents.flatMap segment) = .ok st') :
    ∃ ms, List.Forall₂ Yields contents ms ∧ st'.data = ms.foldl placed st.data := by
  induction contents generalizing st with
  | nil =>
    cases hp
    exact ⟨[], .nil, rfl⟩
  | cons content contents ih =>
    have ho := h content List.mem_cons_self
    rw [List.flatMap_cons, process_append, process_segment ho] at hp
    obtain ⟨st₁, hfirst, hrest⟩ := bind_ok hp
    obtain ⟨c, hr, rfl⟩ := map_eq_ok hfirst
    obtain ⟨ms, hms, hdata⟩ := ih (fun c hc => h c (List.mem_cons_of_mem _ hc)) hrest
    exact ⟨c.data :: ms, .cons ((yields_iff ho).mpr ⟨c, hr, rfl⟩) hms, hdata⟩

theorem process_segments_accepted {contents : List (List Event)} (h : ∀ c ∈ contents, Opens c)
    {ms : List Measurement} (hms : List.Forall₂ Yields contents ms) (st : ParsingState) :
    ∃ st', process st (contents.flatMap segment) = .ok st' := by
  induction hms generalizing st with
  | nil => exact ⟨st, rfl⟩
  | @cons content m contents ms hy _ ih =>
    have ho := h content List.mem_cons_self
    obtain ⟨c, hr, -⟩ := (yields_iff ho).mp hy
    rw [List.flatMap_cons, process_append, process_segment ho, hr]
    exact ih (fun c hc => h c (List.mem_cons_of_mem _ hc)) (c.closed st.data)

theorem foldl_placed (ms init : List Measurement) :
    ms.foldl placed init = (ms.filter (fun m => m.type = .timestamp)).reverse ++ init ++
      ms.filter (fun m => m.type ≠ .timestamp) := by
  induction ms generalizing init with
  | nil => simp
  | cons m ms ih =>
    rw [List.foldl_cons, ih]
    by_cases hm : m.type = .timestamp
    · simp [placed, hm]
    · simp [placed, hm]

theorem data_arranged {contents : List (List Event)} (h : ∀ c ∈ contents, Opens c)
    {st : ParsingState} (hp : process ParsingState.initial (contents.flatMap segment) = .ok st) :
    ∃ ms, List.Forall₂ Yields contents ms ∧ st.data = arranged ms := by
  obtain ⟨ms, hms, hdata⟩ := process_segments h hp
  exact ⟨ms, hms, by rw [hdata, foldl_placed, arranged]; simp [ParsingState.initial]⟩

theorem forall₂_of_each {α β : Type} {R : α → β → Prop} {as : List α} (h : ∀ a ∈ as, ∃ b, R a b) :
    ∃ bs, List.Forall₂ R as bs := by
  induction as with
  | nil => exact ⟨[], .nil⟩
  | cons a as ih =>
    obtain ⟨b, hb⟩ := h a List.mem_cons_self
    obtain ⟨bs, hbs⟩ := ih (fun x hx => h x (List.mem_cons_of_mem a hx))
    exact ⟨b :: bs, .cons hb hbs⟩

theorem each_of_forall₂ {α β : Type} {R : α → β → Prop} {as : List α} {bs : List β}
    (h : List.Forall₂ R as bs) : ∀ a ∈ as, ∃ b, R a b := by
  induction h with
  | nil => simp
  | cons hr _ ih => exact List.forall_mem_cons.mpr ⟨⟨_, hr⟩, ih⟩

theorem members_opens (o : List Member) : Opens (o.flatMap Member.events) := by
  constructor
  · intro e he
    obtain ⟨m, -, hm⟩ := List.mem_flatMap.mp he
    simp only [Member.events, List.mem_cons, List.not_mem_nil, or_false] at hm
    rcases hm with rfl | rfl <;> trivial
  · intro scalar
    cases o with
    | nil => simp
    | cons m o => simp [Member.events]

theorem array_parsed_objectwise (os : List (List Member)) :
    ((∃ st, process ParsingState.initial (os.flatMap objectEvents) = .ok st) ↔
      ∀ o ∈ os, ∃ st, process ParsingState.initial (objectEvents o) = .ok st) ∧
    ∀ st, process ParsingState.initial (os.flatMap objectEvents) = .ok st →
      ∃ ms, List.Forall₂ (fun o m => ∃ st', process ParsingState.initial (objectEvents o) = .ok st' ∧
        st'.data = [m]) os ms ∧ st.data = arranged ms := by
  have hmap : os.flatMap objectEvents =
      (os.map (fun o => o.flatMap Member.events)).flatMap segment := by
    rw [List.flatMap_map]
    rfl
  have hopens : ∀ c ∈ os.map (fun o => o.flatMap Member.events), Opens c := by
    intro c hc
    obtain ⟨o, -, rfl⟩ := List.mem_map.mp hc
    exact members_opens o
  have hdata : ∀ st, process ParsingState.initial (os.flatMap objectEvents) = .ok st →
      ∃ ms, List.Forall₂ (fun o m => Yields (o.flatMap Member.events) m) os ms ∧
        st.data = arranged ms := by
    intro st hst
    rw [hmap] at hst
    obtain ⟨ms, hms, hst'⟩ := data_arranged hopens hst
    exact ⟨ms, List.forall₂_map_left_iff.mp hms, hst'⟩
  refine ⟨⟨?_, ?_⟩, hdata⟩
  · rintro ⟨st, hst⟩ o ho
    obtain ⟨ms, hms, -⟩ := hdata st hst
    obtain ⟨m, st', hst', -⟩ := each_of_forall₂ hms o ho
    exact ⟨st', hst'⟩
  · intro hall
    obtain ⟨ms, hms⟩ := forall₂_of_each (fun o ho => yields_of_accepted (members_opens o)
      (hall o ho).choose_spec)
    rw [hmap]
    exact process_segments_accepted hopens (List.forall₂_map_left_iff.mpr hms) ParsingState.initial

end DataValidator

end QdsBuffer.Parsing
