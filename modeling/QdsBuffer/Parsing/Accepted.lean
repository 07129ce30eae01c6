import QdsBuffer.Parsing.DataValidator

namespace QdsBuffer.Parsing
open Bytes

def nest : Nat → Event → Option Nat
  | n, .onObjectBegin => some (n + 1)
  | 0, .onObjectEnd => none
  | n + 1, .onObjectEnd => some n
  | n, _ => some n

def Balanced (events : List Event) : Prop := events.foldlM nest 0 = some 0

instance (events : List Event) : Decidable (Balanced events) := inferInstanceAs (Decidable (_ = _))

namespace DataValidator

def process (state : ParsingState) (events : List Event) : Except Exception ParsingState :=
  events.foldlM (fun state e => parserCallback (some state) e) state

def ValueMatches : MeasurementType → Value → Prop
  | .string, .string _ => True
  | .integer, .int64 _ => True
  | .long, .int64 _ => True
  | .float, .double _ => True
  | .double, .double _ => True
  | .bool, .bool _ => True
  | .word, .string value => value.length = 4 ∧ ∀ b ∈ value, isHexDigit b = true
  | .timestamp, .string value => isTimestamp value = true
  | .ref, .string _ => True
  | .foreignKey, .string _ => True
  | _, _ => False

structure Valid (d : Measurement) : Prop where
  name : d.name ≠ []
  type : d.type ≠ .notSet
  value : ValueMatches d.type d.value

-- What the events so far can have made of the state while n objects are open. An object in an
-- object is never accepted: after its end every event but another begin is refused.
inductive Shape : Nat → ParsingState → Prop
  | outside {st : ParsingState} : (∀ d ∈ st.data, Valid d) →
      st.currentElementCompleted = true ∨ st.data = [] → Shape 0 st
  | inside {st : ParsingState} : (∀ d ∈ st.data.dropLast, Valid d) → Shape 1 st
  | nested {n : Nat} {st : ParsingState} : 2 ≤ n → Shape n st
  | closed {n : Nat} {st : ParsingState} : 1 ≤ n → st.currentElementCompleted = true → Shape n st

theorem bind_ok {α β : Type} {x : Except Exception α} {f : α → Except Exception β} {b : β}
    (h : x.bind f = .ok b) : ∃ a, x = .ok a ∧ f a = .ok b := by
  cases x with
  | error e => cases h
  | ok a => exact ⟨a, rfl, h⟩

theorem map_eq_ok {α β : Type} {x : Except Exception α} {f : α → β} {b : β}
    (h : x.map f = .ok b) : ∃ a, x = .ok a ∧ f a = b := by
  cases x with
  | error e => cases h
  | ok a => exact ⟨a, rfl, Except.ok.inj h⟩

theorem process_cons (st : ParsingState) (e : Event) (events : List Event) :
    process st (e :: events) = (parserCallback (some st) e).bind (process · events) := rfl

theorem checkValue_ok {d : Measurement} (h : checkValue d = .ok ()) :
    ValueMatches d.type d.value := by
  unfold checkValue at h
  cases ht : d.type <;> cases hv : d.value <;> simp only [ht, hv] at h <;> try exact trivial
  all_goals try cases h
  · split at h
    · cases h
    · rename_i hn
      simpa [ValueMatches] using hn
  · split at h
    · cases h
    · rename_i hn
      simpa [ValueMatches] using hn

theorem checkMeasurement_ok {d : Measurement} (h : checkMeasurement d = .ok ()) : Valid d := by
  unfold checkMeasurement at h
  split at h
  · cases h
  · rename_i hname
    split at h
    · cases h
    · rename_i htype
      split at h
      · cases h
      · exact ⟨by simpa using hname, htype, checkValue_ok h⟩

theorem onObjectEnd_ok {st st' : ParsingState} (h : onObjectEnd st = .ok st') :
    ∃ front back, st.data = front ++ [back] ∧ st.currentElementCompleted = false ∧
      checkMeasurement back = .ok () ∧ st'.data = placed front back ∧
      st'.currentElementCompleted = true := by
  unfold onObjectEnd at h
  split at h
  · rename_i back hl hc
    split at h
    · cases h
    · rename_i hk
      cases h
      obtain ⟨front, hf⟩ := List.getLast?_eq_some_iff.mp hl
      exact ⟨front, back, hf, hc, hk, by simp [hf], rfl⟩
  · cases h

theorem onKey_ok {st st' : ParsingState} {value : Bytes} (h : onKey st value = .ok st') :
    st.data ≠ [] ∧ st.currentElementCompleted = false ∧ st'.data = st.data ∧
      st'.currentElementCompleted = false := by
  unfold onKey at h
  split at h
  · cases h
  · rename_i hn
    simp only [Bool.or_eq_true, List.isEmpty_iff, not_or, Bool.not_eq_true] at hn
    split at h
    · cases h
      exact ⟨hn.1, hn.2, rfl, hn.2⟩
    · cases h

theorem onValue_ok {st st' : ParsingState} {scalar : Scalar} (h : onValue st scalar = .ok st') :
    st.data ≠ [] ∧ st.currentElementCompleted = false ∧ st'.data.dropLast = st.data.dropLast ∧
      st'.currentElementCompleted = false := by
  unfold onValue at h
  split at h
  · rename_i back hl hc
    have hne : st.data ≠ [] := by
      intro hnil
      simp [hnil] at hl
    split at h
    · cases h
    · split at h
      · cases h
      · cases h
        exact ⟨hne, hc, by simp, hc⟩
  · cases h

theorem Shape.objectEnd {n : Nat} {st st' : ParsingState} (hs : Shape (n + 1) st)
    (h : onObjectEnd st = .ok st') : Shape n st' := by
  obtain ⟨front, back, hdata, hopen, hcheck, hdata', hdone⟩ := onObjectEnd_ok h
  cases hs with
  | inside hv =>
    refine .outside ?_ (.inl hdone)
    have hback := checkMeasurement_ok hcheck
    simp only [hdata, List.dropLast_concat] at hv
    rw [hdata']
    intro d hd
    have hm : d ∈ front ∨ d = back := by
      unfold placed at hd
      split at hd
      · simpa [or_comm] using hd
      · simpa using hd
    rcases hm with hf | rfl
    · exact hv d hf
    · exact hback
  | nested hn => exact .closed (by omega) hdone
  | closed hn hc =>
    rw [hopen] at hc
    cases hc

theorem Shape.content {n : Nat} {st st' : ParsingState} (hs : Shape n st) (hne : st.data ≠ [])
    (hopen : st.currentElementCompleted = false)
    (hfront : st'.data.dropLast = st.data.dropLast) : Shape n st' := by
  cases hs with
  | outside _ hc =>
    rcases hc with hc | hc
    · rw [hopen] at hc
      cases hc
    · exact absurd hc hne
  | inside hv => exact .inside (by rwa [hfront])
  | nested hn => exact .nested hn
  | closed hn hc =>
    rw [hopen] at hc
    cases hc

theorem Shape.step {n m : Nat} {st st' : ParsingState} {e : Event} (hs : Shape n st)
    (hn : nest n e = some m) (h : parserCallback (some st) e = .ok st') : Shape m st' := by
  cases e with
  | onObjectBegin =>
    cases hn
    cases h
    cases hs with
    | outside hv _ => exact .inside (by simpa using hv)
    | inside => exact .nested (by omega)
    | nested hn => exact .nested (by omega)
    | closed hn _ => exact .nested (by omega)
  | onObjectEnd =>
    cases n with
    | zero => cases hn
    | succ n =>
      cases hn
      exact hs.objectEnd h
  | onKey value =>
    obtain ⟨hne, hopen, hdata, -⟩ := onKey_ok h
    have hm : m = n := by cases n <;> exact (Option.some.inj hn).symm
    exact hm ▸ hs.content hne hopen (congrArg List.dropLast hdata)
  | onValue scalar =>
    obtain ⟨hne, hopen, hdata, -⟩ := onValue_ok h
    have hm : m = n := by cases n <;> exact (Option.some.inj hn).symm
    exact hm ▸ hs.content hne hopen hdata

theorem Shape.process {n m : Nat} {st st' : ParsingState} {events : List Event} (hs : Shape n st)
    (hn : events.foldlM nest n = some m) (h : process st events = .ok st') : Shape m st' := by
  induction events generalizing n st with
  | nil =>
    cases hn
    cases h
    exact hs
  | cons e events ih =>
    cases hk : nest n e with
    | none => simp [List.foldlM_cons, hk] at hn
    | some k =>
      rw [process_cons] at h
      obtain ⟨st₁, hp, hrest⟩ := bind_ok h
      simp only [List.foldlM_cons, hk, Option.bind_eq_bind, Option.bind_some] at hn
      exact ih (hs.step hk hp) hn hrest

theorem accepted_valid {events : List Event} {st : ParsingState} (hb : Balanced events)
    (h : process ParsingState.initial events = .ok st) : ∀ d ∈ st.data, Valid d := by
  have hs : Shape 0 st :=
    Shape.process (.outside (by simp [ParsingState.initial]) (.inr rfl)) hb h
  cases hs with
  | outside hv _ => exact hv
  | nested hn => omega
  | closed hn _ => omega

end DataValidator

theorem JsonParser.writeSome_process {calls : List HandlerCall} {st st' : ParsingState}
    (h : writeSome (fun state event => DataValidator.parserCallback (some state) event) calls st =
      .ok (true, st')) :
    DataValidator.process st (calls.filterMap HandlerCall.event) = .ok st' := by
  induction calls generalizing st with
  | nil => cases h; rfl
  | cons call calls ih =>
    simp only [writeSome] at h
    cases hh : handle (fun state event => DataValidator.parserCallback (some state) event) st call with
    | error e => simp only [hh] at h; cases h
    | ok st₁ =>
      simp only [hh] at h
      split at h
      · have hrest := ih h
        unfold handle at hh
        cases he : call.event with
        | none =>
          simp only [he] at hh
          cases hh
          simpa [he] using hrest
        | some e =>
          simp only [he] at hh
          simp only [List.filterMap_cons, he, DataValidator.process, List.foldlM_cons, hh]
          exact hrest
      · cases h

theorem JsonParser.process_writeSome {calls : List HandlerCall} {st st' : ParsingState}
    (ha : ∀ call ∈ calls, call.answer = true)
    (h : DataValidator.process st (calls.filterMap HandlerCall.event) = .ok st') :
    writeSome (fun state event => DataValidator.parserCallback (some state) event) calls st =
      .ok (true, st') := by
  induction calls generalizing st with
  | nil => cases h; rfl
  | cons call calls ih =>
    obtain ⟨hcall, hrest⟩ := List.forall_mem_cons.mp ha
    simp only [writeSome, handle, hcall, ↓reduceIte]
    cases he : call.event with
    | none =>
      rw [List.filterMap_cons_none he] at h
      exact ih hrest h
    | some e =>
      rw [List.filterMap_cons_some he, DataValidator.process_cons] at h
      obtain ⟨st₁, hp, h⟩ := DataValidator.bind_ok h
      simp only [hp]
      exact ih hrest h

theorem JsonParser.parse_process {d : Delivery} {st st' : ParsingState} {message : Bytes}
    (h : parse (fun state event => DataValidator.parserCallback (some state) event) d st =
      .ok ((true, message), st')) :
    DataValidator.process st (d.calls.filterMap HandlerCall.event) = .ok st' := by
  unfold parse at h
  cases hw : writeSome (fun state event => DataValidator.parserCallback (some state) event) d.calls st with
  | error e =>
    rw [hw] at h
    cases h
  | ok p =>
    obtain ⟨completed, st₁⟩ := p
    simp only [hw] at h
    cases hc : errorCode d completed with
    | some message =>
      simp only [hc] at h
      cases h
    | none =>
      simp only [hc] at h
      cases h
      cases completed with
      | true => exact writeSome_process hw
      | false =>
        unfold errorCode at hc
        split at hc <;> simp at hc

end QdsBuffer.Parsing
