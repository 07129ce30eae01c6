import QdsBuffer.Parsing.Slots

namespace QdsBuffer.Parsing
open Bytes

def Repeats (o : List Member) : Prop :=
  ∃ key ∈ [ascii "NAME", ascii "TYPE", ascii "UNIT", ascii "VALUE"], 2 ≤ (o.map (·.key)).count key

namespace DataValidator

def Rejected (o : List Member) : Prop :=
  ∃ e, process ParsingState.initial (objectEvents o) = .error e ∧ e.kind = .parsing

-- All texts but the last are empty: while the content is empty, it counts as not yet given.
def LastCounts (ss : List Scalar) (text : Bytes) : Prop :=
  ∃ init last, ss = init ++ [last] ∧ (∀ s ∈ init, scalarText s = some []) ∧
    scalarText last = some text

def Single {β : Type} (parsed : Scalar → Option β) (ss : List Scalar) (b : β) : Prop :=
  ∃ s, ss = [s] ∧ parsed s = some b

structure OnlyEmptyRepeats (o : List Member) (m : Measurement) : Prop where
  keys : ∀ x ∈ o, (keyValidator x.key).isSome
  name : LastCounts (values .name o) m.name
  type : Single scalarType (values .type o) m.type
  unit : (values .unit o = [] ∧ m.unit = []) ∨ LastCounts (values .unit o) m.unit
  value : Single scalarValue (values .value o) m.value
  named : m.name ≠ []
  checked : checkValue m = .ok ()

theorem checkMeasurement_iff (m : Measurement) :
    checkMeasurement m = .ok () ↔
      m.name ≠ [] ∧ m.type ≠ .notSet ∧ m.value ≠ .blank ∧ checkValue m = .ok () := by
  unfold checkMeasurement
  split
  · rename_i h
    simp [List.isEmpty_iff.mp h]
  · rename_i hn
    split
    · rename_i h
      simp [h]
    · rename_i ht
      split
      · rename_i h
        simp [h]
      · rename_i hv
        simp [ht, hv, List.isEmpty_iff.not.mp hn]

theorem yields_iff_onlyEmptyRepeats (o : List Member) (m : Measurement) :
    Yields (o.flatMap Member.events) m ↔ OnlyEmptyRepeats o m := by
  rw [yields_members, checkMeasurement_iff]
  constructor
  · rintro ⟨⟨hkeys, hname, htype, hunit, hvalue⟩, hn, ht, hv, hc⟩
    refine ⟨hkeys, ?_, (fills_once scalarType_ne_notSet _ ht).mp htype, (fills_eq_some _ _).mp hunit,
      (fills_once scalarValue_ne_some_blank _ hv).mp hvalue, hn, hc⟩
    exact ((fills_eq_some _ _).mp hname).resolve_left (fun h => hn h.2)
  · rintro ⟨hkeys, hname, htype, hunit, hvalue, hn, hc⟩
    have ht : m.type ≠ .notSet := by
      obtain ⟨s, -, hs⟩ := htype
      exact fun heq => scalarType_ne_notSet s (heq ▸ hs)
    have hv : m.value ≠ .blank := by
      obtain ⟨s, -, hs⟩ := hvalue
      exact fun heq => scalarValue_ne_some_blank s (heq ▸ hs)
    exact ⟨⟨hkeys, (fills_eq_some _ _).mpr (.inr hname),
      (fills_once scalarType_ne_notSet _ ht).mpr htype, (fills_eq_some _ _).mpr hunit,
      (fills_once scalarValue_ne_some_blank _ hv).mpr hvalue⟩, hn, ht, hv, hc⟩

theorem validateString_kind {keyName : String} {present : Measurement → Bool}
    {assign : Measurement → Bytes → Except Exception Measurement} {scalar : Scalar}
    {d : Measurement} {e : Exception} (ha : ∀ s, assign d s = .error e → e.kind = .parsing)
    (h : validateString keyName present assign scalar d = .error e) : e.kind = .parsing := by
  cases scalar with
  | string s value =>
    simp only [validateString] at h
    split at h
    · cases h
      rfl
    · exact ha s h
  | _ =>
    cases h
    rfl

theorem validate_kind {v : Validator} {scalar : Scalar} {d : Measurement} {e : Exception}
    (h : validate v scalar d = .error e) : e.kind = .parsing := by
  cases v with
  | name =>
    simp only [validate, validateName] at h
    exact validateString_kind (fun s hs => by cases hs) h
  | type =>
    simp only [validate, validateType] at h
    refine validateString_kind (fun s hs => ?_) h
    split at hs
    · cases hs
      rfl
    · cases hs
  | unit =>
    simp only [validate, validateUnit] at h
    exact validateString_kind (fun s hs => by cases hs) h
  | value =>
    simp only [validate, validateValue] at h
    split at h
    · cases h
      rfl
    · split at h
      · cases h
        rfl
      · cases h
  | decimals => cases h

theorem checkValue_kind {d : Measurement} {e : Exception} (h : checkValue d = .error e) :
    e.kind = .parsing := by
  unfold checkValue at h
  split at h <;> first | (cases h; done) | (cases h; rfl) | (split at h <;> cases h; rfl)

theorem checkMeasurement_kind {d : Measurement} {e : Exception}
    (h : checkMeasurement d = .error e) : e.kind = .parsing := by
  unfold checkMeasurement at h
  split at h
  · cases h
    rfl
  · split at h
    · cases h
      rfl
    · split at h
      · cases h
        rfl
      · exact checkValue_kind h

theorem dispatch_kind {st : ParsingState} {event : Event} {e : Exception}
    (h : dispatch st event = .error e) : e.kind = .parsing := by
  cases event with
  | onObjectBegin => cases h
  | onObjectEnd =>
    simp only [dispatch, onObjectEnd] at h
    split at h
    · split at h
      · rename_i hc
        cases h
        exact checkMeasurement_kind hc
      · cases h
    · cases h
      rfl
  | onKey key =>
    simp only [dispatch, onKey] at h
    split at h
    · cases h
      rfl
    · split at h
      · cases h
      · cases h
        rfl
  | onValue scalar =>
    simp only [dispatch, onValue] at h
    split at h
    · split at h
      · cases h
        rfl
      · split at h
        · rename_i hv
          cases h
          cases hval : st.validator with
          | none =>
            rw [hval] at hv
            cases hv
          | some v =>
            rw [hval] at hv
            exact validate_kind hv
        · cases h
    · cases h
      rfl

theorem process_kind {events : List Event} {st : ParsingState} {e : Exception}
    (h : process st events = .error e) : e.kind = .parsing := by
  induction events generalizing st with
  | nil => cases h
  | cons event events ih =>
    rw [process_cons] at h
    cases hd : parserCallback (some st) event with
    | error e' =>
      rw [hd] at h
      cases h
      exact dispatch_kind hd
    | ok st₁ =>
      rw [hd] at h
      exact ih h

theorem rejected_iff (o : List Member) : Rejected o ↔ ¬ ∃ m, OnlyEmptyRepeats o m := by
  constructor
  · rintro ⟨e, he, -⟩ ⟨m, hm⟩
    obtain ⟨st, hst, -⟩ := (yields_iff_onlyEmptyRepeats o m).mpr hm
    rw [show process ParsingState.initial (segment (o.flatMap Member.events)) = .error e from he]
      at hst
    cases hst
  · intro hno
    cases hp : process ParsingState.initial (objectEvents o) with
    | error e => exact ⟨e, hp, process_kind hp⟩
    | ok st =>
      obtain ⟨m, hm⟩ := yields_of_accepted (members_opens o) hp
      exact absurd ⟨m, (yields_iff_onlyEmptyRepeats o m).mp hm⟩ hno

theorem duplicates_rejected_iff (o : List Member) :
    (Repeats o → Rejected o) ↔ ¬ (Repeats o ∧ ∃ m, OnlyEmptyRepeats o m) := by
  rw [rejected_iff, not_and]

def stringMember (key value : String) : Member :=
  ⟨ascii key, .string (ascii value) (some (ascii value))⟩

theorem empty_name_repeated :
    let o := [stringMember "NAME" "", stringMember "NAME" "a", stringMember "TYPE" "STRING",
      stringMember "VALUE" "b"]
    Repeats o ∧ process ParsingState.initial (objectEvents o) =
      .ok ⟨[⟨ascii "a", .string, [], .string (ascii "b")⟩], none, false, true⟩ ∧
      ¬ (Repeats o → Rejected o) := by
  intro o
  have hrepeats : Repeats o := ⟨ascii "NAME", by decide, by decide⟩
  have hok : process ParsingState.initial (objectEvents o) =
      .ok ⟨[⟨ascii "a", .string, [], .string (ascii "b")⟩], none, false, true⟩ := rfl
  refine ⟨hrepeats, hok, ?_⟩
  intro h
  obtain ⟨e, he, -⟩ := h hrepeats
  rw [hok] at he
  cases he

end DataValidator

end QdsBuffer.Parsing
