import QdsBuffer.Parsing.Integers

namespace QdsBuffer.Parsing
open Bytes

namespace DataValidator

def scalarText : Scalar → Option Bytes
  | .string s _ => some s
  | _ => none

-- NAME, TYPE, UNIT and VALUE are filled alike: a value is taken while the content is still unset.
def fill {β : Type} [DecidableEq β] (unset : β) (parsed : Scalar → Option β) (b : β) (s : Scalar) :
    Option β :=
  if b = unset then parsed s else none

def fills {β : Type} [DecidableEq β] (unset : β) (parsed : Scalar → Option β) (b : β)
    (ss : List Scalar) : Option β :=
  ss.foldlM (fill unset parsed) b

def values (v : Validator) (o : List Member) : List Scalar :=
  (o.filter (fun m => keyValidator m.key = some v)).map (·.value)

def readMember (d : Measurement) (m : Member) : Option Measurement :=
  (keyValidator m.key).bind (fun v => (validate v m.value d).toOption)

def readMembers (d : Measurement) (o : List Member) : Option Measurement := o.foldlM readMember d

@[mk_iff]
structure Reads (d : Measurement) (o : List Member) (d' : Measurement) : Prop where
  keys : ∀ m ∈ o, (keyValidator m.key).isSome
  name : fills [] scalarText d.name (values .name o) = some d'.name
  type : fills .notSet scalarType d.type (values .type o) = some d'.type
  unit : fills [] scalarText d.unit (values .unit o) = some d'.unit
  value : fills .blank scalarValue d.value (values .value o) = some d'.value

theorem values_cons (v : Validator) (m : Member) (o : List Member) :
    values v (m :: o) =
      if keyValidator m.key = some v then m.value :: values v o else values v o := by
  simp only [values, List.filter_cons, decide_eq_true_eq]
  split <;> rfl

section

variable {β : Type} [DecidableEq β] {unset : β} {parsed : Scalar → Option β}

theorem fills_cons (b : β) (s : Scalar) (ss : List Scalar) :
    fills unset parsed b (s :: ss) =
      (fill unset parsed b s).bind (fun c => fills unset parsed c ss) := by
  rw [fills, List.foldlM_cons]
  rfl

theorem fills_eq_some (ss : List Scalar) (b : β) :
    fills unset parsed unset ss = some b ↔
      (ss = [] ∧ b = unset) ∨ ∃ init last, ss = init ++ [last] ∧
        (∀ s ∈ init, parsed s = some unset) ∧ parsed last = some b := by
  induction ss with
  | nil =>
    constructor
    · intro h
      cases h
      exact .inl ⟨rfl, rfl⟩
    · rintro (⟨-, rfl⟩ | ⟨init, last, hnil, -⟩)
      · rfl
      · simp at hnil
  | cons s ss ih =>
    have hfirst : fill unset parsed unset s = parsed s := if_pos rfl
    rw [fills_cons, hfirst]
    constructor
    · intro h
      obtain ⟨c, hc, hrest⟩ := Option.bind_eq_some_iff.mp h
      refine .inr ?_
      rcases Decidable.em (c = unset) with rfl | hset
      · rcases ih.mp hrest with ⟨rfl, rfl⟩ | ⟨init, last, rfl, hinit, hlast⟩
        · exact ⟨[], s, rfl, by simp, hc⟩
        · exact ⟨s :: init, last, rfl, List.forall_mem_cons.mpr ⟨hc, hinit⟩, hlast⟩
      · cases ss with
        | nil =>
          cases hrest
          exact ⟨[], s, rfl, by simp, hc⟩
        | cons s' ss' =>
          rw [fills_cons, fill, if_neg hset] at hrest
          cases hrest
    · rintro (⟨hnil, -⟩ | ⟨init, last, heq, hinit, hlast⟩)
      · cases hnil
      · cases init with
        | nil =>
          obtain ⟨rfl, rfl⟩ := List.cons.inj heq
          simp [hlast, fills]
        | cons i init =>
          obtain ⟨rfl, rfl⟩ := List.cons.inj heq
          rw [List.forall_mem_cons] at hinit
          rw [hinit.1]
          exact ih.mpr (.inr ⟨init, last, rfl, hinit.2, hlast⟩)

theorem fills_once (hparsed : ∀ s, parsed s ≠ some unset) (ss : List Scalar) {b : β}
    (hb : b ≠ unset) :
    fills unset parsed unset ss = some b ↔ ∃ s, ss = [s] ∧ parsed s = some b := by
  rw [fills_eq_some]
  constructor
  · rintro (⟨-, rfl⟩ | ⟨init, last, rfl, hinit, hlast⟩)
    · exact absurd rfl hb
    · cases init with
      | nil => exact ⟨last, rfl, hlast⟩
      | cons i init => exact absurd (hinit i List.mem_cons_self) (hparsed i)
  · rintro ⟨s, rfl, hs⟩
    exact .inr ⟨[], s, rfl, by simp, hs⟩

end

theorem scalarType_ne_notSet (s : Scalar) : scalarType s ≠ some .notSet := by
  have htable : ∀ entry ∈ Measurement.typesMap, entry.2 ≠ .notSet := by decide
  cases s with
  | string s value =>
    intro h
    obtain ⟨_, _, hsplit, -⟩ := List.lookup_eq_some_iff.mp h
    exact htable _ (hsplit ▸ List.mem_append_right _ List.mem_cons_self) rfl
  | _ => simp [scalarType]

theorem scalarValue_ne_some_blank (s : Scalar) : scalarValue s ≠ some .blank :=
  fun h => scalarValue_ne_blank h rfl

theorem validateString_toOption (keyName : String) (get : Measurement → Bytes)
    (set : Measurement → Bytes → Measurement) (s : Scalar) (d : Measurement) :
    (validateString keyName (fun d => !(get d).isEmpty) (fun d s => .ok (set d s)) s d).toOption =
      (fill [] scalarText (get d) s).map (set d) := by
  unfold fill
  cases s with
  | string s value =>
    simp only [validateString, scalarText]
    cases get d with
    | nil => rfl
    | cons b bs => rfl
  | _ => simp [validateString, scalarText, Except.toOption]

theorem validateName_toOption (s : Scalar) (d : Measurement) :
    (validateName s d).toOption =
      (fill [] scalarText d.name s).map (fun n => { d with name := n }) :=
  validateString_toOption "NAME" Measurement.name (fun d n => { d with name := n }) s d

theorem validateUnit_toOption (s : Scalar) (d : Measurement) :
    (validateUnit s d).toOption =
      (fill [] scalarText d.unit s).map (fun u => { d with unit := u }) :=
  validateString_toOption "UNIT" Measurement.unit (fun d u => { d with unit := u }) s d

theorem validateType_toOption (s : Scalar) (d : Measurement) :
    (validateType s d).toOption =
      (fill .notSet scalarType d.type s).map (fun t => { d with type := t }) := by
  unfold fill
  cases s with
  | string s value =>
    have hset := scalarType_ne_notSet (.string s value)
    simp only [validateType, validateString, scalarType, Measurement.setTypeFromString] at hset ⊢
    obtain ⟨found, hfound⟩ : ∃ found, Measurement.typesMap.lookup s = found := ⟨_, rfl⟩
    rw [hfound] at hset
    rcases Decidable.em (d.type = .notSet) with ht | ht
    · cases found with
      | none => simp [ht, hfound, Except.toOption]
      | some t => simp [ht, hfound, show t ≠ .notSet from fun heq => hset (heq ▸ rfl), Except.toOption]
    · simp [ht, Except.toOption]
  | _ => simp [validateType, validateString, scalarType, Except.toOption]

theorem validateValue_toOption (s : Scalar) (d : Measurement) :
    (validateValue s d).toOption =
      (fill .blank scalarValue d.value s).map (fun v => { d with value := v }) := by
  unfold fill validateValue
  cases scalarValue s with
  | none => simp [Except.toOption]
  | some v =>
    rcases Decidable.em (d.value = .blank) with hb | hb
    · simp [hb, Except.toOption]
    · simp [hb, Except.toOption]

theorem readMembers_eq_some (o : List Member) (d d' : Measurement) :
    readMembers d o = some d' ↔ Reads d o d' := by
  induction o generalizing d with
  | nil =>
    constructor
    · intro h
      cases h
      exact ⟨by simp, rfl, rfl, rfl, rfl⟩
    · rintro ⟨-, hn, ht, hu, hv⟩
      obtain ⟨name, type, unit, value⟩ := d
      obtain ⟨name', type', unit', value'⟩ := d'
      cases hn
      cases ht
      cases hu
      cases hv
      rfl
  | cons m o ih =>
    have hcons : readMembers d (m :: o) = (readMember d m).bind (readMembers · o) := by
      rw [readMembers, List.foldlM_cons]
      rfl
    rw [hcons, readMember]
    cases hk : keyValidator m.key with
    | none => simp [reads_iff, hk]
    | some v =>
      cases v with
      | name =>
        rw [Option.bind_some, validate, validateName_toOption, reads_iff]
        cases hf : fill [] scalarText d.name m.value with
        | none => simp [values_cons, fills_cons, hk, hf]
        | some n => simp [values_cons, fills_cons, hk, hf, ih, reads_iff]
      | type =>
        rw [Option.bind_some, validate, validateType_toOption, reads_iff]
        cases hf : fill .notSet scalarType d.type m.value with
        | none => simp [values_cons, fills_cons, hk, hf]
        | some t => simp [values_cons, fills_cons, hk, hf, ih, reads_iff]
      | unit =>
        rw [Option.bind_some, validate, validateUnit_toOption, reads_iff]
        cases hf : fill [] scalarText d.unit m.value with
        | none => simp [values_cons, fills_cons, hk, hf]
        | some u => simp [values_cons, fills_cons, hk, hf, ih, reads_iff]
      | value =>
        rw [Option.bind_some, validate, validateValue_toOption, reads_iff]
        cases hf : fill .blank scalarValue d.value m.value with
        | none => simp [values_cons, fills_cons, hk, hf]
        | some v => simp [values_cons, fills_cons, hk, hf, ih, reads_iff]
      | decimals =>
        have hd : (validate .decimals m.value d).toOption = some d := rfl
        rw [Option.bind_some, hd, Option.bind_some, ih, reads_iff, reads_iff]
        simp [values_cons, hk]

theorem readContent_member (d : Measurement) (m : Member) (rest : List Event) :
    (readContent ⟨d, none, false⟩ (m.events ++ rest)).toOption =
      (readMember d m).bind (fun d₁ => (readContent ⟨d₁, none, false⟩ rest).toOption) := by
  rw [Member.events, readMember, keyValidator]
  simp only [List.cons_append, List.nil_append, readContent, List.foldlM_cons, read]
  cases buildParseValidation.find? (fun entry => strncmpEq entry.1 m.key) with
  | none => rfl
  | some entry =>
    change (((validate entry.2 m.value d).map _).bind _).toOption = Option.bind _ _
    rw [Option.map_some, Option.bind_some]
    cases validate entry.2 m.value d <;> rfl

theorem readContent_members (o : List Member) (d : Measurement) :
    (readContent ⟨d, none, false⟩ (o.flatMap Member.events)).toOption =
      (readMembers d o).map (⟨·, none, false⟩) := by
  induction o generalizing d with
  | nil => rfl
  | cons m o ih =>
    rw [List.flatMap_cons, readContent_member, readMembers, List.foldlM_cons]
    cases readMember d m with
    | none => rfl
    | some d₁ => exact ih d₁

theorem yields_members (o : List Member) (m : Measurement) :
    Yields (o.flatMap Member.events) m ↔
      Reads Measurement.fresh o m ∧ checkMeasurement m = .ok () := by
  rw [yields_iff (members_opens o), ← readMembers_eq_some]
  have hread := readContent_members o Measurement.fresh
  unfold readObject
  cases hr : readContent ⟨Measurement.fresh, none, false⟩ (o.flatMap Member.events) with
  | error e =>
    rw [hr] at hread
    have hnone : readMembers Measurement.fresh o = none := Option.map_eq_none_iff.mp hread.symm
    simp [hnone, Except.bind]
  | ok c =>
    rw [hr] at hread
    obtain ⟨d, hd, rfl⟩ := Option.map_eq_some_iff.mp hread.symm
    simp only [Except.bind, close, hd, Option.some.injEq]
    cases hc : checkMeasurement d with
    | error e =>
      simp only [Except.map, reduceCtorEq, false_and, exists_false, false_iff, not_and]
      rintro rfl
      simp [hc]
    | ok u =>
      constructor
      · rintro ⟨c, hcur, rfl⟩
        cases hcur
        exact ⟨rfl, hc⟩
      · rintro ⟨rfl, -⟩
        exact ⟨_, rfl, rfl⟩

end DataValidator

end QdsBuffer.Parsing
