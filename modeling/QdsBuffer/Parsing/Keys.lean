import QdsBuffer.Parsing.Documents

namespace QdsBuffer.Parsing
open Bytes

namespace DataValidator

def documentedKeys : List Bytes := buildParseValidation.map (·.1)

structure InObject (state : ParsingState) : Prop where
  nonempty : state.data ≠ []
  unfinished : state.currentElementCompleted = false

def ReadsExactly (state : ParsingState) (key : Bytes) : Prop :=
  (onKey state key).toOption = (buildParseValidation.lookup key).map
    (fun v => { state with hasKey := true, validator := some v })

def Misread (key : Bytes) : Prop :=
  ∃ d ∈ documentedKeys, (key <+: d ∧ key ≠ d) ∨ ∃ rest, key = d ++ 0 :: rest

theorem strncmpEq_iff (entry value : Bytes) :
    strncmpEq entry value = true ↔ value <+: entry ∨ ∃ rest, value = entry ++ 0 :: rest := by
  induction entry generalizing value with
  | nil =>
    cases value with
    | nil => simp [strncmpEq]
    | cons v vs => simp [strncmpEq]
  | cons e es ih =>
    cases value with
    | nil => simp [strncmpEq]
    | cons v vs =>
      simp only [strncmpEq, Bool.and_eq_true, decide_eq_true_eq, ih, List.cons_prefix_cons,
        List.cons_append, List.cons.injEq]
      constructor
      · rintro ⟨rfl, hp | ⟨rest, hr⟩⟩
        · exact .inl ⟨rfl, hp⟩
        · exact .inr ⟨rest, rfl, hr⟩
      · rintro (⟨rfl, hp⟩ | ⟨rest, rfl, hr⟩)
        · exact ⟨rfl, .inl hp⟩
        · exact ⟨rfl, .inr ⟨rest, hr⟩⟩

theorem documented_prefix_free :
    ∀ d ∈ documentedKeys, ∀ d' ∈ documentedKeys, d <+: d' → d = d' := by decide

theorem documented_without_nul : ∀ d ∈ documentedKeys, (0 : UInt8) ∉ d := by decide

theorem Misread.undocumented {key : Bytes} (h : Misread key) : key ∉ documentedKeys := by
  intro hk
  obtain ⟨d, hd, ⟨hp, hne⟩ | ⟨rest, rfl⟩⟩ := h
  · exact hne (documented_prefix_free key hk d hd hp)
  · exact documented_without_nul _ hk (by simp)

theorem strncmpEq_of_not_misread {key : Bytes} (h : ¬ Misread key) {d : Bytes}
    (hd : d ∈ documentedKeys) : strncmpEq d key = (key == d) := by
  rw [Bool.eq_iff_iff, strncmpEq_iff, beq_iff_eq]
  constructor
  · rintro (hp | hr)
    · by_contra hne
      exact h ⟨d, hd, .inl ⟨hp, hne⟩⟩
    · exact absurd ⟨d, hd, .inr hr⟩ h
  · rintro rfl
    exact .inl (List.prefix_refl key)

theorem find?_strncmpEq {key : Bytes} (table : List (Bytes × Validator))
    (h : ∀ entry ∈ table, strncmpEq entry.1 key = (key == entry.1)) :
    (table.find? (fun entry => strncmpEq entry.1 key)).map (·.2) = table.lookup key := by
  induction table with
  | nil => rfl
  | cons entry table ih =>
    have hentry := h entry List.mem_cons_self
    have hrest := ih (fun e he => h e (List.mem_cons_of_mem entry he))
    rw [List.find?_cons, List.lookup_cons, hentry]
    cases key == entry.1 with
    | true => rfl
    | false => exact hrest

theorem keyValidator_of_not_misread {key : Bytes} (h : ¬ Misread key) :
    keyValidator key = buildParseValidation.lookup key :=
  find?_strncmpEq buildParseValidation
    (fun _ he => strncmpEq_of_not_misread h (List.mem_map.mpr ⟨_, he, rfl⟩))

theorem lookup_isSome {key : Bytes} (table : List (Bytes × Validator)) :
    (table.lookup key).isSome ↔ key ∈ table.map (·.1) := by
  induction table with
  | nil => simp
  | cons entry table ih =>
    rw [List.lookup_cons, List.map_cons, List.mem_cons]
    cases hk : key == entry.1 with
    | true => simpa using .inl (beq_iff_eq.mp hk)
    | false => simpa [ih] using fun heq => absurd heq (by simpa using hk)

theorem lookup_of_misread {key : Bytes} (h : Misread key) :
    buildParseValidation.lookup key = none := by
  rw [← Option.not_isSome_iff_eq_none, lookup_isSome]
  exact h.undocumented

theorem keyValidator_of_misread {key : Bytes} (h : Misread key) : (keyValidator key).isSome := by
  obtain ⟨d, hd, hm⟩ := h
  obtain ⟨entry, hentry, rfl⟩ := List.mem_map.mp hd
  rw [keyValidator, Option.isSome_map, List.find?_isSome]
  refine ⟨entry, hentry, (strncmpEq_iff _ _).mpr ?_⟩
  rcases hm with ⟨hp, -⟩ | hr
  · exact .inl hp
  · exact .inr hr

theorem keyValidator_isSome (key : Bytes) :
    (keyValidator key).isSome ↔ key ∈ documentedKeys ∨ Misread key := by
  by_cases hm : Misread key
  · simp [hm, keyValidator_of_misread hm]
  · rw [keyValidator_of_not_misread hm, lookup_isSome]
    simp [hm, documentedKeys]

theorem onKey_open {state : ParsingState} (h : InObject state) (key : Bytes) :
    (onKey state key).toOption = (keyValidator key).map
      (fun v => { state with hasKey := true, validator := some v }) := by
  simp [onKey_eq, h.nonempty, h.unfinished]

theorem readsExactly_iff {state : ParsingState} (h : InObject state) (key : Bytes) :
    ReadsExactly state key ↔ ¬ Misread key := by
  rw [ReadsExactly, onKey_open h]
  constructor
  · intro heq hm
    rw [lookup_of_misread hm] at heq
    have hsome := keyValidator_of_misread hm
    rw [Option.map_none, Option.map_eq_none_iff] at heq
    simp [heq] at hsome
  · intro hm
    rw [keyValidator_of_not_misread hm]

theorem process_keys {events : List Event} {st st' : ParsingState}
    (h : process st events = .ok st') :
    ∀ key, Event.onKey key ∈ events → (keyValidator key).isSome := by
  induction events generalizing st with
  | nil => simp
  | cons e events ih =>
    rw [process_cons] at h
    obtain ⟨st₁, he, hrest⟩ := bind_ok h
    intro key hm
    rcases List.mem_cons.mp hm with rfl | hm
    · have hk := onKey_eq st key
      rw [show onKey st key = .ok st₁ from he] at hk
      cases hv : keyValidator key with
      | some v => rfl
      | none =>
        rw [hv] at hk
        split at hk <;> cases hk
    · exact ih hrest key hm

theorem documented_keys_iff (key : Bytes) :
    (∀ state, InObject state → (ReadsExactly state key ↔ ¬ Misread key)) ∧
    ∀ (doc : Json) (ec : Option Bytes) (n size : Nat) (data : List Measurement),
      outcome ⟨doc.inPieces, ec, n, size⟩ = some data → Event.onKey key ∈ doc.events →
      (key ∈ documentedKeys ↔ ¬ Misread key) := by
  refine ⟨fun state h => readsExactly_iff h key, ?_⟩
  intro doc ec n size data h hm
  obtain ⟨st, hst, -⟩ := outcome_process h
  have hsome := (keyValidator_isSome key).mp (process_keys hst key hm)
  exact ⟨fun hd hmis => hmis.undocumented hd, hsome.resolve_right⟩

def onlyValue (key : String) : Json := .object (member key "a" (otherMembers .name))

theorem documented_keys_iff_name :
    (ReadsExactly ⟨[Measurement.fresh], none, false, false⟩ (ascii "NAME") ↔
      ¬ Misread (ascii "NAME")) ∧ (ascii "NAME" ∈ documentedKeys ↔ ¬ Misread (ascii "NAME")) :=
  ⟨(documented_keys_iff (ascii "NAME")).1 _ ⟨by simp, rfl⟩,
    (documented_keys_iff (ascii "NAME")).2 (onlyValue "NAME") none 0 0
      [⟨ascii "a", .string, [], .string (ascii "a")⟩] rfl (by decide)⟩

theorem prefix_read_as_key :
    ¬ ReadsExactly ⟨[Measurement.fresh], none, false, false⟩ (ascii "N") ∧
      outcome ⟨(onlyValue "N").inPieces, none, 0, 0⟩ =
        some [⟨ascii "a", .string, [], .string (ascii "a")⟩] ∧
      Event.onKey (ascii "N") ∈ (onlyValue "N").events ∧ ascii "N" ∉ documentedKeys := by
  refine ⟨?_, rfl, by decide, by decide⟩
  simp only [ReadsExactly]
  decide

end DataValidator

end QdsBuffer.Parsing
