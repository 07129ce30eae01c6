import QdsBuffer.Library.Regex

namespace Regex
open Bytes

def admits (ranges : List (UInt8 × UInt8)) (b : UInt8) : Bool :=
  ranges.any (fun r => r.1 ≤ b && b ≤ r.2)

-- Match r c w c': with the captures c, r can take the word w, and leaves the captures c'.
inductive Match : Regex → Captures → Bytes → Captures → Prop
  | empty (c : Captures) : Match empty c [] c
  | cls {ranges : List (UInt8 × UInt8)} {b : UInt8} (c : Captures) :
      admits ranges b = true → Match (cls ranges) c [b] c
  | seq {a b : Regex} {c c₁ c₂ : Captures} {w v : Bytes} :
      Match a c w c₁ → Match b c₁ v c₂ → Match (seq a b) c (w ++ v) c₂
  | altLeft {a : Regex} (b : Regex) {c c' : Captures} {w : Bytes} :
      Match a c w c' → Match (alt a b) c w c'
  | altRight (a : Regex) {b : Regex} {c c' : Captures} {w : Bytes} :
      Match b c w c' → Match (alt a b) c w c'
  | group (index : Nat) {a : Regex} {c c' : Captures} {w : Bytes} :
      Match a c w c' → Match (group index a) c w ((index, w) :: c')
  | backref (index : Nat) (c : Captures) : Match (backref index) c ((c.lookup index).getD []) c

section
variable {a b : Regex} {c c' : Captures} {w : Bytes} {index : Nat}

theorem match_empty_iff : Match empty c w c' ↔ c' = c ∧ w = [] := by
  constructor
  · intro h
    cases h
    exact ⟨rfl, rfl⟩
  · rintro ⟨rfl, rfl⟩
    exact .empty c'

theorem match_cls_iff {ranges : List (UInt8 × UInt8)} :
    Match (cls ranges) c w c' ↔ c' = c ∧ ∃ x, admits ranges x = true ∧ w = [x] := by
  constructor
  · intro h
    cases h with
    | cls _ hx => exact ⟨rfl, _, hx, rfl⟩
  · rintro ⟨rfl, x, hx, rfl⟩
    exact .cls c' hx

theorem match_seq_iff :
    Match (seq a b) c w c' ↔ ∃ u c₁ v, w = u ++ v ∧ Match a c u c₁ ∧ Match b c₁ v c' := by
  constructor
  · intro h
    cases h with
    | seq ha hb => exact ⟨_, _, _, rfl, ha, hb⟩
  · rintro ⟨u, c₁, v, rfl, ha, hb⟩
    exact .seq ha hb

theorem match_alt_iff : Match (alt a b) c w c' ↔ Match a c w c' ∨ Match b c w c' := by
  constructor
  · intro h
    cases h with
    | altLeft _ ha => exact .inl ha
    | altRight _ hb => exact .inr hb
  · rintro (ha | hb)
    · exact .altLeft b ha
    · exact .altRight a hb

theorem match_group_iff :
    Match (group index a) c w c' ↔ ∃ c₁, Match a c w c₁ ∧ c' = (index, w) :: c₁ := by
  constructor
  · intro h
    cases h with
    | group _ ha => exact ⟨_, ha, rfl⟩
  · rintro ⟨c₁, ha, rfl⟩
    exact .group index ha

theorem match_backref_iff :
    Match (backref index) c w c' ↔ c' = c ∧ w = (c.lookup index).getD [] := by
  constructor
  · intro h
    cases h
    exact ⟨rfl, rfl⟩
  · rintro ⟨rfl, rfl⟩
    exact .backref index c'

theorem match_seq_assoc {r : Regex} :
    Match (seq a (seq b r)) c w c' ↔ Match (seq (seq a b) r) c w c' := by
  constructor
  · intro h
    obtain ⟨u, c₁, _, rfl, ha, h⟩ := match_seq_iff.mp h
    obtain ⟨v, c₂, x, rfl, hb, hr⟩ := match_seq_iff.mp h
    rw [← List.append_assoc]
    exact .seq (.seq ha hb) hr
  · intro h
    obtain ⟨_, c₂, x, rfl, h, hr⟩ := match_seq_iff.mp h
    obtain ⟨u, c₁, v, rfl, ha, hb⟩ := match_seq_iff.mp h
    rw [List.append_assoc]
    exact .seq ha (.seq hb hr)

theorem match_opt_iff : Match (opt a) c w c' ↔ Match a c w c' ∨ c' = c ∧ w = [] := by
  rw [opt, match_alt_iff, match_empty_iff]

theorem match_byte_iff {x : UInt8} : Match (cls [(x, x)]) c w c' ↔ c' = c ∧ w = [x] := by
  rw [match_cls_iff]
  refine and_congr_right (fun _ => ⟨?_, ?_⟩)
  · rintro ⟨y, hy, rfl⟩
    simp only [admits, List.any_cons, List.any_nil, Bool.or_false, Bool.and_eq_true,
      decide_eq_true_eq] at hy
    rw [UInt8.le_antisymm hy.1 hy.2]
  · rintro rfl
    exact ⟨x, by simp [admits], rfl⟩

theorem match_bytes_iff (u : Bytes) :
    Match (seqs (u.map (fun x => cls [(x, x)]))) c w c' ↔ c' = c ∧ w = u := by
  induction u generalizing w with
  | nil => exact match_empty_iff
  | cons x u ih =>
    cases u with
    | nil => exact match_byte_iff
    | cons y u =>
      change Match (seq (cls [(x, x)]) (seqs ((y :: u).map _))) c w c' ↔ _
      rw [match_seq_iff]
      constructor
      · rintro ⟨_, _, _, rfl, hx, hrest⟩
        obtain ⟨rfl, rfl⟩ := match_byte_iff.mp hx
        obtain ⟨rfl, rfl⟩ := ih.mp hrest
        exact ⟨rfl, rfl⟩
      · rintro ⟨rfl, rfl⟩
        exact ⟨[x], c', y :: u, rfl, match_byte_iff.mpr ⟨rfl, rfl⟩, ih.mpr ⟨rfl, rfl⟩⟩

theorem match_text_iff {s : String} : Match (text s) c w c' ↔ c' = c ∧ w = ascii s :=
  match_bytes_iff (ascii s)

end

-- a takes exactly the words with P, whatever the captures are, and leaves them as they are.
def Takes (a : Regex) (P : Bytes → Prop) : Prop := ∀ c w c', Match a c w c' ↔ c' = c ∧ P w

section
variable {a b r : Regex} {P Q : Bytes → Prop} {c c' : Captures} {w : Bytes}

theorem takes_text (s : String) : Takes (text s) (· = ascii s) := fun _ _ _ => match_text_iff

theorem takes_cls (ranges : List (UInt8 × UInt8)) :
    Takes (cls ranges) (fun w => ∃ x, admits ranges x = true ∧ w = [x]) :=
  fun _ _ _ => match_cls_iff

theorem takes_set (s : String) : Takes (set s) (fun w => ∃ x ∈ ascii s, w = [x]) := by
  have hadmits : ∀ x, admits ((ascii s).map (fun b => (b, b))) x = true ↔ x ∈ ascii s := by
    intro x
    simp only [admits, List.any_map, List.any_eq_true, Function.comp_apply, Bool.and_eq_true,
      decide_eq_true_eq]
    constructor
    · rintro ⟨b, hb, hle, hge⟩
      rwa [UInt8.le_antisymm hge hle]
    · intro hx
      exact ⟨x, hx, UInt8.le_refl x, UInt8.le_refl x⟩
  intro c w c'
  have hcls := takes_cls ((ascii s).map (fun b => (b, b))) c w c'
  simp only [hadmits] at hcls
  exact hcls

theorem Takes.opt (ha : Takes a P) : Takes (opt a) (fun w => w = [] ∨ P w) := by
  intro c w c'
  rw [match_opt_iff, ha, ← and_or_left, or_comm]

theorem Takes.match_seq (ha : Takes a P) :
    Match (seq a r) c w c' ↔ ∃ u v, P u ∧ w = u ++ v ∧ Match r c v c' := by
  rw [match_seq_iff]
  constructor
  · rintro ⟨u, c₁, v, rfl, hu, hv⟩
    obtain ⟨rfl, hP⟩ := (ha c u c₁).mp hu
    exact ⟨u, v, hP, rfl, hv⟩
  · rintro ⟨u, v, hP, rfl, hv⟩
    exact ⟨u, c, v, rfl, (ha c u c).mpr ⟨rfl, hP⟩, hv⟩

theorem Takes.match_group_seq (ha : Takes a P) (index : Nat) :
    Match (seq (group index a) r) c w c' ↔
      ∃ u v, P u ∧ w = u ++ v ∧ Match r ((index, u) :: c) v c' := by
  rw [match_seq_iff]
  constructor
  · rintro ⟨u, _, v, rfl, hgroup, hv⟩
    obtain ⟨c₁, hu, rfl⟩ := match_group_iff.mp hgroup
    obtain ⟨rfl, hP⟩ := (ha c u c₁).mp hu
    exact ⟨u, v, hP, rfl, hv⟩
  · rintro ⟨u, v, hP, rfl, hv⟩
    exact ⟨u, _, v, rfl, .group index ((ha c u c).mpr ⟨rfl, hP⟩), hv⟩

theorem Takes.seq (ha : Takes a P) (hb : Takes b Q) :
    Takes (seq a b) (fun w => ∃ u v, P u ∧ Q v ∧ w = u ++ v) := by
  intro c w c'
  rw [ha.match_seq]
  constructor
  · rintro ⟨u, v, hP, rfl, hv⟩
    obtain ⟨rfl, hQ⟩ := (hb c v c').mp hv
    exact ⟨rfl, u, v, hP, hQ, rfl⟩
  · rintro ⟨rfl, u, v, hP, hQ, rfl⟩
    exact ⟨u, v, hP, rfl, (hb _ v _).mpr ⟨rfl, hQ⟩⟩

theorem takes_upTo {ranges : List (UInt8 × UInt8)} (n : Nat) :
    Takes (upTo n (cls ranges)) (fun w => w.length ≤ n ∧ ∀ b ∈ w, admits ranges b = true) := by
  induction n with
  | zero =>
    intro c w c'
    change Match empty c w c' ↔ _
    rw [match_empty_iff]
    refine and_congr_right (fun _ => ⟨?_, ?_⟩)
    · rintro rfl
      exact ⟨Nat.le_refl 0, by simp⟩
    · rintro ⟨hlen, -⟩
      exact List.length_eq_zero_iff.mp (Nat.le_zero.mp hlen)
  | succ n ih =>
    intro c w c'
    change Match (opt (seq (cls ranges) (upTo n (cls ranges)))) c w c' ↔ _
    rw [((takes_cls ranges).seq ih).opt]
    refine and_congr_right (fun _ => ?_)
    cases w with
    | nil => simp
    | cons x w =>
      constructor
      · rintro (hnil | ⟨_, v, ⟨y, hy, rfl⟩, ⟨hlen, hall⟩, heq⟩)
        · cases hnil
        · obtain ⟨rfl, rfl⟩ := List.cons.inj heq
          exact ⟨Nat.succ_le_succ hlen, List.forall_mem_cons.mpr ⟨hy, hall⟩⟩
      · rintro ⟨hlen, hall⟩
        obtain ⟨hx, hw⟩ := List.forall_mem_cons.mp hall
        exact .inr ⟨[x], w, ⟨x, hx, rfl⟩, ⟨Nat.le_of_succ_le_succ hlen, hw⟩, rfl⟩

end

theorem mem_paths {r : Regex} {c c' : Captures} {s t : Bytes} :
    (c', t) ∈ r.paths c s ↔ ∃ w, s = w ++ t ∧ Match r c w c' := by
  induction r generalizing c c' s t with
  | empty =>
    simp only [paths, List.mem_singleton, Prod.mk.injEq, match_empty_iff]
    constructor
    · rintro ⟨rfl, rfl⟩
      exact ⟨[], rfl, rfl, rfl⟩
    · rintro ⟨_, rfl, rfl, rfl⟩
      exact ⟨rfl, rfl⟩
  | cls ranges =>
    cases s with
    | nil => simp [paths, match_cls_iff]
    | cons x s =>
      have hpaths : (cls ranges).paths c (x :: s) = if admits ranges x then [(c, s)] else [] := rfl
      rw [hpaths]
      simp only [match_cls_iff]
      split
      · rename_i hx
        constructor
        · intro h
          cases List.mem_singleton.mp h
          exact ⟨[x], rfl, rfl, x, hx, rfl⟩
        · rintro ⟨_, heq, rfl, y, -, rfl⟩
          obtain ⟨-, rfl⟩ := List.cons.inj heq
          exact List.mem_singleton.mpr rfl
      · rename_i hx
        simp only [List.not_mem_nil, false_iff]
        rintro ⟨_, heq, -, y, hy, rfl⟩
        obtain ⟨rfl, -⟩ := List.cons.inj heq
        exact hx hy
  | seq a b iha ihb =>
    simp only [paths, List.mem_flatMap, Prod.exists, match_seq_iff]
    constructor
    · rintro ⟨c₁, t₁, ha, hb⟩
      obtain ⟨u, rfl, hu⟩ := iha.mp ha
      obtain ⟨v, rfl, hv⟩ := ihb.mp hb
      exact ⟨u ++ v, by rw [List.append_assoc], u, c₁, v, rfl, hu, hv⟩
    · rintro ⟨_, rfl, u, c₁, v, rfl, hu, hv⟩
      exact ⟨c₁, v ++ t, iha.mpr ⟨u, by rw [List.append_assoc], hu⟩, ihb.mpr ⟨v, rfl, hv⟩⟩
  | alt a b iha ihb =>
    simp only [paths, List.mem_append, match_alt_iff, iha, ihb]
    constructor
    · rintro (⟨w, hs, ha⟩ | ⟨w, hs, hb⟩)
      · exact ⟨w, hs, .inl ha⟩
      · exact ⟨w, hs, .inr hb⟩
    · rintro ⟨w, hs, ha | hb⟩
      · exact .inl ⟨w, hs, ha⟩
      · exact .inr ⟨w, hs, hb⟩
  | group index a ih =>
    simp only [paths, List.mem_map, Prod.exists, Prod.mk.injEq, match_group_iff]
    constructor
    · rintro ⟨c₁, t₁, ha, rfl, rfl⟩
      obtain ⟨w, rfl, hw⟩ := ih.mp ha
      exact ⟨w, rfl, c₁, hw, by simp⟩
    · rintro ⟨w, rfl, c₁, hw, rfl⟩
      exact ⟨c₁, t, ih.mpr ⟨w, rfl, hw⟩, by simp, rfl⟩
  | backref index =>
    simp only [paths, match_backref_iff]
    split
    · rename_i hp
      obtain ⟨rest, rfl⟩ := List.isPrefixOf_iff_prefix.mp hp
      rw [List.drop_left, List.mem_singleton, Prod.mk.injEq]
      constructor
      · rintro ⟨rfl, rfl⟩
        exact ⟨_, rfl, rfl, rfl⟩
      · rintro ⟨_, heq, rfl, rfl⟩
        exact ⟨rfl, (List.append_cancel_left heq).symm⟩
    · rename_i hp
      simp only [List.not_mem_nil, false_iff]
      rintro ⟨_, rfl, -, rfl⟩
      exact hp (List.isPrefixOf_iff_prefix.mpr (List.prefix_append _ _))

theorem fullMatch_iff {r : Regex} {s : Bytes} :
    r.fullMatch s = true ↔ ∃ c, Match r [] s c := by
  simp only [fullMatch, List.any_eq_true, Prod.exists, List.isEmpty_iff]
  constructor
  · rintro ⟨c, t, h, rfl⟩
    obtain ⟨w, rfl, hw⟩ := mem_paths.mp h
    exact ⟨c, by rwa [List.append_nil]⟩
  · rintro ⟨c, h⟩
    exact ⟨c, [], mem_paths.mpr ⟨s, by rw [List.append_nil], h⟩, rfl⟩

def groups : Regex → List Nat
  | seq a b => a.groups ++ b.groups
  | alt a b => a.groups ++ b.groups
  | group index a => index :: a.groups
  | _ => []

def refs : Regex → List Nat
  | seq a b => a.refs ++ b.refs
  | alt a b => a.refs ++ b.refs
  | group _ a => a.refs
  | backref index => [index]
  | _ => []

theorem Match.keeps {r : Regex} {c c' : Captures} {w : Bytes} (h : Match r c w c') {index : Nat}
    (hi : index ∉ r.groups) : c'.lookup index = c.lookup index := by
  induction h with
  | empty => rfl
  | cls => rfl
  | seq _ _ iha ihb =>
    rw [groups, List.mem_append, not_or] at hi
    rw [ihb hi.2, iha hi.1]
  | altLeft _ _ ih =>
    rw [groups, List.mem_append, not_or] at hi
    exact ih hi.1
  | altRight _ _ ih =>
    rw [groups, List.mem_append, not_or] at hi
    exact ih hi.2
  | group i _ ih =>
    rw [groups, List.mem_cons, not_or] at hi
    rw [List.lookup_cons, beq_eq_false_iff_ne.mpr hi.1]
    exact ih hi.2
  | backref => rfl

theorem Match.transfer {r : Regex} {c c' : Captures} {w : Bytes} (h : Match r c w c') {d : Captures}
    (hd : ∀ i ∈ r.refs, c.lookup i = d.lookup i) :
    ∃ d', Match r d w d' ∧ ∀ i, c.lookup i = d.lookup i → c'.lookup i = d'.lookup i := by
  induction h generalizing d with
  | empty => exact ⟨d, .empty d, fun _ hi => hi⟩
  | cls _ hx => exact ⟨d, .cls d hx, fun _ hi => hi⟩
  | seq _ _ iha ihb =>
    rw [refs, List.forall_mem_append] at hd
    obtain ⟨d₁, ha, h₁⟩ := iha hd.1
    obtain ⟨d₂, hb, h₂⟩ := ihb (fun i hi => h₁ i (hd.2 i hi))
    exact ⟨d₂, .seq ha hb, fun i hi => h₂ i (h₁ i hi)⟩
  | altLeft b _ ih =>
    rw [refs, List.forall_mem_append] at hd
    obtain ⟨d', ha, h'⟩ := ih hd.1
    exact ⟨d', .altLeft b ha, h'⟩
  | altRight a _ ih =>
    rw [refs, List.forall_mem_append] at hd
    obtain ⟨d', hb, h'⟩ := ih hd.2
    exact ⟨d', .altRight a hb, h'⟩
  | @group index a c c' w _ ih =>
    obtain ⟨d', ha, h'⟩ := ih hd
    refine ⟨(index, w) :: d', .group index ha, ?_⟩
    intro i hi
    rw [List.lookup_cons, List.lookup_cons, h' i hi]
  | backref index c =>
    have hindex := hd index (List.mem_singleton.mpr rfl)
    refine ⟨d, ?_, fun _ hi => hi⟩
    rw [hindex]
    exact .backref index d

end Regex
