import QdsBuffer.Parsing.Duplicates
import Mathlib.Data.List.Nodup

namespace QdsBuffer.Parsing
open Bytes

namespace DataValidator

def selected (o : List Member) : List Validator := o.filterMap (fun m => keyValidator m.key)

def Accepts (o : List Member) (m : Measurement) : Prop :=
  ∃ st, process ParsingState.initial (objectEvents o) = .ok st ∧ st.data = [m]

theorem eq_of_perm_of_length_le_one {α : Type} {l l' : List α} (h : l.Perm l')
    (hl : l.length ≤ 1) : l = l' := by
  match l, hl with
  | [], _ => exact h.nil_eq
  | [a], _ => exact List.singleton_perm.mp h

theorem values_length (v : Validator) (o : List Member) :
    (values v o).length = (selected o).count v := by
  induction o with
  | nil => rfl
  | cons m o ih =>
    rw [selected] at ih
    rw [values_cons, selected, List.filterMap_cons]
    cases hk : keyValidator m.key with
    | none => simpa using ih
    | some w =>
      rcases Decidable.em (w = v) with rfl | hw
      · simpa [List.count_cons] using ih
      · simpa [List.count_cons, hw] using ih

theorem values_perm {o o' : List Member} (h : o.Perm o') (v : Validator) :
    (values v o).Perm (values v o') :=
  (h.filter _).map _

theorem values_eq_of_perm {o o' : List Member} (hdistinct : (selected o).Nodup) (h : o.Perm o')
    (v : Validator) : values v o = values v o' := by
  apply eq_of_perm_of_length_le_one (values_perm h v)
  rw [values_length]
  exact List.nodup_iff_count_le_one.mp hdistinct v

theorem reads_of_perm {o o' : List Member} (hdistinct : (selected o).Nodup) (h : o.Perm o')
    {d d' : Measurement} : Reads d o d' ↔ Reads d o' d' := by
  have hv := values_eq_of_perm hdistinct h
  simp only [reads_iff, hv, h.mem_iff]

theorem accepts_of_perm {o o' : List Member} (hdistinct : (selected o).Nodup) (h : o.Perm o')
    (m : Measurement) : Accepts o m ↔ Accepts o' m := by
  change Yields (o.flatMap Member.events) m ↔ Yields (o'.flatMap Member.events) m
  rw [yields_members, yields_members, reads_of_perm hdistinct h]

theorem rejected_or_accepts (o : List Member) : Rejected o ∨ ∃ m, Accepts o m := by
  cases hp : process ParsingState.initial (objectEvents o) with
  | error e => exact .inl ⟨e, hp, process_kind hp⟩
  | ok st => exact .inr (yields_of_accepted (members_opens o) hp)

theorem not_rejected_of_accepts {o : List Member} {m : Measurement} (h : Accepts o m) :
    ¬ Rejected o := by
  rintro ⟨e, he, -⟩
  obtain ⟨st, hst, -⟩ := h
  rw [he] at hst
  cases hst

theorem member_order_irrelevant (o o' : List Member) (hdistinct : (selected o).Nodup)
    (hperm : o.Perm o') : (Rejected o ∧ Rejected o') ∨ ∃ m, Accepts o m ∧ Accepts o' m := by
  rcases rejected_or_accepts o with hr | ⟨m, hm⟩
  · rcases rejected_or_accepts o' with hr' | ⟨m, hm⟩
    · exact .inl ⟨hr, hr'⟩
    · exact absurd hr (not_rejected_of_accepts ((accepts_of_perm hdistinct hperm m).mpr hm))
  · exact .inr ⟨m, hm, (accepts_of_perm hdistinct hperm m).mp hm⟩

theorem member_order_irrelevant_reversed :
    let o := [stringMember "NAME" "a", stringMember "TYPE" "WORD", stringMember "VALUE" "00fF"]
    (Rejected o ∧ Rejected o.reverse) ∨ ∃ m, Accepts o m ∧ Accepts o.reverse m :=
  member_order_irrelevant _ _ (by decide) (List.reverse_perm _).symm

end DataValidator

end QdsBuffer.Parsing
