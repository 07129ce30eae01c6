import QdsBuffer.DataSource.Unused

namespace QdsBuffer.DataSource
open RingBuffer Bytes

structure Cleared (s s' : DataSource) : Prop where
  buffer : entries s' = []
  references : ∀ d ∈ rows s, ∃ e, getReference d.ref s' = .error e ∧ e.kind = .ref
  names : ∀ ref data dataFormat, (setReference ref data dataFormat s').1 = .ok ()

theorem find_of_empty {s : DataSource} (h : rows s = []) (ref : Bytes) :
    s.refs.refMapping.find ref = none := by
  apply KeyedTable.find_eq_none.mpr
  intro d hd
  have hmem : d ∈ rows s := hd
  rw [h] at hmem
  cases hmem

theorem getReference_of_empty {s : DataSource} (h : rows s = []) (ref : Bytes) :
    ∃ e, getReference ref s = .error e ∧ e.kind = .ref := by
  simp only [getReference, find_of_empty h ref]
  exact ⟨_, rfl, rfl⟩

theorem setReference_of_empty {s : DataSource} (h : rows s = []) (ref data dataFormat : Bytes) :
    (setReference ref data dataFormat s).1 = .ok () := by
  simp only [setReference, find_of_empty h ref]

theorem cleared_iff {s s' : DataSource} (hb : entries s' = []) (hsub : ∀ d ∈ rows s', d ∈ rows s) :
    Cleared s s' ↔ rows s' = [] := by
  constructor
  · intro h
    apply List.eq_nil_iff_forall_not_mem.mpr
    intro d hd
    obtain ⟨e, he, -⟩ := h.references d (hsub d hd)
    rw [getReference_iff.mpr ⟨hd, rfl⟩] at he
    cases he
  · intro h
    exact ⟨hb, fun d _ => getReference_of_empty h d.ref, setReference_of_empty h⟩

theorem reset_clears_iff (cfg : Config) (clock : Nat → Nat) (files : Files) (ops : List Op)
    (reason : ResetReason) :
    let s := run cfg clock files ops
    Cleared s (reset cfg clock reason s) ↔ entries s ≠ [] ∨ rows s = [] := by
  intro s
  obtain ⟨hb, hrows⟩ := reset_effect cfg clock reason s
  rw [cleared_iff hb (fun d hd => ((hrows d).mp hd).1), List.eq_nil_iff_forall_not_mem]
  constructor
  · intro h
    rw [or_iff_not_imp_left, not_not]
    intro hempty
    exact List.eq_nil_iff_forall_not_mem.mpr (fun d hd => h d ((hrows d).mpr ⟨hd, hempty⟩))
  · rintro (hne | hnil) d hd
    · exact hne ((hrows d).mp hd).2
    · have hmem := ((hrows d).mp hd).1
      simp [hnil] at hmem

theorem reset_of_empty_keeps_reference :
    let s := run ⟨1, 0, true, 1, 1⟩ id (fun _ => none) [.setReference (ascii "r") (ascii "d") (ascii "f")]
    let s' := reset ⟨1, 0, true, 1, 1⟩ id .unknown s
    ¬ Cleared s s' ∧ (∃ d, getReference (ascii "r") s' = .ok d) ∧
      (setReference (ascii "r") (ascii "d") (ascii "f") s').1 ≠ .ok () := by
  intro s s'
  have hkept : getReference (ascii "r") s' = .ok ⟨0, ascii "r", ascii "f", ascii "d"⟩ := rfl
  refine ⟨?_, ⟨_, hkept⟩, by decide⟩
  intro h
  obtain ⟨e, he, -⟩ := h.references ⟨0, ascii "r", ascii "f", ascii "d"⟩ (List.mem_singleton.mpr rfl)
  rw [hkept] at he
  cases he

end QdsBuffer.DataSource
