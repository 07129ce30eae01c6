import QdsBuffer.DataSource.Invariant

namespace QdsBuffer.DataSource
open RingBuffer Bytes

variable {cfg : Config} {clock : Nat → Nat}

def Retrieves (ref data dataFormat : Bytes) (s : DataSource) : Prop :=
  ∃ d, getReference ref s = .ok d ∧ d.content = data ∧ d.format = dataFormat

def LeavesUnused (ref : Bytes) : Op → Prop
  | .add _ json _ => ∀ data, parse json = .ok data → ref ∉ refValues data
  | .reset _ => False
  | _ => True

def ErasesUnassigned (cfg : Config) (s : DataSource) : Op → Prop
  | .add id json access =>
    reachesPush s id json access = true ∧
      ((∃ v ∈ victim cfg.ring (entries s), v.id = 0) ∨
        (id = 0 ∧ (Refuses cfg.ring (entries s) 0 ∨ Replaces cfg.ring (entries s) 0)))
  | .delete id => id = 0 ∧ 0 ∈ ids (entries s)
  | _ => False

theorem getReference_iff {ref : Bytes} {s : DataSource} {d : ReferenceData} :
    getReference ref s = .ok d ↔ d ∈ rows s ∧ d.ref = ref := by
  rw [rows, ← KeyedTable.find_eq_some, getReference]
  cases s.refs.refMapping.find ref with
  | none => simp
  | some x => simp

theorem not_retrieves_of_erased {t : ReferenceContainer} {s : DataSource} {x : ReferenceData}
    (hx : x ∈ t.rows) (hsub : ∀ d ∈ rows s, d ∈ t.rows) (hgone : x ∉ rows s)
    (data dataFormat : Bytes) : ¬ Retrieves x.ref data dataFormat s := by
  rintro ⟨d, hd, -, -⟩
  obtain ⟨hm, href⟩ := getReference_iff.mp hd
  have hdx : d = x := KeyedTable.eq_of_key (hsub d hm) hx href
  exact hgone (hdx ▸ hm)

theorem push_keeps_unassigned (clock : Nat → Nat) (id : Int) (ms : List Measurement) {s : DataSource}
    (hwf : WellFormed cfg.ring s.buffer) {x : ReferenceData} (hx : x ∈ rows s) (h0 : x.id = 0) :
    x ∈ rows (pushMeasurements cfg clock id ms s).2 ↔
      ¬ ((∃ v ∈ victim cfg.ring (entries s), v.id = 0) ∨
        (id = 0 ∧ (Refuses cfg.ring (entries s) 0 ∨ Replaces cfg.ring (entries s) 0))) := by
  have hv : (∀ v ∈ victim cfg.ring (entries s), x.id ≠ v.id) ↔
      ¬ ∃ v ∈ victim cfg.ring (entries s), v.id = 0 := by
    rw [h0]
    constructor
    · rintro h ⟨v, hm, hz⟩
      exact h v hm hz.symm
    · intro h v hm hz
      exact h ⟨v, hm, hz.symm⟩
  rw [not_or]
  by_cases hr : Refuses cfg.ring (entries s) id
  · rw [(push_refused_effect clock ms hwf hr).2.2 x, hv]
    constructor
    · rintro ⟨-, hne, hnv⟩
      exact ⟨hnv, fun hz => hne (h0.trans hz.1.symm)⟩
    · rintro ⟨hnv, hn⟩
      refine ⟨hx, ?_, hnv⟩
      intro heq
      have hz : id = 0 := heq.symm.trans h0
      exact hn ⟨hz, .inl (hz ▸ hr)⟩
  · rw [(push_accepted_effect clock ms hwf hr).2.2 x, hv]
    constructor
    · rintro ⟨-, hne, hnv⟩
      refine ⟨hnv, ?_⟩
      rintro ⟨rfl, hn | hrep⟩
      · exact hr hn
      · exact hne ((replaces_iff hwf.order).mp hrep).2 h0
    · rintro ⟨hnv, hn⟩
      refine ⟨hx, ?_, hnv⟩
      intro hm heq
      have hz : id = 0 := heq.symm.trans h0
      subst hz
      exact hn ⟨rfl, .inr ((replaces_iff hwf.order).mpr ⟨hr, hm⟩)⟩

theorem step_unassigned (clock : Nat → Nat) {s : DataSource} {op : Op} {x : ReferenceData}
    (hunused : LeavesUnused x.ref op) (hwf : WellFormed cfg.ring s.buffer) (hx : x ∈ rows s)
    (h0 : x.id = 0) :
    (¬ ErasesUnassigned cfg s op → x ∈ rows (step cfg clock s op)) ∧
    (ErasesUnassigned cfg s op →
      ∀ data dataFormat, ¬ Retrieves x.ref data dataFormat (step cfg clock s op)) := by
  cases op with
  | setReference ref data dataFormat =>
    refine ⟨fun _ => ?_, fun h => h.elim⟩
    simp only [step, setReference]
    cases hf : s.refs.refMapping.find ref with
    | some it => exact hx
    | none => exact (KeyedTable.mem_emplace (KeyedTable.find_eq_none.mp hf)).mpr (.inr hx)
  | add id json access =>
    have hc := add_case cfg clock id json access s
    simp only [step, ErasesUnassigned]
    generalize add cfg clock id json access s = p at hc
    cases hc with
    | parseError e hd =>
      rw [not_reachesPush_of_parseError hd]
      exact ⟨fun _ => hx, fun h => by cases h.1⟩
    | refError data e refs hd hp =>
      rw [not_reachesPush_of_refError hd hp]
      exact ⟨fun _ => processRefMapping_keeps hp hx (.inr (hunused data hd)), fun h => by cases h.1⟩
    | pushed data ms refs hd hp =>
      have hmem : x ∈ rows { s with refs := refs } :=
        processRefMapping_keeps hp hx (.inr (hunused data hd))
      have hiff := push_keeps_unassigned (s := { s with refs := refs }) clock id ms hwf hmem h0
      rw [reachesPush_of_pushed hd hp]
      simp only [true_and]
      refine ⟨hiff.mpr, ?_⟩
      intro herase
      exact not_retrieves_of_erased hmem (fun _ => pushMeasurements_rows) (fun hm => hiff.mp hm herase)
  | delete id =>
    have hr := (delete_effect id hwf).2
    refine ⟨?_, ?_⟩
    · intro hn
      refine (hr x).mpr ⟨hx, fun hm heq => hn ⟨heq.symm.trans h0, ?_⟩⟩
      rwa [← heq, h0] at hm
    · rintro ⟨rfl, hm⟩
      refine not_retrieves_of_erased hx (fun d hd => ((hr d).mp hd).1) ?_
      exact fun hk => ((hr x).mp hk).2 hm h0
  | reset reason => exact hunused.elim
  | acknowledgeReset => exact ⟨fun _ => hx, fun h => h.elim⟩
  | acknowledgeOverflow => exact ⟨fun _ => hx, fun h => h.elim⟩
  | setLocked index locked => exact ⟨fun _ => hx, fun h => h.elim⟩
  | changeFiles files => exact ⟨fun _ => hx, fun h => h.elim⟩

theorem setReference_ok {ref data dataFormat : Bytes} {s : DataSource}
    (h : (setReference ref data dataFormat s).1 = .ok ()) :
    ⟨0, ref, dataFormat, data⟩ ∈ rows (setReference ref data dataFormat s).2 := by
  unfold setReference at h ⊢
  cases hf : s.refs.refMapping.find ref with
  | some it => simp [hf] at h
  | none => exact (KeyedTable.mem_emplace (KeyedTable.find_eq_none.mp hf)).mpr (.inl rfl)

theorem unused_reference_kept_iff (cfg : Config) (clock : Nat → Nat) (files : Files)
    (before after : List Op) (ref data dataFormat : Bytes)
    (hset : (setReference ref data dataFormat (run cfg clock files before)).1 = .ok ())
    (hunused : ∀ op ∈ after, LeavesUnused ref op) :
    let s := (setReference ref data dataFormat (run cfg clock files before)).2
    (∀ n, Retrieves ref data dataFormat (Runs.run (step cfg clock) s (after.take n))) ↔
      Runs.Along (step cfg clock) (fun s op => ¬ ErasesUnassigned cfg s op) s after := by
  intro s
  let x : ReferenceData := ⟨0, ref, dataFormat, data⟩
  have hwf : WellFormed cfg.ring s.buffer :=
    ring_invariant clock _ (.setReference ref data dataFormat) (run_wellFormed cfg clock files before)
  refine Runs.always_iff_along (K := fun s => WellFormed cfg.ring s.buffer ∧ x ∈ rows s) ?_ ?_
    (Runs.along_of_forall hunused) ⟨hwf, setReference_ok hset⟩
  · rintro s ⟨-, hx⟩
    exact ⟨x, getReference_iff.mpr ⟨hx, rfl⟩, rfl, rfl⟩
  · rintro s op hop ⟨hwf, hx⟩
    obtain ⟨hkeep, hlose⟩ := step_unassigned (x := x) clock hop hwf hx rfl
    exact ⟨fun hn => ⟨ring_invariant clock s op hwf, hkeep hn⟩, fun he => hlose he data dataFormat⟩

theorem unused_reference_lost :
    let cfg : Config := ⟨2, 0, true, 0, 1⟩
    let s := run cfg id (fun _ => none) [.setReference (ascii "r") (ascii "d") (ascii ".f")]
    let after := [.add 0 emptyDocument (fun _ => ⟨true, true, true, true⟩), .delete 0]
    Retrieves (ascii "r") (ascii "d") (ascii ".f") s ∧
      ¬ ∀ n, Retrieves (ascii "r") (ascii "d") (ascii ".f") (Runs.run (step cfg id) s (after.take n)) := by
  refine ⟨⟨⟨0, ascii "r", ascii ".f", ascii "d"⟩, by decide, rfl, rfl⟩, ?_⟩
  intro h
  obtain ⟨d, hd, -, -⟩ := h 2
  cases hd

theorem unused_reference_kept_iff_delete :
    let cfg : Config := ⟨2, 0, true, 0, 1⟩
    let s := (setReference (ascii "r") (ascii "d") (ascii ".f") (run cfg id (fun _ => none) [])).2
    (∀ n, Retrieves (ascii "r") (ascii "d") (ascii ".f")
      (Runs.run (step cfg id) s ([.delete 0, .delete 1].take n))) ↔
      Runs.Along (step cfg id) (fun s op => ¬ ErasesUnassigned cfg s op) s [.delete 0, .delete 1] := by
  apply unused_reference_kept_iff _ _ _ [] _ _ _ _ rfl
  intro op hop
  rcases List.mem_pair.mp hop with rfl | rfl
  · trivial
  · trivial

end QdsBuffer.DataSource
