import QdsBuffer.DataSource.Invariant
import QdsBuffer.DataSource.SingleRef
import Mathlib.Data.Set.Basic

namespace QdsBuffer.References
open DataSource

def NamesBelow (r : References) : Prop :=
  ∀ x ∈ r.refMapping.rows, ∀ n, x.ref = generatedRef n → n < r.refCounter

theorem NamesBelow.fresh {r : References} (h : r.NamesBelow) : r.Fresh := by
  intro x hx he
  exact absurd (h x hx _ he) (Nat.lt_irrefl _)

end QdsBuffer.References

namespace QdsBuffer.DataSource
open RingBuffer Bytes

variable {cfg : Config} {clock : Nat → Nat}

def tablePairs (s : DataSource) : Set (Int × Bytes) :=
  {p | p.1 ≠ 0 ∧ HasPair (rows s) p.1 p.2}

def HasRef (b : List BufferEntry) (i : Int) (ref : Bytes) : Prop :=
  ∃ e ∈ b, e.id = i ∧ ref ∈ refValues e.measurements

def bufferPairs (s : DataSource) : Set (Int × Bytes) := {p | HasRef (entries s) p.1 p.2}

def GeneratedName (ref : Bytes) : Prop :=
  ref.take 4 = ascii "ref-" ∧ ref.drop 4 ≠ [] ∧ ∀ b ∈ ref.drop 4, isDigit b = true

instance : DecidablePred GeneratedName := fun _ => inferInstanceAs (Decidable (_ ∧ _ ∧ _))

def Admissible (s : DataSource) : Op → Prop
  | .setReference ref _ _ => ¬ GeneratedName ref
  | .add id json _ =>
    id ≠ 0 ∧ id ∉ ids (entries s) ∧ ∀ data, parse json = .ok data → refCount data ≤ 1
  | _ => True

def generates (cfg : Config) (clock : Nat → Nat) (s : DataSource) (op : Op) : Bool :=
  (step cfg clock s op).refs.refCounter ≠ s.refs.refCounter

structure Corresponds (cfg : Config) (s : DataSource) : Prop where
  wellFormed : WellFormed cfg.ring s.buffer
  nonzero : ∀ e ∈ entries s, e.id ≠ 0
  pairs : ∀ i ref, i ≠ 0 → (HasPair (rows s) i ref ↔ HasRef (entries s) i ref)
  names : s.refs.NamesBelow

theorem SingleCase.counter {id : Int} {data : List Measurement} {r : References}
    {p : Except Exception (List Measurement) × References} (hc : SingleCase id data r p) :
    p.2.refCounter = r.refCounter ∨ p.2.refCounter = (r.refCounter + 1) % 2 ^ 64 := by
  cases hc with
  | noRef => exact .inl rfl
  | bound => exact .inl rfl
  | loaded => exact .inr rfl
  | failed e r' hm hr =>
    rcases hr with rfl | rfl
    · exact .inl rfl
    · exact .inr rfl

theorem SingleCase.names {id : Int} {data : List Measurement} {r : References}
    {p : Except Exception (List Measurement) × References} (hc : SingleCase id data r p)
    (hlt : r.refCounter < 2 ^ 64)
    (hcount : p.2.refCounter ≠ r.refCounter → r.refCounter + 1 < 2 ^ 64) (h : r.NamesBelow) :
    p.2.NamesBelow := by
  have hnext : (r.refCounter + 1) % 2 ^ 64 ≠ r.refCounter := by omega
  cases hc with
  | noRef => exact h
  | bound value it hs hf hid =>
    intro x hx n he
    rcases mem_bind.mp hx with ⟨hm, -⟩ | ⟨y, hy, -, rfl⟩
    · exact h x hm n he
    · exact h y hy n he
  | loaded value buffer files data' hs hf hs' =>
    have hc : (r.refCounter + 1) % 2 ^ 64 = r.refCounter + 1 := Nat.mod_eq_of_lt (hcount hnext)
    intro x hx n he
    change n < (r.refCounter + 1) % 2 ^ 64
    rw [hc]
    rcases mem_loaded hx with hm | rfl
    · exact Nat.lt_succ_of_lt (h x hm n he)
    · exact Nat.lt_succ_of_le (Nat.le_of_eq (generatedRef_inj he).symm)
  | failed e r' hm hr =>
    intro x hx n he
    rw [hm] at hx
    rcases hr with rfl | rfl
    · exact h x hx n he
    · have hc : (r.refCounter + 1) % 2 ^ 64 = r.refCounter + 1 := Nat.mod_eq_of_lt (hcount hnext)
      change n < (r.refCounter + 1) % 2 ^ 64
      rw [hc]
      exact Nat.lt_succ_of_lt (h x hx n he)

theorem generatedName_generatedRef (n : Nat) : GeneratedName (generatedRef n) :=
  ⟨rfl, decimal_ne_nil n, fun _ hb => decimal_digit hb⟩

theorem hasRef_filter {b b' : List BufferEntry} {P : Int → Prop}
    (h : ∀ e, e ∈ b' ↔ e ∈ b ∧ P e.id) (i : Int) (ref : Bytes) :
    HasRef b' i ref ↔ HasRef b i ref ∧ P i := by
  constructor
  · rintro ⟨e, he, rfl, hv⟩
    exact ⟨⟨e, ((h e).mp he).1, rfl, hv⟩, ((h e).mp he).2⟩
  · rintro ⟨⟨e, he, rfl, hv⟩, hp⟩
    exact ⟨e, (h e).mpr ⟨he, hp⟩, rfl, hv⟩

theorem hasRef_append {b c : List BufferEntry} {i : Int} {ref : Bytes} :
    HasRef (b ++ c) i ref ↔ HasRef b i ref ∨ HasRef c i ref := by
  simp only [HasRef, List.mem_append, or_and_right, exists_or]

theorem hasRef_singleton {id : Int} {ms : List Measurement} {t : Nat} {locked : Bool} {i : Int}
    {ref : Bytes} : HasRef [⟨id, ms, t, locked⟩] i ref ↔ i = id ∧ ref ∈ refValues ms := by
  simp only [HasRef, List.mem_singleton, exists_eq_left, eq_comm]

theorem hasRef_modify_locked {b : List BufferEntry} {index : Nat} {locked : Bool} {i : Int}
    {ref : Bytes} :
    HasRef (b.modify index (fun e => { e with locked := locked })) i ref ↔ HasRef b i ref := by
  have hmap : ∀ c : List BufferEntry, HasRef c i ref ↔
      ∃ p ∈ c.map (fun e => (e.id, e.measurements)), p.1 = i ∧ ref ∈ refValues p.2 := by
    intro c
    simp [HasRef]
  rw [hmap, hmap, map_modify_locked _ (fun _ _ => rfl)]

theorem HasRef.stored {b : List BufferEntry} {i : Int} {ref : Bytes} (h : HasRef b i ref) :
    i ∈ ids b := by
  obtain ⟨e, he, hi, -⟩ := h
  exact mem_ids.mpr ⟨e, he, hi⟩

theorem Corresponds.initial (files : Files) : Corresponds cfg (initial files) where
  wellFormed := initial_wellFormed
  nonzero := by simp
  pairs := by simp [HasPair, HasRef]
  names := by simp [References.NamesBelow, DataSource.initial, KeyedTable.empty]

theorem push_pairs {s : DataSource} {id : Int} {ms : List Measurement}
    (h : WellFormed cfg.ring s.buffer) (hid : id ∉ ids (entries s))
    (hp : ∀ i ref, i ≠ 0 →
      (HasPair (rows s) i ref ↔ HasRef (entries s) i ref ∨ (i = id ∧ ref ∈ refValues ms)))
    (i : Int) (ref : Bytes) (hi : i ≠ 0) :
    HasPair (rows (pushMeasurements cfg clock id ms s).2) i ref ↔
      HasRef (entries (pushMeasurements cfg clock id ms s).2) i ref := by
  have hrem := hasRef_filter (P := fun j => ∀ v ∈ victim cfg.ring (entries s), j ≠ v.id)
    (fun e => mem_remaining (b := entries s) h.order.nodup (e := e)) i ref
  by_cases hr : Refuses cfg.ring (entries s) id
  · obtain ⟨-, he, hrows⟩ := push_refused_effect clock ms h hr
    rw [hasPair_filter (P := fun j => j ≠ id ∧ ∀ v ∈ victim cfg.ring (entries s), j ≠ v.id) hrows,
      he, hrem, hp i ref hi]
    constructor
    · rintro ⟨hl | ⟨heq, -⟩, hne, hv⟩
      · exact ⟨hl, hv⟩
      · exact absurd heq hne
    · rintro ⟨hl, hv⟩
      refine ⟨.inl hl, ?_, hv⟩
      rintro rfl
      exact hid hl.stored
  · obtain ⟨-, ⟨t, he⟩, hrows⟩ := push_accepted_effect clock ms h hr
    have hnot : id ∉ ids (remaining cfg.ring (entries s)) := fun hm =>
      hid (((remaining_sublist cfg.ring (entries s)).map _).subset hm)
    have hnone : ∀ e ∈ remaining cfg.ring (entries s), e.id ≠ id := fun e hm heq =>
      hnot (mem_ids.mpr ⟨e, hm, heq⟩)
    have hrows' : ∀ d, d ∈ rows (pushMeasurements cfg clock id ms s).2 ↔
        d ∈ rows s ∧ ∀ v ∈ victim cfg.ring (entries s), d.id ≠ v.id := by
      intro d
      rw [hrows d]
      simp [hnot]
    rw [hasPair_filter (P := fun j => ∀ v ∈ victim cfg.ring (entries s), j ≠ v.id) hrows',
      he, eraseP_hasId_of_none hnone, hasRef_append, hasRef_singleton, hrem, hp i ref hi]
    constructor
    · rintro ⟨hl | hnew, hv⟩
      · exact .inl ⟨hl, hv⟩
      · exact .inr hnew
    · rintro (⟨hl, hv⟩ | ⟨rfl, hm⟩)
      · exact ⟨.inl hl, hv⟩
      · refine ⟨.inr ⟨rfl, hm⟩, ?_⟩
        intro v hv heq
        exact hid (mem_ids.mpr ⟨v, (victim_mem hv).1, heq.symm⟩)

theorem push_entry {s : DataSource} {id : Int} {ms : List Measurement}
    (h : WellFormed cfg.ring s.buffer) {e : BufferEntry}
    (he : e ∈ entries (pushMeasurements cfg clock id ms s).2) :
    e ∈ entries s ∨ (e.id = id ∧ e.measurements = ms) := by
  by_cases hr : Refuses cfg.ring (entries s) id
  · rw [(push_refused_effect clock ms h hr).2.1] at he
    exact .inl ((remaining_sublist _ _).subset he)
  · obtain ⟨-, ⟨t, hb⟩, -⟩ := push_accepted_effect clock ms h hr
    rw [hb, List.mem_append, List.mem_singleton] at he
    rcases he with he | rfl
    · exact .inl ((remaining_sublist _ _).subset (List.mem_of_mem_eraseP he))
    · exact .inr ⟨rfl, rfl⟩

theorem NamesBelow_mono {r r' : References} (h : r.NamesBelow)
    (hr : ∀ x ∈ r'.refMapping.rows, x ∈ r.refMapping.rows) (hc : r'.refCounter = r.refCounter) :
    r'.NamesBelow := fun x hx n he => hc ▸ h x (hr x hx) n he

theorem push_corresponds {s : DataSource} {id : Int} {ms : List Measurement}
    (h : WellFormed cfg.ring s.buffer) (hz : ∀ e ∈ entries s, e.id ≠ 0)
    (hp : ∀ i ref, i ≠ 0 →
      (HasPair (rows s) i ref ↔ HasRef (entries s) i ref ∨ (i = id ∧ ref ∈ refValues ms)))
    (hn : s.refs.NamesBelow) (h0 : id ≠ 0) (hid : id ∉ ids (entries s)) :
    Corresponds cfg (pushMeasurements cfg clock id ms s).2 where
  wellFormed := by
    rw [(pushMeasurements_frame id ms s).1]
    exact push_wellFormed h
  nonzero := by
    intro e he
    rcases push_entry h he with hm | ⟨heq, -⟩
    · exact hz e hm
    · exact heq ▸ h0
  pairs := push_pairs h hid hp
  names := NamesBelow_mono hn (fun _ hx => pushMeasurements_rows hx) (pushMeasurements_frame id ms s).2

theorem add_corresponds {s : DataSource} {id : Int} {json : Parsing.JsonParser.Delivery}
    {access : Nat → FileAccess} (hok : Admissible s (.add id json access))
    (hlt : s.refs.refCounter < 2 ^ 64)
    (hcount : (add cfg clock id json access s).2.refs.refCounter ≠ s.refs.refCounter →
      s.refs.refCounter + 1 < 2 ^ 64)
    (h : Corresponds cfg s) : Corresponds cfg (add cfg clock id json access s).2 := by
  obtain ⟨h0, hid, hone⟩ := hok
  have hc := add_case cfg clock id json access s
  generalize add cfg clock id json access s = p at hc hcount
  cases hc with
  | parseError => exact h
  | refError data e refs hd hr =>
    have hs := single_case id access s.refs (hone data hd)
    rw [hr] at hs
    have hn := hs.names hlt hcount h.names
    cases hs with
    | failed _ _ hm hcnt =>
      refine ⟨h.wellFormed, h.nonzero, ?_, hn⟩
      simpa only [rows, hm] using h.pairs
  | pushed data ms refs hd hr =>
    have hs := single_case id access s.refs (hone data hd)
    rw [hr] at hs
    rw [(pushMeasurements_frame id ms _).2] at hcount
    have hn := hs.names hlt hcount h.names
    refine push_corresponds h.wellFormed h.nonzero ?_ hn h0 hid
    intro i ref hi
    rw [← h.pairs i ref hi]
    exact hs.pairs h.names.fresh i ref hi

theorem setReference_corresponds {s : DataSource} {ref data dataFormat : Bytes}
    (hok : Admissible s (.setReference ref data dataFormat)) (h : Corresponds cfg s) :
    Corresponds cfg (setReference ref data dataFormat s).2 := by
  unfold setReference
  cases hf : s.refs.refMapping.find ref with
  | some it => exact h
  | none =>
    have hmem : ∀ x, x ∈ (s.refs.refMapping.emplace ⟨0, ref, dataFormat, data⟩).rows ↔
        x = ⟨0, ref, dataFormat, data⟩ ∨ x ∈ rows s :=
      fun x => KeyedTable.mem_emplace (KeyedTable.find_eq_none.mp hf)
    refine ⟨h.wellFormed, h.nonzero, ?_, ?_⟩
    · intro i r hi
      rw [← h.pairs i r hi]
      constructor
      · rintro ⟨x, hx, rfl, rfl⟩
        rcases (hmem x).mp hx with rfl | hm
        · exact absurd rfl hi
        · exact ⟨x, hm, rfl, rfl⟩
      · rintro ⟨x, hx, rfl, rfl⟩
        exact ⟨x, (hmem x).mpr (.inr hx), rfl, rfl⟩
    · intro x hx n he
      rcases (hmem x).mp hx with rfl | hm
      · have hname : ref = generatedRef n := he
        exact absurd (hname ▸ generatedName_generatedRef n) hok
      · exact h.names x hm n he

theorem delete_corresponds {s : DataSource} {id : Int} (h : Corresponds cfg s) :
    Corresponds cfg (delete cfg id s) := by
  obtain ⟨he, hr⟩ := delete_effect id h.wellFormed
  have hframe := callbacks_frame cfg (RingBuffer.delete cfg.ring id s.buffer).2
    { s with buffer := (RingBuffer.delete cfg.ring id s.buffer).1 }
  have hmem : ∀ e, e ∈ entries (delete cfg id s) ↔ e ∈ entries s ∧ e.id ≠ id := by
    intro e
    rw [he]
    exact mem_eraseP_hasId h.wellFormed.order.nodup
  refine ⟨ring_invariant (fun n => n) s (.delete id) h.wellFormed, ?_, ?_, ?_⟩
  · exact fun e hm => h.nonzero e ((hmem e).mp hm).1
  · intro i ref hi
    rw [hasPair_filter (P := fun j => id ∈ ids (entries s) → j ≠ id) hr,
      hasRef_filter (P := fun j => j ≠ id) hmem, h.pairs i ref hi]
    constructor
    · rintro ⟨hl, hne⟩
      refine ⟨hl, ?_⟩
      rintro rfl
      exact hne hl.stored rfl
    · rintro ⟨hl, hne⟩
      exact ⟨hl, fun _ => hne⟩
  · exact NamesBelow_mono h.names (fun x hx => ((hr x).mp hx).1) hframe.2.1

theorem reset_corresponds {s : DataSource} {reason : ResetReason} (h : Corresponds cfg s) :
    Corresponds cfg (reset cfg clock reason s) := by
  obtain ⟨he, hr⟩ := reset_effect cfg clock reason s
  have hframe := callbacks_frame cfg (RingBuffer.reset cfg.ring clock reason s.buffer).2.2
    { s with buffer := (RingBuffer.reset cfg.ring clock reason s.buffer).2.1 }
  refine ⟨ring_invariant clock s (.reset reason) h.wellFormed, ?_, ?_, ?_⟩
  · simp [he]
  · intro i ref hi
    rw [he, hasPair_filter (P := fun _ => entries s = []) hr, h.pairs i ref hi]
    constructor
    · rintro ⟨hl, hn⟩
      rwa [hn] at hl
    · rintro ⟨e, hm, -⟩
      exact absurd hm List.not_mem_nil
  · exact NamesBelow_mono h.names (fun x hx => ((hr x).mp hx).1) hframe.2.1

theorem step_corresponds {s : DataSource} {op : Op} (hok : Admissible s op)
    (hlt : s.refs.refCounter < 2 ^ 64)
    (hcount : generates cfg clock s op = true → s.refs.refCounter + 1 < 2 ^ 64)
    (h : Corresponds cfg s) : Corresponds cfg (step cfg clock s op) := by
  cases op with
  | setReference ref data dataFormat => exact setReference_corresponds hok h
  | add id json access =>
    exact add_corresponds hok hlt (fun hne => hcount (decide_eq_true hne)) h
  | delete id => exact delete_corresponds h
  | reset reason => exact reset_corresponds h
  | acknowledgeReset => exact ⟨h.wellFormed, h.nonzero, h.pairs, h.names⟩
  | acknowledgeOverflow => exact ⟨h.wellFormed, h.nonzero, h.pairs, h.names⟩
  | changeFiles files => exact ⟨h.wellFormed, h.nonzero, h.pairs, h.names⟩
  | setLocked index locked =>
    refine ⟨ring_invariant clock s (.setLocked index locked) h.wellFormed, ?_, ?_, h.names⟩
    · intro e he h0
      obtain ⟨e', he', hid, -⟩ := exists_of_mem_modify_locked he
      exact h.nonzero e' he' (hid.trans h0)
    · intro i ref hi
      exact (h.pairs i ref hi).trans hasRef_modify_locked.symm

theorem step_counter (cfg : Config) (clock : Nat → Nat) {s : DataSource} {op : Op} (hok : Admissible s op) :
    (step cfg clock s op).refs.refCounter ≤
      s.refs.refCounter + if generates cfg clock s op then 1 else 0 := by
  have hor : (step cfg clock s op).refs.refCounter = s.refs.refCounter ∨
      (step cfg clock s op).refs.refCounter = (s.refs.refCounter + 1) % 2 ^ 64 := by
    cases op with
    | add id json access =>
      have hc := add_case cfg clock id json access s
      simp only [step]
      generalize add cfg clock id json access s = p at hc
      cases hc with
      | parseError => exact .inl rfl
      | refError data e refs hd hr => simpa [hr] using (single_case id access s.refs (hok.2.2 data hd)).counter
      | pushed data ms refs hd hr =>
        rw [(pushMeasurements_frame id ms _).2]
        simpa [hr] using (single_case id access s.refs (hok.2.2 data hd)).counter
    | setReference ref data dataFormat =>
      simp only [step, setReference]
      split <;> exact .inl rfl
    | delete id => exact .inl (callbacks_frame cfg _ _).2.1
    | reset reason => exact .inl (callbacks_frame cfg _ _).2.1
    | acknowledgeReset => exact .inl rfl
    | acknowledgeOverflow => exact .inl rfl
    | setLocked index locked => exact .inl rfl
    | changeFiles files => exact .inl rfl
  by_cases hg : generates cfg clock s op = true
  · simp only [hg, ↓reduceIte]
    omega
  · have heq : (step cfg clock s op).refs.refCounter = s.refs.refCounter := by
      simpa [generates] using hg
    omega

theorem run_corresponds {ops : List Op} {s : DataSource}
    (hok : Runs.Along (step cfg clock) Admissible s ops)
    (hcount : s.refs.refCounter + Runs.count (step cfg clock) (generates cfg clock) s ops < 2 ^ 64)
    (h : Corresponds cfg s) : Corresponds cfg (Runs.run (step cfg clock) s ops) := by
  induction ops generalizing s with
  | nil => exact h
  | cons op ops ih =>
    obtain ⟨hop, hrest⟩ := hok
    simp only [Runs.count] at hcount
    have hle := step_counter cfg clock hop
    refine ih hrest (by omega) (step_corresponds hop (by omega) ?_ h)
    intro hg
    simp only [hg, ↓reduceIte] at hcount
    omega

theorem table_matches_buffer (cfg : Config) (clock : Nat → Nat) (files : Files) (ops : List Op)
    (hok : Runs.Along (step cfg clock) Admissible (initial files) ops)
    (hcount : Runs.count (step cfg clock) (generates cfg clock) (initial files) ops < 2 ^ 64) :
    tablePairs (run cfg clock files ops) = bufferPairs (run cfg clock files ops) := by
  have h0 : (initial files).refs.refCounter = 0 := rfl
  have h := run_corresponds hok (by omega) (Corresponds.initial files)
  ext ⟨i, ref⟩
  constructor
  · rintro ⟨hi, hp⟩
    exact (h.pairs i ref hi).mp hp
  · intro hr
    have hi : i ≠ 0 := by
      obtain ⟨e, he, rfl, -⟩ := hr
      exact h.nonzero e he
    exact ⟨hi, (h.pairs i ref hi).mpr hr⟩

-- The second Add evicts, the third finds room, the last names no reference.
theorem table_matches_buffer_evicting :
    let access : Nat → FileAccess := fun _ => ⟨true, true, true, true⟩
    let ops : List Op := [.setReference (ascii "r") [] [], .add 1 (refDocument (ascii "r")) access,
      .setReference (ascii "s") [] [], .add 2 (refDocument (ascii "s")) access, .delete 2,
      .setReference (ascii "t") [] [], .add 3 (refDocument (ascii "t")) access,
      .add 4 (refDocument (ascii "x")) access]
    tablePairs (run ⟨1, 0, true, 0, 1⟩ id (fun _ => none) ops) =
      bufferPairs (run ⟨1, 0, true, 0, 1⟩ id (fun _ => none) ops) := by
  have hr : ¬GeneratedName (ascii "r") := by decide
  have hs : ¬GeneratedName (ascii "s") := by decide
  have ht : ¬GeneratedName (ascii "t") := by decide
  exact table_matches_buffer _ _ _ _
    ⟨hr, ⟨by decide, by decide, refCount_refDocument _⟩, hs,
      ⟨by decide, by decide, refCount_refDocument _⟩, trivial, ht,
      ⟨by decide, by decide, refCount_refDocument _⟩,
      ⟨by decide, by decide, refCount_refDocument _⟩, trivial⟩ (by decide)

end QdsBuffer.DataSource
