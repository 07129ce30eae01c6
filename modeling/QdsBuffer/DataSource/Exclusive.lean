import QdsBuffer.DataSource.Assigned

namespace QdsBuffer.DataSource
open RingBuffer Bytes

variable {cfg : Config} {clock : Nat → Nat}

def OneReference : Op → Prop
  | .add _ json _ => ∀ data, parse json = .ok data → refCount data ≤ 1
  | _ => True

-- An Add that is refused does not take the references of a stored entry with it, and one that is
-- stored assigns a reference to a new id other than 0 and loads a file under a new name.
def AssignsOnce (cfg : Config) (s : DataSource) : Op → Prop
  | .add id json access =>
    ∀ data, parse json = .ok data → reachesPush s id json access = true →
      (Refuses cfg.ring (entries s) id →
        ∀ e ∈ remaining cfg.ring (entries s), e.id = id → refValues e.measurements = []) ∧
      (¬ Refuses cfg.ring (entries s) id → ∀ value ∈ refValues data,
        id ≠ 0 ∧ id ∉ ids (entries s) ∧ (s.refs.refMapping.find value = none → s.refs.Fresh))
  | _ => True

theorem add_assigned {s : DataSource} {id : Int} {json : Parsing.JsonParser.Delivery}
    {access : Nat → FileAccess} (hone : OneReference (.add id json access))
    (hok : AssignsOnce cfg s (.add id json access)) (hwf : WellFormed cfg.ring s.buffer)
    (h : Assigned (entries s) (rows s)) :
    Assigned (entries (add cfg clock id json access s).2)
      (rows (add cfg clock id json access s).2) := by
  have hkeep : ∀ {data res refs}, processRefMapping id access data s.refs = (res, refs) →
      Assigned (entries s) refs.refMapping.rows := fun hp =>
    assigned_mono h (fun _ he => he) (fun _ _ d hd _ h0 => processRefMapping_keeps hp hd (.inl h0))
  have hc := add_case cfg clock id json access s
  generalize add cfg clock id json access s = p at hc
  cases hc with
  | parseError => exact h
  | refError data e refs hd hp => exact hkeep hp
  | pushed data ms refs hd hp =>
    obtain ⟨hrefused, haccepted⟩ := hok data hd (reachesPush_of_pushed hd hp)
    have hs := single_case id access s.refs (hone data hd)
    rw [hp] at hs
    refine push_assigned (s := { s with refs := refs }) clock hwf (hkeep hp) hrefused ?_
    intro hr ref href
    have hacc := haccepted hr
    obtain ⟨hne, hpair⟩ := hs.newPair (fun value hv => (hacc value hv).2.2) ref href
    obtain ⟨value, hv⟩ := List.exists_mem_of_ne_nil _ hne
    exact ⟨(hacc value hv).1, (hacc value hv).2.1, hpair⟩

theorem step_assigned {s : DataSource} {op : Op} (hone : OneReference op)
    (hok : AssignsOnce cfg s op) (hwf : WellFormed cfg.ring s.buffer)
    (h : Assigned (entries s) (rows s)) :
    Assigned (entries (step cfg clock s op)) (rows (step cfg clock s op)) := by
  cases op with
  | add id json access => exact add_assigned hone hok hwf h
  | _ => exact step_assigned_of_not_add clock not_false hwf h

theorem references_exclusive (cfg : Config) (clock : Nat → Nat) (files : Files) (ops : List Op)
    (hok : Runs.Along (step cfg clock) (fun s op => OneReference op ∧ AssignsOnce cfg s op)
      (initial files) ops) :
    Exclusive (entries (run cfg clock files ops)) := by
  have hstep : ∀ (s : DataSource) op, OneReference op ∧ AssignsOnce cfg s op →
      WellFormed cfg.ring s.buffer ∧ Assigned (entries s) (rows s) →
      WellFormed cfg.ring (step cfg clock s op).buffer ∧
        Assigned (entries (step cfg clock s op)) (rows (step cfg clock s op)) :=
    fun s op hop hi =>
      ⟨ring_invariant clock s op hi.1, step_assigned hop.1 hop.2 hi.1 hi.2⟩
  have hinitial : Assigned (entries (initial files)) (rows (initial files)) := by
    simp [Assigned]
  obtain ⟨hwf, ha⟩ := Runs.run_invariant_along hstep hok ⟨initial_wellFormed, hinitial⟩
  exact ha.exclusive hwf.order.nodup

theorem reference_shared_by_two :
    ¬ Exclusive (entries (run ⟨2, 0, true, 0, 1⟩ id (fun _ => none)
      [.setReference (ascii "r") [] [], .add 0 (refDocument (ascii "r")) (fun _ => ⟨true, true, true, true⟩),
        .add 1 (refDocument (ascii "r")) (fun _ => ⟨true, true, true, true⟩)])) := by
  intro h
  exact h ⟨0, [⟨ascii "a", .ref, [], .string (ascii "r")⟩], 0, false⟩ (by decide)
    ⟨1, [⟨ascii "a", .ref, [], .string (ascii "r")⟩], 1, false⟩ (by decide) (by decide)
    (ascii "r") (by decide) (by decide)

theorem assignsOnce_refDocument {s : DataSource} {id : Int} {ref : Bytes} {access : Nat → FileAccess}
    (h0 : id ≠ 0) (hkept : ∀ e ∈ remaining cfg.ring (entries s), e.id ≠ id)
    (hnew : id ∉ ids (entries s)) (hfresh : s.refs.refMapping.find ref = none → s.refs.Fresh) :
    AssignsOnce cfg s (.add id (refDocument ref) access) := by
  intro data hd _
  rw [parse_refDocument] at hd
  cases hd
  refine ⟨fun _ e he heq => absurd heq (hkept e he), fun _ value hv => ?_⟩
  rw [List.mem_singleton.mp hv]
  exact ⟨h0, hnew, hfresh⟩

-- Both entries stay stored, one with a registered reference and one with a loaded file.
theorem references_exclusive_two_entries :
    let access : Nat → FileAccess := fun _ => ⟨true, true, true, true⟩
    let files : Files := fun path => if path = ascii "f" then some [65] else none
    Exclusive (entries (run ⟨2, 0, true, 0, 1⟩ id files [.setReference (ascii "r") [] [],
      .add 1 (refDocument (ascii "r")) access, .add 2 (refDocument (ascii "f")) access])) := by
  intro access files
  refine references_exclusive ⟨2, 0, true, 0, 1⟩ id files _ ⟨⟨trivial, trivial⟩,
    ⟨refCount_refDocument _, ?_⟩, ⟨refCount_refDocument _, ?_⟩, trivial⟩
  · exact assignsOnce_refDocument (by decide) (by decide) (by decide)
      (fun hn => absurd hn (by decide))
  · exact assignsOnce_refDocument (by decide) (by decide) (by decide) (fun _ => by decide)

end QdsBuffer.DataSource
