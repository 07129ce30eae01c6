import QdsBuffer.DataSource.Invariant

namespace QdsBuffer.DataSource
open RingBuffer

variable {cfg : Config} {clock : Nat → Nat}

def discarded (cfg : Config) (clock : Nat → Nat) (s : DataSource) : Op → List (Nat × BufferEntry)
  | .add id json access =>
    if reachesPush s id json access then
      (victim cfg.ring (entries s)).toList.map (fun v => (clock s.buffer.ticks, v))
    else []
  | _ => []

def note (cfg : Config) (clock : Nat → Nat) (s : DataSource) (seen : List (Nat × BufferEntry))
    (op : Op) : List (Nat × BufferEntry) :=
  match op with
  | .acknowledgeOverflow => []
  | op => seen ++ discarded cfg clock s op

def discardedSinceAcknowledge (cfg : Config) (clock : Nat → Nat) (files : Files) (ops : List Op) :
    List (Nat × BufferEntry) :=
  Runs.track (step cfg clock) (note cfg clock) (initial files) [] ops

def Reports (s : DataSource) (seen : List (Nat × BufferEntry)) : Prop :=
  (isOverflown s = true ↔ seen ≠ []) ∧
    ∀ r ∈ s.deletionInformationList.list, ∃ p ∈ seen, r = ⟨p.1, p.2.timestampMs⟩

-- A Delete of a stored entry and an Add that replaces one call the callback of the overflow too.
def LeavesNoRecord (cfg : Config) (s : DataSource) : Op → Prop
  | .add id json access =>
    reachesPush s id json access = true → ¬ Replaces cfg.ring (entries s) id
  | .delete id => id ∉ ids (entries s)
  | _ => True

def logCall (cfg : Config) (l : DeletionInformationList) (call : DeleteCall) :
    DeletionInformationList :=
  match call.entry with
  | some entry => logDeletion cfg ⟨call.timestampMs, entry.timestampMs⟩ l
  | none => l

theorem callbacks_log (cfg : Config) (calls : List DeleteCall) (s : DataSource) :
    (calls.foldl (onDeleteCallback cfg) s).deletionInformationList =
      calls.foldl (logCall cfg) s.deletionInformationList := by
  induction calls generalizing s with
  | nil => rfl
  | cons call calls ih =>
    have hcall : (onDeleteCallback cfg s call).deletionInformationList =
        logCall cfg s.deletionInformationList call := by
      simp only [onDeleteCallback, logCall]
      cases call.entry <;> rfl
    rw [List.foldl_cons, List.foldl_cons, ih, hcall]

theorem pushMeasurements_log (id : Int) (ms : List Measurement) (s : DataSource) :
    (pushMeasurements cfg clock id ms s).2.deletionInformationList =
      (push cfg.ring clock id ms s.buffer).calls.foldl (logCall cfg) s.deletionInformationList := by
  have hl := callbacks_log cfg (push cfg.ring clock id ms s.buffer).calls
    { s with buffer := (push cfg.ring clock id ms s.buffer).state }
  simp only [pushMeasurements]
  split
  · exact hl
  · exact hl

theorem replacementCalls_of_not_mem {id : Int} {b : List BufferEntry} (h : id ∉ ids b) :
    replacementCalls cfg.ring id b = [] := by
  have hn : ∀ e ∈ b, e.id ≠ id := fun e he heq => h (mem_ids.mpr ⟨e, he, heq⟩)
  simp [replacementCalls, find_hasId_none.mpr hn]

theorem push_calls (ms : List Measurement) {s : DataSource} {id : Int}
    (h : WellFormed cfg.ring s.buffer) (hn : ¬ Replaces cfg.ring (entries s) id) :
    (push cfg.ring clock id ms s.buffer).calls = evictionCalls cfg.ring clock s.buffer := by
  by_cases hr : Refuses cfg.ring (entries s) id
  · exact (push_of_refuses clock ms h hr).2.2
  · obtain ⟨n, t, -, hp⟩ := push_of_accepts clock ms h hr
    have hid : id ∉ ids (remaining cfg.ring (entries s)) := fun hm =>
      hn ((replaces_iff h.order).mpr ⟨hr, hm⟩)
    rw [hp, replacementCalls_of_not_mem hid, List.append_nil]

theorem evictionCalls_log (s : DataSource) (l : DeletionInformationList) :
    (evictionCalls cfg.ring clock s.buffer).foldl (logCall cfg) l =
      ((victim cfg.ring (entries s)).toList.map (fun v => (clock s.buffer.ticks, v))).foldl
        (fun l p => logDeletion cfg ⟨p.1, p.2.timestampMs⟩ l) l := by
  unfold evictionCalls
  generalize victim cfg.ring (entries s) = v
  cases v with
  | none => rfl
  | some v => simp [notify, Config.ring, logCall]

theorem logDeletion_list (h : 1 ≤ cfg.deletionInformationSize) (info : DeletionInformation)
    (l : DeletionInformationList) :
    (logDeletion cfg info l).list ≠ [] ∧
      ∀ r ∈ (logDeletion cfg info l).list, r ∈ l.list ∨ r = info := by
  simp only [logDeletion]
  split
  · rename_i hlt
    refine ⟨?_, ?_⟩
    · intro hnil
      have := congrArg List.length hnil
      simp only [List.length_tail, List.length_append, List.length_singleton, List.length_nil] at this hlt
      omega
    · intro r hr
      simpa using List.mem_of_mem_tail hr
  · exact ⟨by simp, by simp⟩

theorem Reports.log (h : 1 ≤ cfg.deletionInformationSize) {s s' : DataSource}
    {seen new : List (Nat × BufferEntry)} (hr : Reports s seen)
    (hlog : s'.deletionInformationList =
      new.foldl (fun l p => logDeletion cfg ⟨p.1, p.2.timestampMs⟩ l) s.deletionInformationList) :
    Reports s' (seen ++ new) := by
  induction new generalizing s seen with
  | nil =>
    rw [List.append_nil]
    simpa only [Reports, isOverflown, hlog, List.foldl_nil] using hr
  | cons p new ih =>
    have hp := logDeletion_list h ⟨p.1, p.2.timestampMs⟩ s.deletionInformationList
    have hnext : Reports
        { s with
          deletionInformationList :=
            logDeletion cfg ⟨p.1, p.2.timestampMs⟩ s.deletionInformationList } (seen ++ [p]) := by
      refine ⟨by simpa [isOverflown] using hp.1, ?_⟩
      intro r hm
      rcases hp.2 r hm with hold | rfl
      · obtain ⟨q, hq, rfl⟩ := hr.2 r hold
        exact ⟨q, by simp [hq], rfl⟩
      · exact ⟨p, by simp, rfl⟩
    simpa using ih hnext hlog

theorem step_reports (h : 1 ≤ cfg.deletionInformationSize) (s : DataSource)
    (seen : List (Nat × BufferEntry)) (op : Op) (hok : LeavesNoRecord cfg s op)
    (hwf : WellFormed cfg.ring s.buffer) (hr : Reports s seen) :
    Reports (step cfg clock s op) (note cfg clock s seen op) := by
  cases op with
  | setReference ref data dataFormat =>
    refine hr.log h ?_
    simp only [step, setReference]
    split <;> rfl
  | add id json access =>
    refine hr.log h ?_
    have hc := add_case cfg clock id json access s
    simp only [step]
    generalize add cfg clock id json access s = p at hc
    cases hc with
    | parseError e hd => simp [discarded, not_reachesPush_of_parseError hd]
    | refError data e refs hd hp => simp [discarded, not_reachesPush_of_refError hd hp]
    | pushed data ms refs hd hp =>
      have hreach := reachesPush_of_pushed hd hp
      rw [pushMeasurements_log, push_calls (s := { s with refs := refs }) ms hwf (hok hreach),
        evictionCalls_log]
      simp only [discarded, hreach, ↓reduceIte]
  | delete id =>
    refine hr.log h ?_
    have hcalls : (RingBuffer.delete cfg.ring id s.buffer).2 = [] := by
      simp only [RingBuffer.delete, deleteLoop_eq id hwf.order]
      exact replacementCalls_of_not_mem hok
    simp only [step, delete, hcalls, List.foldl_nil, discarded]
  | reset reason =>
    refine hr.log h ?_
    simp only [step, reset, callbacks_log, discarded, List.foldl_nil, RingBuffer.reset]
    split <;> simp [notify, Config.ring, logCall]
  | acknowledgeReset => exact hr.log h rfl
  | acknowledgeOverflow =>
    simp [Reports, isOverflown, step, acknowledgeOverflow, note]
  | setLocked index locked => exact hr.log h rfl
  | changeFiles files => exact hr.log h rfl

theorem overflow_report_exact (cfg : Config) (clock : Nat → Nat) (files : Files) (ops : List Op)
    (hsize : 1 ≤ cfg.deletionInformationSize)
    (hok : Runs.Along (step cfg clock) (LeavesNoRecord cfg) (initial files) ops) :
    Reports (run cfg clock files ops) (discardedSinceAcknowledge cfg clock files ops) := by
  have hstep : ∀ (s : DataSource) seen op, LeavesNoRecord cfg s op →
      (WellFormed cfg.ring s.buffer ∧ Reports s seen) →
      WellFormed cfg.ring (step cfg clock s op).buffer ∧
        Reports (step cfg clock s op) (note cfg clock s seen op) := fun s seen op hop hi =>
    ⟨ring_invariant clock s op hi.1, step_reports hsize s seen op hop hi.1 hi.2⟩
  have hinitial : Reports (initial files) [] := by
    simp [Reports, isOverflown, DataSource.initial]
  exact (Runs.track_invariant_along hstep hok ⟨initial_wellFormed, hinitial⟩).2

theorem delete_reported_as_overflow :
    let cfg : Config := ⟨2, 0, true, 0, 1⟩
    let ops := [.add 1 emptyDocument (fun _ => ⟨true, true, true, true⟩), .delete 1]
    ¬ Reports (run cfg id (fun _ => none) ops)
      (discardedSinceAcknowledge cfg id (fun _ => none) ops) := by
  intro cfg ops h
  exact absurd (h.1.mp (by decide)) (by decide)

theorem overflow_report_exact_full_buffer :
    let cfg : Config := ⟨1, 0, true, 0, 1⟩
    let ops := [.add 1 emptyDocument (fun _ => ⟨true, true, true, true⟩),
      .add 2 emptyDocument (fun _ => ⟨true, true, true, true⟩)]
    Reports (run cfg id (fun _ => none) ops)
      (discardedSinceAcknowledge cfg id (fun _ => none) ops) := by
  intro cfg ops
  exact overflow_report_exact cfg id _ ops (by decide)
    ⟨fun _ h => h.1 rfl, fun _ h => h.1 rfl, trivial⟩

end QdsBuffer.DataSource
