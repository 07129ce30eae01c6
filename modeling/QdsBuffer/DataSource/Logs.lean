import QdsBuffer.DataSource.Overflow
import QdsBuffer.Library.BoundedLog

namespace QdsBuffer

def ResetInformationList.log (l : ResetInformationList) : BoundedLog ResetInformation :=
  ⟨l.list, l.exceededMaxEntries⟩

def DeletionInformationList.log (l : DeletionInformationList) : BoundedLog DeletionInformation :=
  ⟨l.list, l.exceededMaxEntries⟩

namespace DataSource
open RingBuffer

variable {cfg : Config} {clock : Nat → Nat}

def callbacks (cfg : Config) (clock : Nat → Nat) (s : DataSource) : Op → List DeleteCall
  | .add id json access =>
    match parse json with
    | .error _ => []
    | .ok data =>
      match processRefMapping id access data s.refs with
      | (.error _, _) => []
      | (.ok measurement, _) => (push cfg.ring clock id measurement s.buffer).calls
  | .delete id => (RingBuffer.delete cfg.ring id s.buffer).2
  | .reset reason => (RingBuffer.reset cfg.ring clock reason s.buffer).2.2
  | _ => []

def notification (call : DeleteCall) : Option DeletionInformation :=
  call.entry.map (fun entry => ⟨call.timestampMs, entry.timestampMs⟩)

def noteNotifications (cfg : Config) (clock : Nat → Nat) (s : DataSource)
    (seen : List DeletionInformation) (op : Op) : List DeletionInformation :=
  match op with
  | .acknowledgeOverflow => []
  | op => seen ++ (callbacks cfg clock s op).filterMap notification

def notificationsSinceAcknowledge (cfg : Config) (clock : Nat → Nat) (files : Files)
    (ops : List Op) : List DeletionInformation :=
  Runs.track (step cfg clock) (noteNotifications cfg clock) (initial files) [] ops

def noteResets (cfg : Config) (clock : Nat → Nat) (s : DataSource) (seen : List ResetInformation)
    (op : Op) : List ResetInformation :=
  match op with
  | .acknowledgeReset => []
  | .reset reason =>
    if entries s = [] then seen
    else seen ++ [(RingBuffer.reset cfg.ring clock reason s.buffer).1]
  | _ => seen

def resetsSinceAcknowledge (cfg : Config) (clock : Nat → Nat) (files : Files) (ops : List Op) :
    List ResetInformation :=
  Runs.track (step cfg clock) (noteResets cfg clock) (initial files) [] ops

theorem logDeletion_log (info : DeletionInformation) (l : DeletionInformationList) :
    (logDeletion cfg info l).log = l.log.append cfg.deletionInformationSize info :=
  apply_ite DeletionInformationList.log _ _ _

theorem logReset_log {info : ResetInformation} (h : info.resetTimeMs ≠ 0)
    (l : ResetInformationList) :
    (logReset cfg info l).log = l.log.append cfg.resetInformationSize info := by
  simp only [logReset, h, ↓reduceIte]
  exact apply_ite ResetInformationList.log _ _ _

theorem logReset_empty {info : ResetInformation} (h : info.resetTimeMs = 0)
    {l : ResetInformationList} (hl : l.list.length ≤ cfg.resetInformationSize) :
    logReset cfg info l = l := by
  simp only [logReset, h, ↓reduceIte, List.dropLast_concat, Nat.not_lt.mpr hl]

theorem logCalls_log (calls : List DeleteCall) (l : DeletionInformationList) :
    (calls.foldl (logCall cfg) l).log =
      (calls.filterMap notification).foldl (BoundedLog.append cfg.deletionInformationSize) l.log := by
  induction calls generalizing l with
  | nil => rfl
  | cons call calls ih =>
    rw [List.foldl_cons, ih]
    cases he : call.entry with
    | none => simp [logCall, notification, he]
    | some entry => simp [logCall, notification, he, logDeletion_log]

theorem callbacks_resetList (cfg : Config) (calls : List DeleteCall) (s : DataSource) :
    (calls.foldl (onDeleteCallback cfg) s).resetInformationList = s.resetInformationList := by
  induction calls generalizing s with
  | nil => rfl
  | cons call calls ih =>
    have hcall : (onDeleteCallback cfg s call).resetInformationList = s.resetInformationList := by
      unfold onDeleteCallback
      split <;> rfl
    rw [List.foldl_cons, ih, hcall]

theorem step_notifications (clock : Nat → Nat) (s : DataSource) (op : Op)
    (hop : op ≠ .acknowledgeOverflow) :
    (step cfg clock s op).deletionInformationList =
      (callbacks cfg clock s op).foldl (logCall cfg) s.deletionInformationList := by
  cases op with
  | acknowledgeOverflow => exact absurd rfl hop
  | add id json access =>
    have hc := add_case cfg clock id json access s
    simp only [step, callbacks]
    generalize add cfg clock id json access s = p at hc
    cases hc with
    | parseError e hd => simp [hd]
    | refError data e refs hd hp => simp [hd, hp]
    | pushed data ms refs hd hp => simp only [hd, hp, pushMeasurements_log]
  | setReference ref data dataFormat =>
    simp only [step, setReference]
    split <;> rfl
  | delete id => exact callbacks_log cfg _ _
  | reset reason => exact callbacks_log cfg _ _
  | acknowledgeReset => rfl
  | setLocked index locked => rfl
  | changeFiles files => rfl

theorem step_deletionLog {s : DataSource} {seen : List DeletionInformation} (op : Op)
    (h : BoundedLog.Records cfg.deletionInformationSize seen s.deletionInformationList.log) :
    BoundedLog.Records cfg.deletionInformationSize (noteNotifications cfg clock s seen op)
      (step cfg clock s op).deletionInformationList.log := by
  by_cases hop : op = .acknowledgeOverflow
  · subst hop
    exact BoundedLog.Records.empty
  · have hnote : noteNotifications cfg clock s seen op =
        seen ++ (callbacks cfg clock s op).filterMap notification := by
      cases op <;> first | rfl | exact absurd rfl hop
    rw [hnote, step_notifications clock s op hop, logCalls_log]
    exact h.appends

theorem reset_info (cfg : Config) (reason : ResetReason) (rb : RingBuffer)
    (hclock : ∀ n, clock n ≠ 0) :
    (RingBuffer.reset cfg.ring clock reason rb).1.resetTimeMs = 0 ↔ rb.buffer = [] := by
  by_cases hb : rb.buffer = []
  · rw [reset_of_empty cfg.ring clock reason hb]
    exact iff_of_true rfl hb
  · obtain ⟨info, htime, hr⟩ := reset_of_nonempty cfg.ring clock reason hb
    rw [hr, htime]
    exact iff_of_false (hclock rb.ticks) hb

theorem pushMeasurements_resetList (id : Int) (ms : List Measurement) (s : DataSource) :
    (pushMeasurements cfg clock id ms s).2.resetInformationList = s.resetInformationList := by
  have hsection : (pushSection cfg clock id ms s).2.resetInformationList = s.resetInformationList :=
    callbacks_resetList cfg _ _
  simp only [pushMeasurements]
  split
  · exact hsection
  · exact hsection

theorem step_resetLog (hclock : ∀ n, clock n ≠ 0) {s : DataSource} {seen : List ResetInformation}
    (op : Op) (h : BoundedLog.Records cfg.resetInformationSize seen s.resetInformationList.log) :
    BoundedLog.Records cfg.resetInformationSize (noteResets cfg clock s seen op)
      (step cfg clock s op).resetInformationList.log := by
  cases op with
  | reset reason =>
    have hinfo := reset_info cfg reason s.buffer hclock
    simp only [step, reset, noteResets, callbacks_resetList]
    by_cases hb : entries s = []
    · have hle : s.resetInformationList.list.length ≤ cfg.resetInformationSize := by
        rw [show s.resetInformationList.list.length = _ from h.length]
        exact Nat.min_le_left _ _
      rw [if_pos hb, logReset_empty (hinfo.mpr hb) hle]
      exact h
    · rw [if_neg hb, logReset_log (fun h0 => hb (hinfo.mp h0))]
      exact h.append _
  | acknowledgeReset => exact BoundedLog.Records.empty
  | add id json access =>
    have hc := add_case cfg clock id json access s
    simp only [step, noteResets]
    generalize add cfg clock id json access s = p at hc
    cases hc with
    | parseError => exact h
    | refError => exact h
    | pushed data ms refs => rwa [pushMeasurements_resetList]
  | setReference ref data dataFormat =>
    simp only [step, setReference, noteResets]
    split <;> exact h
  | delete id =>
    simp only [step, delete, noteResets, callbacks_resetList]
    exact h
  | acknowledgeOverflow => exact h
  | setLocked index locked => exact h
  | changeFiles files => exact h

theorem acknowledged_logs_exact (cfg : Config) (clock : Nat → Nat) (files : Files) (ops : List Op)
    (hclock : ∀ n, clock n ≠ 0) :
    let s := run cfg clock files ops
    BoundedLog.Records cfg.resetInformationSize (resetsSinceAcknowledge cfg clock files ops)
        (acknowledgeReset s).1.log ∧
      BoundedLog.Records cfg.deletionInformationSize
        (notificationsSinceAcknowledge cfg clock files ops) (acknowledgeOverflow s).1.log := by
  have hreset : ∀ (s : DataSource) seen op,
      BoundedLog.Records cfg.resetInformationSize seen s.resetInformationList.log →
      BoundedLog.Records cfg.resetInformationSize (noteResets cfg clock s seen op)
        (step cfg clock s op).resetInformationList.log := fun _ _ op h => step_resetLog hclock op h
  have hdeletion : ∀ (s : DataSource) seen op,
      BoundedLog.Records cfg.deletionInformationSize seen s.deletionInformationList.log →
      BoundedLog.Records cfg.deletionInformationSize (noteNotifications cfg clock s seen op)
        (step cfg clock s op).deletionInformationList.log := fun _ _ op h => step_deletionLog op h
  exact ⟨Runs.track_invariant hreset ops (s := initial files) BoundedLog.Records.empty,
    Runs.track_invariant hdeletion ops (s := initial files) BoundedLog.Records.empty⟩

theorem acknowledged_logs_exact_no_capacity :
    let cfg : Config := ⟨1, 0, true, 0, 1⟩
    let access : Nat → FileAccess := fun _ => ⟨true, true, true, true⟩
    let ops := [.add 1 emptyDocument access, .add 2 emptyDocument access, .delete 2,
      .add 3 emptyDocument access, .reset .user, .reset .user]
    let s := run cfg (fun n => n + 1) (fun _ => none) ops
    BoundedLog.Records 0 (resetsSinceAcknowledge cfg (fun n => n + 1) (fun _ => none) ops)
        (acknowledgeReset s).1.log ∧
      BoundedLog.Records 1 (notificationsSinceAcknowledge cfg (fun n => n + 1) (fun _ => none) ops)
        (acknowledgeOverflow s).1.log := by
  intro cfg access ops
  exact acknowledged_logs_exact cfg (fun n => n + 1) _ ops (fun n => Nat.succ_ne_zero n)

end DataSource

end QdsBuffer
