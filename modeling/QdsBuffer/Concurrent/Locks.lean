import QdsBuffer.Library.LockOrder
import QdsBuffer.DataSource.References

namespace QdsBuffer.Concurrent.Locks
open LockOrder

inductive Mutex where
  | parser
  | buffer
  | refMapping
  | resetInformationList
  | deletionInformationList
  deriving DecidableEq, Repr

abbrev Program := Prog Mutex DataSource

def rank : Mutex → Nat
  | .parser => 0
  | .resetInformationList => 1
  | .buffer => 2
  | .deletionInformationList => 3
  | .refMapping => 4

-- A scope under one lock: next reads the state that the scope found, f is what it made of it.
def underLock (m : Mutex) (f : DataSource → DataSource) (next : DataSource → Program) : Program :=
  .acquire m .exclusive (.act f (fun s => .release m .exclusive (next s)))

def underSharedLock (m : Mutex) (next : Program) : Program :=
  .acquire m .shared (.release m .shared next)

def deleteRefMapping (id : Int) (clear : Bool) (next : Program) : Program :=
  underLock .refMapping (DataSource.deleteRefMapping id clear) (fun _ => next)

def onDeleteCallback (cfg : DataSource.Config) (call : DeleteCall) (next : Program) : Program :=
  match call.entry with
  | some entry =>
    underLock .deletionInformationList
      (fun s => { s with
        deletionInformationList := DataSource.logDeletion cfg
          ⟨call.timestampMs, entry.timestampMs⟩ s.deletionInformationList })
      (fun _ => deleteRefMapping entry.id call.clear next)
  | none => deleteRefMapping 0 call.clear next

def callbacks (cfg : DataSource.Config) (calls : List DeleteCall) (next : Program) : Program :=
  calls.foldr (onDeleteCallback cfg) next

def processRefMapping (id : Int) (next : List Measurement → Program) :
    (Nat → FileAccess) → List Measurement → List Measurement → Program
  | _, done, [] => next done
  | access, done, d :: todo =>
    if d.type = .ref then
      underLock .refMapping
        (fun s => { s with refs := (DataSource.processRef id (access 0) d s.refs).2 })
        (fun s =>
          match (DataSource.processRef id (access 0) d s.refs).1 with
          | .next d' => processRefMapping id next (fun n => access (n + 1)) (done ++ [d']) todo
          | .leave => next (done ++ d :: todo)
          | .throw _ => .done)
    else processRefMapping id next (fun n => access (n + 1)) (done ++ [d]) todo

def push (cfg : DataSource.Config) (clock : Nat → Nat) (id : Int) (measurement : List Measurement)
    (next : Except Exception Int → Program) : Program :=
  let pushed (s : DataSource) := RingBuffer.push cfg.ring clock id measurement s.buffer
  .acquire .buffer .exclusive (.act (fun s => { s with buffer := (pushed s).state }) (fun s =>
    callbacks cfg (pushed s).calls (.release .buffer .exclusive (next (pushed s).result))))

def add (cfg : DataSource.Config) (clock : Nat → Nat) (id : Int)
    (json : Parsing.JsonParser.Delivery) (access : Nat → FileAccess) : Program :=
  .acquire .parser .exclusive (.release .parser .exclusive (
    match DataSource.parse json with
    | .error _ => .done
    | .ok data =>
      processRefMapping id
        (fun measurement => push cfg clock id measurement (fun result =>
          if DataSource.failed result then deleteRefMapping id false .done else .done))
        access [] data))

def delete (cfg : DataSource.Config) (id : Int) : Program :=
  let deleted (s : DataSource) := RingBuffer.delete cfg.ring id s.buffer
  .acquire .buffer .exclusive (.act (fun s => { s with buffer := (deleted s).1 }) (fun s =>
    callbacks cfg (deleted s).2 (.release .buffer .exclusive .done)))

def reset (cfg : DataSource.Config) (clock : Nat → Nat) (reason : ResetReason) : Program :=
  let done (s : DataSource) := RingBuffer.reset cfg.ring clock reason s.buffer
  .acquire .resetInformationList .exclusive (.acquire .buffer .exclusive (
    .act (fun s => { s with buffer := (done s).2.1 }) (fun s =>
      callbacks cfg (done s).2.2 (.release .buffer .exclusive (
        .act (fun s' => { s' with
            resetInformationList := DataSource.logReset cfg (done s).1 s'.resetInformationList })
          (fun _ => .release .resetInformationList .exclusive .done))))))

-- What a consumer does while it holds the mutex of the buffer.
inductive Visit where
  | read
  | setLocked (index : Nat) (locked : Bool)
  | getReference (ref : Bytes)

def Visit.program : Visit → Program → Program
  | .read, next => next
  | .setLocked index locked, next =>
    .act (fun s => { s with buffer := s.buffer.setLocked index locked }) (fun _ => next)
  | .getReference _, next => underSharedLock .refMapping next

def iterate (mode : Mode) (visits : List Visit) : Program :=
  .acquire .buffer mode (visits.foldr Visit.program (.release .buffer mode .done))

inductive Call where
  | add (id : Int) (json : Parsing.JsonParser.Delivery) (access : Nat → FileAccess)
  | setReference (ref data dataFormat : Bytes)
  | reset (reason : ResetReason)
  | delete (id : Int)
  | isReset
  | acknowledgeReset
  | isOverflown
  | acknowledgeOverflow
  | getReference (ref : Bytes)
  | getSize
  | getLastId
  | iterate (mode : Mode) (visits : List Visit)

def Call.program (cfg : DataSource.Config) (clock : Nat → Nat) : Call → Program
  | .add id json access => Locks.add cfg clock id json access
  | .setReference ref data dataFormat =>
    underLock .refMapping (fun s => (DataSource.setReference ref data dataFormat s).2) (fun _ => .done)
  | .reset reason => Locks.reset cfg clock reason
  | .delete id => Locks.delete cfg id
  | .isReset => underSharedLock .resetInformationList .done
  | .acknowledgeReset =>
    underLock .resetInformationList (fun s => (DataSource.acknowledgeReset s).2) (fun _ => .done)
  | .isOverflown => underSharedLock .deletionInformationList .done
  | .acknowledgeOverflow =>
    underLock .deletionInformationList (fun s => (DataSource.acknowledgeOverflow s).2) (fun _ => .done)
  | .getReference _ => underSharedLock .refMapping .done
  | .getSize => underSharedLock .buffer .done
  | .getLastId => underSharedLock .buffer .done
  | .iterate mode visits => Locks.iterate mode visits

def Visit.effect (s : DataSource) : Visit → DataSource
  | .setLocked index locked => { s with buffer := s.buffer.setLocked index locked }
  | _ => s

def Call.effect (cfg : DataSource.Config) (clock : Nat → Nat) (s : DataSource) : Call → DataSource
  | .add id json access => (DataSource.add cfg clock id json access s).2
  | .setReference ref data dataFormat => (DataSource.setReference ref data dataFormat s).2
  | .reset reason => DataSource.reset cfg clock reason s
  | .delete id => DataSource.delete cfg id s
  | .acknowledgeReset => (DataSource.acknowledgeReset s).2
  | .acknowledgeOverflow => (DataSource.acknowledgeOverflow s).2
  | .iterate _ visits => visits.foldl Visit.effect s
  | _ => s

theorem underLock_eval (m : Mutex) (f : DataSource → DataSource) (next : DataSource → Program)
    (s : DataSource) : (underLock m f next).eval s = (next s).eval (f s) := rfl

theorem callbacks_eval (cfg : DataSource.Config) (calls : List DeleteCall) (next : Program)
    (s : DataSource) :
    (callbacks cfg calls next).eval s =
      next.eval (calls.foldl (DataSource.onDeleteCallback cfg) s) := by
  induction calls generalizing s with
  | nil => rfl
  | cons call calls ih =>
    change (onDeleteCallback cfg call (callbacks cfg calls next)).eval s = _
    rw [List.foldl_cons]
    unfold onDeleteCallback DataSource.onDeleteCallback
    cases call.entry with
    | none => exact ih _
    | some entry => exact ih _

theorem processRefMapping_eval (id : Int) (next : List Measurement → Program)
    (access : Nat → FileAccess) (done todo : List Measurement) (s : DataSource) :
    (processRefMapping id next access done todo).eval s =
      match DataSource.processRefMapping id access todo s.refs with
      | (.ok measurement, refs) => (next (done ++ measurement)).eval { s with refs := refs }
      | (.error _, refs) => { s with refs := refs } := by
  induction todo generalizing access done s with
  | nil => simp [processRefMapping, DataSource.processRefMapping]
  | cons d todo ih =>
    unfold processRefMapping DataSource.processRefMapping
    split
    · rw [underLock_eval]
      rcases DataSource.processRef id (access 0) d s.refs with ⟨turn, refs⟩
      cases turn with
      | next d' =>
        simp only [ih]
        rcases DataSource.processRefMapping id (fun n => access (n + 1)) todo refs with ⟨res, refs'⟩
        cases res with
        | error e => rfl
        | ok measurement => simp [Except.map]
      | leave => rfl
      | throw e => rfl
    · rw [ih]
      rcases DataSource.processRefMapping id (fun n => access (n + 1)) todo s.refs with ⟨res, refs⟩
      cases res with
      | error e => rfl
      | ok measurement => simp [Except.map]

theorem push_eval (cfg : DataSource.Config) (clock : Nat → Nat) (id : Int)
    (measurement : List Measurement) (next : Except Exception Int → Program) (s : DataSource) :
    (push cfg clock id measurement next).eval s =
      let p := DataSource.pushSection cfg clock id measurement s
      (next p.1).eval p.2 :=
  callbacks_eval cfg _ _ _

theorem add_eval (cfg : DataSource.Config) (clock : Nat → Nat) (id : Int)
    (json : Parsing.JsonParser.Delivery) (access : Nat → FileAccess) (s : DataSource) :
    (add cfg clock id json access).eval s = (DataSource.add cfg clock id json access s).2 := by
  simp only [add, Prog.eval, DataSource.add]
  cases DataSource.parse json with
  | error e => rfl
  | ok data =>
    simp only [processRefMapping_eval, List.nil_append]
    rcases DataSource.processRefMapping id access data s.refs with ⟨res, refs⟩
    cases res with
    | error e => rfl
    | ok measurement =>
      simp only [push_eval, DataSource.pushMeasurements]
      cases DataSource.failed (DataSource.pushSection cfg clock id measurement { s with refs := refs }).1 with
      | true => rfl
      | false => rfl

theorem reset_eval (cfg : DataSource.Config) (clock : Nat → Nat) (reason : ResetReason)
    (s : DataSource) : (reset cfg clock reason).eval s = DataSource.reset cfg clock reason s := by
  simp only [reset, Prog.eval, callbacks_eval, DataSource.reset]

theorem iterate_eval (mode : Mode) (visits : List Visit) (s : DataSource) :
    (iterate mode visits).eval s = visits.foldl Visit.effect s := by
  change Prog.eval (visits.foldr Visit.program _) s = _
  induction visits generalizing s with
  | nil => rfl
  | cons visit visits ih =>
    cases visit with
    | read => exact ih s
    | setLocked index locked => exact ih _
    | getReference ref => exact ih s

theorem program_eval (cfg : DataSource.Config) (clock : Nat → Nat) (call : Call) (s : DataSource) :
    (call.program cfg clock).eval s = call.effect cfg clock s := by
  cases call with
  | add id json access => exact add_eval cfg clock id json access s
  | reset reason => exact reset_eval cfg clock reason s
  | delete id => exact callbacks_eval cfg _ _ _
  | iterate mode visits => exact iterate_eval mode visits s
  | _ => rfl

def Below (held : List (Mutex × Mode)) (m : Mutex) : Prop := ∀ lock ∈ held, rank lock.1 < rank m

theorem Below.mono {held : List (Mutex × Mode)} {m m' : Mutex} (h : Below held m)
    (hm : rank m ≤ rank m') : Below held m' :=
  fun lock hl => Nat.lt_of_lt_of_le (h lock hl) hm

theorem done_disciplined : Disciplined rank [] (.done : Program) := rfl

theorem below_nil (m : Mutex) : Below [] m := by simp [Below]

theorem Below.cons {held : List (Mutex × Mode)} {m m' : Mutex} (h : Below held m) (mode : Mode)
    (hm : rank m < rank m') : Below ((m, mode) :: held) m' :=
  List.forall_mem_cons.mpr ⟨hm, h.mono (Nat.le_of_lt hm)⟩

theorem underLock_disciplined {held : List (Mutex × Mode)} {m : Mutex} (hm : Below held m)
    (f : DataSource → DataSource) {next : DataSource → Program}
    (h : ∀ s, Disciplined rank held (next s)) : Disciplined rank held (underLock m f next) :=
  ⟨hm, fun s => ⟨held, rfl, h s⟩⟩

theorem underSharedLock_disciplined {held : List (Mutex × Mode)} {m : Mutex} (hm : Below held m)
    {next : Program} (h : Disciplined rank held next) : Disciplined rank held (underSharedLock m next) :=
  ⟨hm, held, rfl, h⟩

theorem deleteRefMapping_disciplined {held : List (Mutex × Mode)} (hm : Below held .refMapping)
    (id : Int) (clear : Bool) {next : Program} (h : Disciplined rank held next) :
    Disciplined rank held (deleteRefMapping id clear next) :=
  underLock_disciplined hm _ (fun _ => h)

theorem callbacks_disciplined {held : List (Mutex × Mode)}
    (hm : Below held .deletionInformationList) (cfg : DataSource.Config) (calls : List DeleteCall)
    {next : Program} (h : Disciplined rank held next) :
    Disciplined rank held (callbacks cfg calls next) := by
  have href : Below held .refMapping := hm.mono (by decide)
  induction calls with
  | nil => exact h
  | cons call calls ih =>
    change Disciplined rank held (onDeleteCallback cfg call (callbacks cfg calls next))
    unfold onDeleteCallback
    cases call.entry with
    | none => exact deleteRefMapping_disciplined href _ _ ih
    | some entry =>
      exact underLock_disciplined hm _ (fun _ => deleteRefMapping_disciplined href _ _ ih)

theorem processRefMapping_disciplined (id : Int) {next : List Measurement → Program}
    (h : ∀ measurement, Disciplined rank [] (next measurement)) (access : Nat → FileAccess)
    (done todo : List Measurement) :
    Disciplined rank [] (processRefMapping id next access done todo) := by
  induction todo generalizing access done with
  | nil => exact h done
  | cons d todo ih =>
    unfold processRefMapping
    split
    · apply underLock_disciplined (below_nil _)
      intro s
      cases (DataSource.processRef id (access 0) d s.refs).1 with
      | next d' => exact ih _ _
      | leave => exact h _
      | throw e => rfl
    · exact ih _ _

theorem push_disciplined (cfg : DataSource.Config) (clock : Nat → Nat) (id : Int)
    (measurement : List Measurement) {next : Except Exception Int → Program}
    (h : ∀ result, Disciplined rank [] (next result)) :
    Disciplined rank [] (push cfg clock id measurement next) := by
  refine ⟨below_nil _, fun s => ?_⟩
  exact callbacks_disciplined ((below_nil .buffer).cons _ (by decide)) cfg _ ⟨[], rfl, h _⟩

theorem add_disciplined (cfg : DataSource.Config) (clock : Nat → Nat) (id : Int)
    (json : Parsing.JsonParser.Delivery) (access : Nat → FileAccess) :
    Disciplined rank [] (add cfg clock id json access) := by
  refine ⟨below_nil _, [], rfl, ?_⟩
  cases DataSource.parse json with
  | error e => rfl
  | ok data =>
    apply processRefMapping_disciplined
    intro measurement
    apply push_disciplined
    intro result
    cases DataSource.failed result with
    | true => exact deleteRefMapping_disciplined (below_nil _) _ _ done_disciplined
    | false => rfl

theorem delete_disciplined (cfg : DataSource.Config) (id : Int) :
    Disciplined rank [] (delete cfg id) := by
  refine ⟨below_nil _, fun s => ?_⟩
  exact callbacks_disciplined ((below_nil .buffer).cons _ (by decide)) cfg _ ⟨[], rfl, rfl⟩

theorem reset_disciplined (cfg : DataSource.Config) (clock : Nat → Nat) (reason : ResetReason) :
    Disciplined rank [] (reset cfg clock reason) := by
  have hbuffer : Below [(.resetInformationList, .exclusive)] .buffer :=
    (below_nil .resetInformationList).cons _ (by decide)
  refine ⟨below_nil _, hbuffer, fun s => ?_⟩
  refine callbacks_disciplined (hbuffer.cons _ (by decide)) cfg _ ⟨_, rfl, ?_⟩
  exact fun _ => ⟨[], rfl, rfl⟩

theorem iterate_disciplined (mode : Mode) (visits : List Visit) :
    Disciplined rank [] (iterate mode visits) := by
  have href : Below [(.buffer, mode)] .refMapping := (below_nil .buffer).cons mode (by decide)
  refine ⟨below_nil _, ?_⟩
  induction visits with
  | nil => exact ⟨[], rfl, rfl⟩
  | cons visit visits ih =>
    cases visit with
    | read => exact ih
    | setLocked index locked => exact fun _ => ih
    | getReference ref => exact underSharedLock_disciplined href ih

theorem program_disciplined (cfg : DataSource.Config) (clock : Nat → Nat) (call : Call) :
    Disciplined rank [] (call.program cfg clock) := by
  cases call with
  | add id json access => exact add_disciplined cfg clock id json access
  | setReference ref data dataFormat =>
    exact underLock_disciplined (below_nil _) _ (fun _ => rfl)
  | reset reason => exact reset_disciplined cfg clock reason
  | delete id => exact delete_disciplined cfg id
  | isReset => exact underSharedLock_disciplined (below_nil _) done_disciplined
  | acknowledgeReset => exact underLock_disciplined (below_nil _) _ (fun _ => rfl)
  | isOverflown => exact underSharedLock_disciplined (below_nil _) done_disciplined
  | acknowledgeOverflow => exact underLock_disciplined (below_nil _) _ (fun _ => rfl)
  | getReference ref => exact underSharedLock_disciplined (below_nil _) done_disciplined
  | getSize => exact underSharedLock_disciplined (below_nil _) done_disciplined
  | getLastId => exact underSharedLock_disciplined (below_nil _) done_disciplined
  | iterate mode visits => exact iterate_disciplined mode visits

theorem program_alone (cfg : DataSource.Config) (clock : Nat → Nat) (call : Call) (s : DataSource) :
    ∃ n, Runs.run step (start s [call.program cfg clock]) (List.replicate n 0) =
      ⟨call.effect cfg clock s, [⟨[], .done⟩]⟩ := by
  rw [← program_eval]
  exact run_alone (program_disciplined cfg clock call) s

theorem no_deadlock (cfg : DataSource.Config) (clock : Nat → Nat) (source : DataSource)
    (calls : List Call) (schedule : List Nat) :
    let sys := Runs.run step (start source (calls.map (·.program cfg clock))) schedule
    (∀ t ∈ sys.threads, t.rest = .done) ∨ ∃ t ∈ sys.threads, t.Proceeds sys.threads := by
  apply no_deadlock_of_order
  intro p hp
  obtain ⟨call, -, rfl⟩ := List.mem_map.mp hp
  exact program_disciplined cfg clock call

end QdsBuffer.Concurrent.Locks
