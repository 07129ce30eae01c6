import QdsBuffer.Concurrent.Locks

namespace QdsBuffer.Concurrent.Entrywise
open LockOrder Locks Bytes

def read (next : DataSource → Program) : Program := .act (fun s => s) next

def change (f : RingBuffer → RingBuffer) (next : Program) : Program :=
  .act (fun s => { s with buffer := f s.buffer }) (fun _ => next)

def getCurrentTimeMs (clock : Nat → Nat) (next : Nat → Program) : Program :=
  .act (fun s => { s with buffer := { s.buffer with ticks := s.buffer.ticks + 1 } })
    (fun s => next (clock s.buffer.ticks))

def erase (it : Nat) (next : Program) : Program :=
  change (fun rb => { rb with buffer := rb.buffer.eraseIdx it }) next

def unlock (next : Program) : Program := .release .buffer .exclusive next

-- The loop of Push over the old data, at iterator it. Each turn erases an entry or goes on to the
-- next one, so that n turns are enough for the n entries from it on.
def discard (cfg : DataSource.Config) (clock : Nat → Nat) (next : Int → Program) :
    Nat → Nat → Int → Program
  | 0, _, deletionCounter => next deletionCounter
  | n + 1, it, deletionCounter =>
    read (fun s =>
      match s.buffer.buffer[it]? with
      | none => next deletionCounter
      | some entry =>
        if cfg.bufferSize ≤ s.buffer.buffer.length then
          if !entry.locked then
            getCurrentTimeMs clock (fun timestampMs =>
              onDeleteCallback cfg ⟨some entry, false, timestampMs⟩
                (erase it (discard cfg clock next n it (deletionCounter + 1))))
          else discard cfg clock next n (it + 1) deletionCounter
        else next deletionCounter)

-- The loop of Push that looks for an entry with the id.
def replace (cfg : DataSource.Config) (id : Int) (pushed refused : Program) : Nat → Nat → Program
  | 0, _ => pushed
  | n + 1, it =>
    read (fun s =>
      match s.buffer.buffer[it]? with
      | none => pushed
      | some entry =>
        if entry.id = id then
          if !entry.locked then onDeleteCallback cfg ⟨some entry, false, 0⟩ (erase it pushed)
          else refused
        else replace cfg id pushed refused n (it + 1))

def pushBack (clock : Nat → Nat) (id : Int) (measurement : List Measurement) (next : Program) :
    Program :=
  getCurrentTimeMs clock (fun timestampMs =>
    change (fun rb => { rb with buffer := rb.buffer ++ [⟨id, measurement, timestampMs, false⟩] }) next)

def store (cfg : DataSource.Config) (clock : Nat → Nat) (id : Int) (measurement : List Measurement)
    (next : Except Exception Int → Program) (deletionCounter : Int) : Program :=
  let pushed := pushBack clock id measurement (unlock (next (.ok deletionCounter)))
  if cfg.counterMode = 0 then
    read (fun s =>
      match s.buffer.buffer.getLast? with
      | some back =>
        if id ≤ back.id then
          unlock (next (.error (ringBufferException (ascii "Bad Id") "RingBuffer::Push")))
        else pushed
      | none => pushed)
  else
    read (fun s => replace cfg id pushed (unlock (next (.ok (-1)))) s.buffer.buffer.length 0)

-- RingBuffer::Push with a step of its own for every access to the entries and every callback.
def push (cfg : DataSource.Config) (clock : Nat → Nat) (id : Int) (measurement : List Measurement)
    (next : Except Exception Int → Program) : Program :=
  .acquire .buffer .exclusive (read (fun s =>
    if cfg.bufferSize ≤ s.buffer.buffer.length then
      if !cfg.allowOverflow then unlock (next (.error ringBufferOverflowException))
      else
        discard cfg clock (fun deletionCounter => read (fun s =>
          if cfg.bufferSize ≤ s.buffer.buffer.length then unlock (next (.ok (-1)))
          else store cfg clock id measurement next deletionCounter)) s.buffer.buffer.length 0 0
    else store cfg clock id measurement next 0))

def add (cfg : DataSource.Config) (clock : Nat → Nat) (id : Int)
    (json : Parsing.JsonParser.Delivery) (access : Nat → FileAccess) : Program :=
  .acquire .parser .exclusive (.release .parser .exclusive (
    match DataSource.parse json with
    | .error _ => .done
    | .ok data =>
      processRefMapping id
        (fun measurement => push cfg clock id measurement (fun result =>
          if DataSource.failed result then deleteRefMapping id false .done else .done))
        access [] data))

def deleteLoop (cfg : DataSource.Config) (id : Int) : Nat → Nat → Program
  | 0, _ => unlock .done
  | n + 1, it =>
    read (fun s =>
      match s.buffer.buffer[it]? with
      | none => unlock .done
      | some entry =>
        if entry.id = id then onDeleteCallback cfg ⟨some entry, false, 0⟩ (erase it (unlock .done))
        else if cfg.counterMode = 0 ∧ id < entry.id then unlock .done
        else deleteLoop cfg id n (it + 1))

def delete (cfg : DataSource.Config) (id : Int) : Program :=
  .acquire .buffer .exclusive (read (fun s => deleteLoop cfg id s.buffer.buffer.length 0))

-- RingBuffer::Reset; front() and back() are only asked of a buffer that is not empty.
def resetBuffer (cfg : DataSource.Config) (clock : Nat → Nat) (reason : ResetReason)
    (next : ResetInformation → Program) : Program :=
  .acquire .buffer .exclusive (read (fun s =>
    if s.buffer.buffer.isEmpty then unlock (next ⟨0, .unknown, 0, 0, 0⟩)
    else
      onDeleteCallback cfg ⟨none, true, 0⟩ (getCurrentTimeMs clock (fun resetTimeMs =>
        read (fun s =>
          let oldest := s.buffer.buffer.head?.elim 0 (·.timestampMs)
          read (fun s =>
            let newest := s.buffer.buffer.getLast?.elim 0 (·.timestampMs)
            read (fun s =>
              let count := s.buffer.buffer.length % 2 ^ 32
              change (fun rb => { rb with buffer := [] })
                (unlock (next ⟨resetTimeMs, reason, oldest, newest, count⟩)))))))))

def reset (cfg : DataSource.Config) (clock : Nat → Nat) (reason : ResetReason) : Program :=
  .acquire .resetInformationList .exclusive (resetBuffer cfg clock reason (fun info =>
    .act (fun s => { s with resetInformationList := DataSource.logReset cfg info s.resetInformationList })
      (fun _ => .release .resetInformationList .exclusive .done)))

def program (cfg : DataSource.Config) (clock : Nat → Nat) : Call → Program
  | .add id json access => add cfg clock id json access
  | .reset reason => reset cfg clock reason
  | .delete id => delete cfg id
  | call => call.program cfg clock

def system (cfg : DataSource.Config) (clock : Nat → Nat) (source : DataSource) (calls : List Call)
    (schedule : List Nat) : LockOrder.System Mutex DataSource :=
  Runs.run LockOrder.step (LockOrder.start source (calls.map (program cfg clock))) schedule

end QdsBuffer.Concurrent.Entrywise
