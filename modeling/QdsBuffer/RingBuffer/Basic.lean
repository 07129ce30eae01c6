import QdsBuffer.Types
import QdsBuffer.Library.Runs

namespace QdsBuffer

structure RingBuffer.Config where
  maxSize : Nat
  counterMode : Int8
  allowOverflow : Bool
  hasCallback : Bool

-- ticks counts the readings of GetCurrentTimeMs: reading number n returns clock n.
structure RingBuffer where
  buffer : List BufferEntry
  ticks : Nat

structure DeleteCall where
  entry : Option BufferEntry
  clear : Bool
  timestampMs : Nat
  deriving DecidableEq

namespace RingBuffer
open Bytes

def initial : RingBuffer := ⟨[], 0⟩

def notify (cfg : Config) (call : DeleteCall) : List DeleteCall :=
  if cfg.hasCallback then [call] else []

structure Discarded where
  buffer : List BufferEntry
  ticks : Nat
  calls : List DeleteCall
  deletionCounter : Int

-- The eviction loop of Push at iterator it: size is buffer_.size(), the list is what follows it.
def discard (cfg : Config) (clock : Nat → Nat) : Nat → Nat → List BufferEntry → Discarded
  | _, ticks, [] => ⟨[], ticks, [], 0⟩
  | size, ticks, it :: rest =>
    if cfg.maxSize ≤ size then
      if !it.locked then
        let ticks' := if cfg.hasCallback then ticks + 1 else ticks
        let d := discard cfg clock (size - 1) ticks' rest
        { d with
          calls := notify cfg ⟨some it, false, clock ticks⟩ ++ d.calls
          deletionCounter := d.deletionCounter + 1 }
      else
        let d := discard cfg clock size ticks rest
        { d with buffer := it :: d.buffer }
    else ⟨it :: rest, ticks, [], 0⟩

structure Pushed where
  result : Except Exception Int
  state : RingBuffer
  calls : List DeleteCall

def pushBack (clock : Nat → Nat) (id : Int) (measurements : List Measurement) (d : Discarded) :
    Pushed :=
  ⟨.ok d.deletionCounter,
    ⟨d.buffer ++ [⟨id, measurements, clock d.ticks, false⟩], d.ticks + 1⟩, d.calls⟩

def store (cfg : Config) (clock : Nat → Nat) (id : Int) (measurements : List Measurement)
    (d : Discarded) : Pushed :=
  if cfg.counterMode = 0 then
    match d.buffer.getLast? with
    | some back =>
      if id ≤ back.id then
        ⟨.error (ringBufferException (ascii "Bad Id") "RingBuffer::Push"), ⟨d.buffer, d.ticks⟩, d.calls⟩
      else pushBack clock id measurements d
    | none => pushBack clock id measurements d
  else
    match d.buffer.find? (fun e => e.id = id) with
    | some it =>
      if !it.locked then
        pushBack clock id measurements
          { d with
            buffer := d.buffer.eraseP (fun e => e.id = id)
            calls := d.calls ++ notify cfg ⟨some it, false, 0⟩ }
      else ⟨.ok (-1), ⟨d.buffer, d.ticks⟩, d.calls⟩
    | none => pushBack clock id measurements d

def push (cfg : Config) (clock : Nat → Nat) (id : Int) (measurements : List Measurement)
    (rb : RingBuffer) : Pushed :=
  if cfg.maxSize ≤ rb.buffer.length then
    if !cfg.allowOverflow then ⟨.error ringBufferOverflowException, rb, []⟩
    else
      let d := discard cfg clock rb.buffer.length rb.ticks rb.buffer
      if cfg.maxSize ≤ d.buffer.length then ⟨.ok (-1), ⟨d.buffer, d.ticks⟩, d.calls⟩
      else store cfg clock id measurements d
  else store cfg clock id measurements ⟨rb.buffer, rb.ticks, [], 0⟩

def deleteLoop (cfg : Config) (id : Int) : List BufferEntry → List BufferEntry × List DeleteCall
  | [] => ([], [])
  | it :: rest =>
    if it.id = id then (rest, notify cfg ⟨some it, false, 0⟩)
    else if cfg.counterMode = 0 ∧ id < it.id then (it :: rest, [])
    else
      let d := deleteLoop cfg id rest
      (it :: d.1, d.2)

def delete (cfg : Config) (id : Int) (rb : RingBuffer) : RingBuffer × List DeleteCall :=
  let d := deleteLoop cfg id rb.buffer
  (⟨d.1, rb.ticks⟩, d.2)

def reset (cfg : Config) (clock : Nat → Nat) (reason : ResetReason) (rb : RingBuffer) :
    ResetInformation × RingBuffer × List DeleteCall :=
  match rb.buffer.head?, rb.buffer.getLast? with
  | some front, some back =>
    (⟨clock rb.ticks, reason, front.timestampMs, back.timestampMs, rb.buffer.length % 2 ^ 32⟩,
      ⟨[], rb.ticks + 1⟩, notify cfg ⟨none, true, 0⟩)
  | _, _ => (⟨0, .unknown, 0, 0, 0⟩, rb, [])

def getLastId (rb : RingBuffer) : Int :=
  match rb.buffer.getLast? with
  | some back => back.id
  | none => -1

def setLocked (index : Nat) (locked : Bool) (rb : RingBuffer) : RingBuffer :=
  { rb with buffer := rb.buffer.modify index (fun e => { e with locked := locked }) }

inductive Op where
  | push (id : Int) (measurements : List Measurement)
  | delete (id : Int)
  | reset (reason : ResetReason)
  | setLocked (index : Nat) (locked : Bool)

def step (cfg : Config) (clock : Nat → Nat) (rb : RingBuffer) : Op → RingBuffer
  | .push id measurements => (push cfg clock id measurements rb).state
  | .delete id => (delete cfg id rb).1
  | .reset reason => (reset cfg clock reason rb).2.1
  | .setLocked index locked => setLocked index locked rb

end RingBuffer

end QdsBuffer
