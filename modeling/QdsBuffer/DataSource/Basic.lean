import QdsBuffer.RingBuffer.Basic
import QdsBuffer.Parsing.DataValidator
import QdsBuffer.Library.KeyedTable

namespace QdsBuffer

abbrev ReferenceContainer := KeyedTable ReferenceData Bytes ReferenceData.ref

def ReferenceContainer.assign (id : Int) (value : Bytes) (t : ReferenceContainer) :
    ReferenceContainer :=
  t.modify value (fun data => { data with id := id }) (fun _ => rfl)

abbrev Files := Bytes → Option Bytes

-- Whether each access to a file of one REF measurement succeeds, given that the file exists.
structure FileAccess where
  fopen : Bool
  ifstream : Bool
  read : Bool
  remove : Bool

structure References where
  refMapping : ReferenceContainer
  refCounter : Nat
  files : Files

structure DataSource.Config where
  bufferSize : Nat
  counterMode : Int8
  allowOverflow : Bool
  resetInformationSize : Nat
  deletionInformationSize : Nat

structure DataSource where
  buffer : RingBuffer
  refs : References
  resetInformationList : ResetInformationList
  deletionInformationList : DeletionInformationList

namespace DataSource
open Bytes

def Config.ring (cfg : Config) : RingBuffer.Config :=
  ⟨cfg.bufferSize, cfg.counterMode, cfg.allowOverflow, true⟩

def initial (files : Files) : DataSource :=
  ⟨RingBuffer.initial, ⟨KeyedTable.empty, 0, files⟩, ⟨[], false⟩, ⟨[], false⟩⟩

def parse (json : Parsing.JsonParser.Delivery) : Except Exception (List Measurement) :=
  match Parsing.JsonParser.parse (fun state event =>
    Parsing.DataValidator.parserCallback (some state) event) json Parsing.ParsingState.initial with
  | .error e => .error e
  | .ok ((ok, errorMsg), state) =>
    if !ok then .error (parsingException errorMsg "DataSourceInternal::Add") else .ok state.data

def setReference (ref data dataFormat : Bytes) (s : DataSource) : Except Exception Unit × DataSource :=
  match s.refs.refMapping.find ref with
  | some _ =>
    (.error (refException (ascii "Reference " ++ ref ++ ascii " exists already")
      "DataSourceInternal::SetRef"), s)
  | none =>
    (.ok (), { s with
      refs := { s.refs with refMapping := s.refs.refMapping.emplace ⟨0, ref, dataFormat, data⟩ } })

def getReference (ref : Bytes) (s : DataSource) : Except Exception ReferenceData :=
  match s.refs.refMapping.find ref with
  | some d => .ok d
  | none =>
    .error (refException (ascii "Reference " ++ ref ++ ascii " not found")
      "DataSourceInternal::GetRef")

inductive Turn where
  | next (d : Measurement)
  | leave
  | throw (e : Exception)

def processError (msg : Bytes) : Exception :=
  refException msg "DataSourceInternal::ProcessRefMapping"

def fileError (msg : Bytes) : Exception :=
  fileIoException msg "DataSourceInternal::ProcessRefMapping"

def formatOf (value : Bytes) : Bytes :=
  if value.contains 46 then (value.reverse.takeWhile (· ≠ 46)).reverse else ascii "unknown"

def generatedRef (counter : Nat) : Bytes := ascii "ref-" ++ decimal counter

-- Reads the file and removes it; the paths given to the file functions end at the first NUL byte.
def loadFile (access : FileAccess) (files : Files) (path : Bytes) : Except Exception (Bytes × Files) :=
  match if access.ifstream then files (cString path) else none with
  | none => .error (fileError (ascii "Could not open file " ++ path))
  | some buffer =>
    if buffer.length = 0 then .error (fileError (ascii "File size is 0 bytes"))
    else if !access.read then .error (fileError (ascii "Could not read from file " ++ path))
    else if !access.remove then .error (fileError (ascii "Could not delete file " ++ path))
    else .ok (buffer, fun p => if p = cString path then none else files p)

def processRef (id : Int) (access : FileAccess) (d : Measurement) (r : References) :
    Turn × References :=
  match d.value with
  | .string value =>
    match r.refMapping.find value with
    | some it =>
      if it.id = 0 then
        (.leave, { r with refMapping := r.refMapping.assign id value })
      else
        (.throw (processError (ascii "The reference '" ++ value ++ ascii "' is already in use")), r)
    | none =>
      if access.fopen && (r.files (cString value)).isSome then
        let ref := generatedRef r.refCounter
        let counted := { r with refCounter := (r.refCounter + 1) % 2 ^ 64 }
        match loadFile access r.files value with
        | .error e => (.throw e, counted)
        | .ok (buffer, files) =>
          (.next { d with value := .string ref },
            { counted with
              refMapping := r.refMapping.emplace ⟨id, ref, formatOf value, buffer⟩
              files := files })
      else
        (.throw (processError (ascii "The reference of '" ++ d.name ++
          ascii "' is neither an existing file, nor an existing reference")), r)
  | _ => (.throw badGet, r)

def processRefMapping (id : Int) (access : Nat → FileAccess) :
    List Measurement → References → Except Exception (List Measurement) × References
  | [], r => (.ok [], r)
  | d :: data, r =>
    if d.type = .ref then
      match processRef id (access 0) d r with
      | (.next d', r') =>
        let p := processRefMapping id (fun n => access (n + 1)) data r'
        (p.1.map (d' :: ·), p.2)
      | (.leave, r') => (.ok (d :: data), r')
      | (.throw e, r') => (.error e, r')
    else
      let p := processRefMapping id (fun n => access (n + 1)) data r
      (p.1.map (d :: ·), p.2)

def deleteRefMapping (id : Int) (clear : Bool) (s : DataSource) : DataSource :=
  { s with
    refs := { s.refs with
      refMapping :=
        if clear then KeyedTable.empty else s.refs.refMapping.erase (fun d => d.id = id) } }

def logDeletion (cfg : Config) (info : DeletionInformation) (l : DeletionInformationList) :
    DeletionInformationList :=
  let list := l.list ++ [info]
  if cfg.deletionInformationSize < list.length then ⟨list.tail, true⟩
  else ⟨list, l.exceededMaxEntries⟩

def onDeleteCallback (cfg : Config) (s : DataSource) (call : DeleteCall) : DataSource :=
  match call.entry with
  | some entry =>
    deleteRefMapping entry.id call.clear
      { s with
        deletionInformationList :=
          logDeletion cfg ⟨call.timestampMs, entry.timestampMs⟩ s.deletionInformationList }
  | none => deleteRefMapping 0 call.clear s

-- RingBuffer::Push with the delete callbacks that it makes while it holds the lock of the buffer.
def pushSection (cfg : Config) (clock : Nat → Nat) (id : Int) (measurement : List Measurement)
    (s : DataSource) : Except Exception Int × DataSource :=
  let p := RingBuffer.push cfg.ring clock id measurement s.buffer
  (p.result, p.calls.foldl (onDeleteCallback cfg) { s with buffer := p.state })

def failed : Except Exception Int → Bool
  | .error _ => true
  | .ok deletionCount => deletionCount < 0

def pushMeasurements (cfg : Config) (clock : Nat → Nat) (id : Int) (measurement : List Measurement)
    (s : DataSource) : Except Exception Int × DataSource :=
  let p := pushSection cfg clock id measurement s
  if failed p.1 then (p.1, deleteRefMapping id false p.2) else p

def add (cfg : Config) (clock : Nat → Nat) (id : Int) (json : Parsing.JsonParser.Delivery)
    (access : Nat → FileAccess) (s : DataSource) : Except Exception Int × DataSource :=
  match parse json with
  | .error e => (.error e, s)
  | .ok data =>
    match processRefMapping id access data s.refs with
    | (.error e, refs) => (.error e, { s with refs := refs })
    | (.ok measurement, refs) => pushMeasurements cfg clock id measurement { s with refs := refs }

def delete (cfg : Config) (id : Int) (s : DataSource) : DataSource :=
  let d := RingBuffer.delete cfg.ring id s.buffer
  d.2.foldl (onDeleteCallback cfg) { s with buffer := d.1 }

def logReset (cfg : Config) (info : ResetInformation) (l : ResetInformationList) :
    ResetInformationList :=
  let list := l.list ++ [info]
  let list := if info.resetTimeMs = 0 then list.dropLast else list
  if cfg.resetInformationSize < list.length then ⟨list.tail, true⟩
  else ⟨list, l.exceededMaxEntries⟩

def reset (cfg : Config) (clock : Nat → Nat) (reason : ResetReason) (s : DataSource) : DataSource :=
  let p := RingBuffer.reset cfg.ring clock reason s.buffer
  let s' := p.2.2.foldl (onDeleteCallback cfg) { s with buffer := p.2.1 }
  { s' with resetInformationList := logReset cfg p.1 s'.resetInformationList }

def isReset (s : DataSource) : Bool := !s.resetInformationList.list.isEmpty

def acknowledgeReset (s : DataSource) : ResetInformationList × DataSource :=
  (s.resetInformationList, { s with resetInformationList := ⟨[], false⟩ })

def isOverflown (s : DataSource) : Bool := !s.deletionInformationList.list.isEmpty

def acknowledgeOverflow (s : DataSource) : DeletionInformationList × DataSource :=
  (s.deletionInformationList, { s with deletionInformationList := ⟨[], false⟩ })

inductive Op where
  | setReference (ref data dataFormat : Bytes)
  | add (id : Int) (json : Parsing.JsonParser.Delivery) (access : Nat → FileAccess)
  | delete (id : Int)
  | reset (reason : ResetReason)
  | acknowledgeReset
  | acknowledgeOverflow
  | setLocked (index : Nat) (locked : Bool)
  | changeFiles (files : Files)

def step (cfg : Config) (clock : Nat → Nat) (s : DataSource) : Op → DataSource
  | .setReference ref data dataFormat => (setReference ref data dataFormat s).2
  | .add id json access => (add cfg clock id json access s).2
  | .delete id => delete cfg id s
  | .reset reason => reset cfg clock reason s
  | .acknowledgeReset => (acknowledgeReset s).2
  | .acknowledgeOverflow => (acknowledgeOverflow s).2
  | .setLocked index locked => { s with buffer := s.buffer.setLocked index locked }
  | .changeFiles files => { s with refs := { s.refs with files := files } }

def run (cfg : Config) (clock : Nat → Nat) (files : Files) (ops : List Op) : DataSource :=
  Runs.run (step cfg clock) (initial files) ops

end DataSource

end QdsBuffer
