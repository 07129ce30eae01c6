import QdsBuffer.Library.Binary64

namespace QdsBuffer
open Bytes

inductive ExceptionKind where
  | parsing
  | ringBuffer
  | ringBufferOverflow
  | ref
  | fileIo
  | badGet
  deriving DecidableEq, Repr

structure Exception where
  kind : ExceptionKind
  msg : Bytes
  scope : Bytes
  deriving DecidableEq, Repr

def parsingException (msg : Bytes) (scope : String) : Exception := ⟨.parsing, msg, ascii scope⟩

def ringBufferException (msg : Bytes) (scope : String) : Exception :=
  ⟨.ringBuffer, msg, ascii scope⟩

def ringBufferOverflowException : Exception :=
  ⟨.ringBufferOverflow, ascii "Ring buffer overflow", ascii "RingBufferOverflowException"⟩

def refException (msg : Bytes) (scope : String) : Exception := ⟨.ref, msg, ascii scope⟩

def fileIoException (msg : Bytes) (scope : String) : Exception := ⟨.fileIo, msg, ascii scope⟩

def badGet : Exception := ⟨.badGet, ascii "boost::bad_get: failed value get using boost::get", []⟩

inductive MeasurementType where
  | notSet
  | string
  | integer
  | float
  | long
  | double
  | bool
  | word
  | timestamp
  | ref
  | foreignKey
  deriving DecidableEq, Repr

inductive Value where
  | blank
  | string (s : Bytes)
  | int64 (i : Int64)
  | double (d : Binary64)
  | bool (b : Bool)
  deriving DecidableEq

structure Measurement where
  name : Bytes
  type : MeasurementType
  unit : Bytes
  value : Value
  deriving DecidableEq

namespace Measurement

def fresh : Measurement := ⟨[], .notSet, [], .blank⟩

def typesMap : List (Bytes × MeasurementType) :=
  [(ascii "STRING", .string), (ascii "INTEGER", .integer), (ascii "INT", .integer),
   (ascii "FLOAT", .float), (ascii "LONG", .long), (ascii "DOUBLE", .double),
   (ascii "BOOL", .bool), (ascii "WORD", .word), (ascii "TIMESTAMP", .timestamp),
   (ascii "REF", .ref), (ascii "FOREIGN_KEY", .foreignKey)]

def setTypeFromString (d : Measurement) (type : Bytes) : Measurement :=
  { d with type := (typesMap.lookup type).getD .notSet }

def typeNames : List (MeasurementType × Bytes) :=
  [(.string, ascii "STRING"), (.integer, ascii "INTEGER"), (.float, ascii "FLOAT"),
   (.long, ascii "LONG"), (.double, ascii "DOUBLE"), (.bool, ascii "BOOL"), (.word, ascii "WORD"),
   (.timestamp, ascii "TIMESTAMP"), (.ref, ascii "REF"), (.foreignKey, ascii "FOREIGN_KEY")]

def typeToString (d : Measurement) : Bytes := (typeNames.lookup d.type).getD []

def valueToString (d : Measurement) : Bytes :=
  match d.value with
  | .blank => []
  | .string value => value
  | .int64 value => decimalInt value.toInt
  | .double value => value.toText
  | .bool value => ascii (if value then "true" else "false")

theorem typesMap_typeToString {d : Measurement} (h : d.type ≠ .notSet) :
    typesMap.lookup d.typeToString = some d.type := by
  unfold typeToString
  cases ht : d.type with
  | notSet => exact absurd ht h
  | _ => rfl

end Measurement

structure BufferEntry where
  id : Int
  measurements : List Measurement
  timestampMs : Nat
  locked : Bool
  deriving DecidableEq

inductive ResetReason where
  | unknown
  | system
  | user
  deriving DecidableEq, Repr

structure ResetInformation where
  resetTimeMs : Nat
  resetReason : ResetReason
  oldestDatasetTimeMs : Nat
  newestDatasetTimeMs : Nat
  deletedDatasetsCount : Nat
  deriving DecidableEq, Repr

structure ResetInformationList where
  list : List ResetInformation
  exceededMaxEntries : Bool
  deriving DecidableEq, Repr

structure DeletionInformation where
  deletionTimeMs : Nat
  dataSetTimeMs : Nat
  deriving DecidableEq, Repr

structure DeletionInformationList where
  list : List DeletionInformation
  exceededMaxEntries : Bool
  deriving DecidableEq, Repr

structure ReferenceData where
  id : Int
  ref : Bytes
  format : Bytes
  content : Bytes
  deriving DecidableEq, Repr

end QdsBuffer
