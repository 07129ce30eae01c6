import QdsBuffer.Parsing.JsonParser
import QdsBuffer.Parsing.Iso8601

namespace QdsBuffer.Parsing
open Bytes

inductive Validator where
  | name
  | type
  | unit
  | value
  | decimals
  deriving DecidableEq, Repr

structure ParsingState where
  data : List Measurement
  validator : Option Validator
  hasKey : Bool
  currentElementCompleted : Bool
  deriving DecidableEq

def ParsingState.initial : ParsingState := ⟨[], none, false, false⟩

namespace DataValidator

def eventMap : ParserEvent → Bytes
  | .onString => ascii "string"
  | .onInt64 => ascii "int64_t"
  | .onUint64 => ascii "uint64_t"
  | .onDouble => ascii "double"
  | .onBool => ascii "bool"
  | _ => []

def wrongTypeError (keyName : Bytes) (scalar : Scalar) (expected : ParserEvent) : Exception :=
  parsingException
    (keyName ++ ascii " value '" ++ scalar.valueAsString ++ ascii "' has wrong type (" ++
      eventMap scalar.event ++ ascii "), should be " ++ eventMap expected)
    "DataValidator::ThrowWrongTypeError"

def buildError (msg : Bytes) : Exception :=
  parsingException msg "DataValidator::BuildParseValidation"

def validateString (keyName : String) (present : Measurement → Bool)
    (assign : Measurement → Bytes → Except Exception Measurement) (scalar : Scalar)
    (data : Measurement) : Except Exception Measurement :=
  match scalar with
  | .string s _ =>
    if present data then
      .error (buildError (ascii "Duplicate " ++ ascii keyName ++ ascii " key"))
    else assign data s
  | _ => .error (wrongTypeError (ascii keyName) scalar .onString)

def validateName : Scalar → Measurement → Except Exception Measurement :=
  validateString "NAME" (fun d => !d.name.isEmpty) (fun d s => .ok { d with name := s })

def validateType : Scalar → Measurement → Except Exception Measurement :=
  validateString "TYPE" (fun d => d.type ≠ .notSet) (fun d s =>
    let d := d.setTypeFromString s
    if d.type = .notSet then
      .error (buildError (ascii "Invalid TYPE value '" ++ s ++ ascii "'"))
    else .ok d)

def validateUnit : Scalar → Measurement → Except Exception Measurement :=
  validateString "UNIT" (fun d => !d.unit.isEmpty) (fun d s => .ok { d with unit := s })

def scalarValue : Scalar → Option Value
  | .string _ value => value.map .string
  | .int64 _ value => value.map .int64
  | .uint64 _ value => value.map (fun u => .int64 u.toInt64)
  | .double _ value => value.map .double
  | .bool _ value => value.map .bool

def validateValue (scalar : Scalar) (data : Measurement) : Except Exception Measurement :=
  match scalarValue scalar with
  | none => .error (buildError (ascii "value is null"))
  | some v =>
    if data.value ≠ .blank then .error (buildError (ascii "Duplicate VALUE key"))
    else .ok { data with value := v }

def validateDecimals (_ : Scalar) (data : Measurement) : Except Exception Measurement := .ok data

def validate : Validator → Scalar → Measurement → Except Exception Measurement
  | .name => validateName
  | .type => validateType
  | .unit => validateUnit
  | .value => validateValue
  | .decimals => validateDecimals

def buildParseValidation : List (Bytes × Validator) :=
  [(ascii "NAME", .name), (ascii "TYPE", .type), (ascii "UNIT", .unit), (ascii "VALUE", .value),
   (ascii "DECIMALS", .decimals)]

-- strncmp of a NUL-terminated text with value and its length, compared with 0.
def strncmpEq : Bytes → Bytes → Bool
  | _, [] => true
  | [], v :: _ => v = 0
  | e :: es, v :: vs => e = v && strncmpEq es vs

def onObjectBegin (state : ParsingState) : Except Exception ParsingState :=
  .ok { state with data := state.data ++ [Measurement.fresh], currentElementCompleted := false }

def endError (msg : Bytes) : Exception := parsingException msg "DataValidator::OnObjectEnd"

def isHexDigit (b : UInt8) : Bool := (ascii "0123456789abcdefABCDEF").contains b

def floatMax : Binary64 := ⟨0x47EFFFFFE0000000⟩

def checkValue (data : Measurement) : Except Exception Unit :=
  match data.type, data.value with
  | .string, .string _ => .ok ()
  | .integer, .int64 value =>
    if 2147483647 < value.toInt then
      .error (endError (ascii "Invalid INTEGER value '" ++ decimalInt value.toInt ++ ascii "'"))
    else .ok ()
  | .long, .int64 _ => .ok ()
  | .float, .double value =>
    if value.gt floatMax then
      .error (endError (ascii "Invalid FLOAT value '" ++ value.toText ++ ascii "'"))
    else .ok ()
  | .double, .double _ => .ok ()
  | .bool, .bool _ => .ok ()
  | .word, .string value =>
    if value.length ≠ 4 || !value.all isHexDigit then
      .error (endError (ascii "Invalid WORD value '" ++ value ++ ascii "'"))
    else .ok ()
  | .timestamp, .string value =>
    if !isTimestamp value then
      .error (endError (ascii "Invalid TIMESTAMP value '" ++ value ++ ascii "'"))
    else .ok ()
  | .ref, .string _ => .ok ()
  | .foreignKey, .string _ => .ok ()
  | .notSet, _ => .error (endError (ascii "Measurement has bad TYPE"))
  | _, _ => .error (endError (ascii "VALUE of '" ++ data.name ++ ascii "' does not match its TYPE"))

def checkMeasurement (data : Measurement) : Except Exception Unit :=
  if data.name.isEmpty then .error (endError (ascii "Measurement missing NAME"))
  else if data.type = .notSet then .error (endError (ascii "Measurement missing TYPE"))
  else if data.value = .blank then .error (endError (ascii "Measurement missing VALUE"))
  else checkValue data

def placed (front : List Measurement) (back : Measurement) : List Measurement :=
  if back.type = .timestamp then back :: front else front ++ [back]

def onObjectEnd (state : ParsingState) : Except Exception ParsingState :=
  match state.data.getLast?, state.currentElementCompleted with
  | some data, false =>
    match checkMeasurement data with
    | .error e => .error e
    | .ok () =>
      .ok { state with data := placed state.data.dropLast data, currentElementCompleted := true }
  | _, _ => .error (endError (ascii "Invalid JSON"))

def onKey (state : ParsingState) (value : Bytes) : Except Exception ParsingState :=
  if state.data.isEmpty || state.currentElementCompleted then
    .error (parsingException (ascii "Entry '" ++ value ++ ascii "' is not an object")
      "DataValidator::OnKey")
  else
    match buildParseValidation.find? (fun entry => strncmpEq entry.1 value) with
    | some entry => .ok { state with hasKey := true, validator := some entry.2 }
    | none =>
      .error (parsingException (ascii "Invalid key '" ++ value ++ ascii "'") "DataValidator::OnKey")

def applyValidator (validator : Option Validator) (scalar : Scalar) (data : Measurement) :
    Except Exception Measurement :=
  match validator with
  | some v => validate v scalar data
  | none => .ok data

def onValue (state : ParsingState) (scalar : Scalar) : Except Exception ParsingState :=
  match state.data.getLast?, state.currentElementCompleted with
  | some data, false =>
    if !state.hasKey then
      .error (parsingException (ascii "Missing key for value '" ++ scalar.valueAsString ++ ascii "'")
        "DataValidator::OnValue")
    else
      match applyValidator state.validator scalar data with
      | .error e => .error e
      | .ok data' =>
        .ok { state with data := state.data.dropLast ++ [data'], hasKey := false, validator := none }
  | _, _ =>
    .error (parsingException (ascii "Entry '" ++ scalar.valueAsString ++ ascii "' is not an object")
      "DataValidator::OnValue")

def dispatch (state : ParsingState) : Event → Except Exception ParsingState
  | .onObjectBegin => onObjectBegin state
  | .onObjectEnd => onObjectEnd state
  | .onKey value => onKey state value
  | .onValue scalar => onValue state scalar

def parserCallback (state : Option ParsingState) (event : Event) : Except Exception ParsingState :=
  match state with
  | none =>
    .error (parsingException (ascii "state is null") "DataValidator::ParserCallback")
  | some parsingState => dispatch parsingState event

end DataValidator

end QdsBuffer.Parsing
