import QdsBuffer.Types

namespace QdsBuffer.Parsing
open Bytes

inductive ParserEvent where
  | onObjectBegin
  | onObjectEnd
  | onKey
  | onString
  | onInt64
  | onUint64
  | onDouble
  | onBool
  deriving DecidableEq, Repr

-- The value of a scalar is what its untyped pointer points to; none stands for a null pointer.
inductive Scalar where
  | string (valueAsString : Bytes) (value : Option Bytes)
  | int64 (valueAsString : Bytes) (value : Option Int64)
  | uint64 (valueAsString : Bytes) (value : Option UInt64)
  | double (valueAsString : Bytes) (value : Option Binary64)
  | bool (valueAsString : Bytes) (value : Option Bool)
  deriving DecidableEq

inductive Event where
  | onObjectBegin
  | onObjectEnd
  | onKey (value : Bytes)
  | onValue (scalar : Scalar)
  deriving DecidableEq

def Scalar.event : Scalar → ParserEvent
  | .string _ _ => .onString
  | .int64 _ _ => .onInt64
  | .uint64 _ _ => .onUint64
  | .double _ _ => .onDouble
  | .bool _ _ => .onBool

def Scalar.valueAsString : Scalar → Bytes
  | .string s _ => s
  | .int64 s _ => s
  | .uint64 s _ => s
  | .double s _ => s
  | .bool s _ => s

inductive HandlerCall where
  | onDocumentBegin
  | onDocumentEnd
  | onArrayBegin
  | onArrayEnd (size : Nat)
  | onObjectBegin
  | onObjectEnd (size : Nat)
  | onKeyPart (part : Bytes)
  | onKey (key : Bytes)
  | onStringPart (part : Bytes)
  | onString (value : Bytes)
  | onNumberPart (part : Bytes)
  | onInt64 (val : Int64) (value : Bytes)
  | onUint64 (val : UInt64) (value : Bytes)
  | onDouble (val : Binary64) (value : Bytes)
  | onBool (value : Bool)
  | onNull
  | onCommentPart (part : Bytes)
  | onComment (comment : Bytes)
  deriving DecidableEq

def HandlerCall.event : HandlerCall → Option Event
  | .onKey key => some (.onKey key)
  | .onString value => some (.onValue (.string value (some value)))
  | .onInt64 val value => some (.onValue (.int64 value (some val)))
  | .onUint64 val value => some (.onValue (.uint64 value (some val)))
  | .onDouble val value => some (.onValue (.double value (some val)))
  | .onBool value => some (.onValue (.bool (ascii (if value then "true" else "false")) (some value)))
  | .onObjectBegin => some .onObjectBegin
  | .onObjectEnd _ => some .onObjectEnd
  | _ => none

def HandlerCall.answer : HandlerCall → Bool
  | .onNull => false
  | _ => true

namespace JsonParser

variable {σ : Type}

def handle (callback : σ → Event → Except Exception σ) (state : σ) (call : HandlerCall) :
    Except Exception σ :=
  match call.event with
  | some e => callback state e
  | none => .ok state

-- basic_parser stops at the first handler call that answers false.
def writeSome (callback : σ → Event → Except Exception σ) :
    List HandlerCall → σ → Except Exception (Bool × σ)
  | [], state => .ok (true, state)
  | call :: calls, state =>
    match handle callback state call with
    | .error e => .error e
    | .ok state' => if call.answer then writeSome callback calls state' else .ok (false, state')

-- What basic_parser makes of a text: the handler calls in order, the message of the error code it
-- sets, the number n of characters it consumed and the size of the text.
structure Delivery where
  calls : List HandlerCall
  ec : Option Bytes
  n : Nat
  size : Nat

def errorCode (d : Delivery) (completed : Bool) : Option Bytes :=
  match d.ec with
  | some message => some message
  | none =>
    if !completed then some []
    else if d.n < d.size then some (ascii "extra data")
    else none

def parse (callback : σ → Event → Except Exception σ) (d : Delivery) (state : σ) :
    Except Exception ((Bool × Bytes) × σ) :=
  match writeSome callback d.calls state with
  | .error e => .error e
  | .ok (completed, state') =>
    match errorCode d completed with
    | some message => .ok ((false, ascii "Parsing error: " ++ message), state')
    | none => .ok ((true, []), state')

end JsonParser

end QdsBuffer.Parsing
