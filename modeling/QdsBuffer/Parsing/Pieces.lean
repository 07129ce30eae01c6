import QdsBuffer.Parsing.DataValidator
import Mathlib.Data.List.Forall2

namespace QdsBuffer.Parsing
open Bytes

-- A decoded string or key as it is delivered: the pieces of the part calls and the last piece.
structure Cut where
  parts : List Bytes
  last : Bytes
  deriving DecidableEq

def Cut.whole (c : Cut) : Bytes := c.parts.flatten ++ c.last

def Cut.uncut (value : Bytes) : Cut := ⟨[], value⟩

theorem Cut.whole_of_uncut {c : Cut} (h : c.parts = []) : c.whole = c.last := by
  rw [whole, h, List.flatten_nil, List.nil_append]

inductive Token where
  | key (c : Cut)
  | string (c : Cut)
  | other (call : HandlerCall)

namespace Token

def pieces : Token → List HandlerCall
  | key c => c.parts.map .onKeyPart ++ [.onKey c.last]
  | string c => c.parts.map .onStringPart ++ [.onString c.last]
  | other call => [call]

def single : Token → HandlerCall
  | key c => .onKey c.whole
  | string c => .onString c.whole
  | other call => call

def final : Token → HandlerCall
  | key c => .onKey c.last
  | string c => .onString c.last
  | other call => call

def Undivided : Token → Prop
  | key c => c.parts = []
  | string c => c.parts = []
  | other _ => True

end Token

mutual

inductive Json where
  | null
  | bool (value : Bool)
  | int64 (val : Int64) (text : Bytes)
  | uint64 (val : UInt64) (text : Bytes)
  | double (val : Binary64) (text : Bytes)
  | string (value : Cut)
  | array (elements : Elements)
  | object (members : Members)

inductive Elements where
  | nil
  | cons (value : Json) (elements : Elements)

inductive Members where
  | nil
  | cons (key : Cut) (value : Json) (members : Members)

end

def Elements.size : Elements → Nat
  | .nil => 0
  | .cons _ elements => elements.size + 1

def Members.size : Members → Nat
  | .nil => 0
  | .cons _ _ members => members.size + 1

mutual

def Json.tokens : Json → List Token
  | .null => [.other .onNull]
  | .bool value => [.other (.onBool value)]
  | .int64 val text => [.other (.onInt64 val text)]
  | .uint64 val text => [.other (.onUint64 val text)]
  | .double val text => [.other (.onDouble val text)]
  | .string value => [.string value]
  | .array elements =>
    .other .onArrayBegin :: (elements.tokens ++ [.other (.onArrayEnd elements.size)])
  | .object members =>
    .other .onObjectBegin :: (members.tokens ++ [.other (.onObjectEnd members.size)])

def Elements.tokens : Elements → List Token
  | .nil => []
  | .cons value elements => value.tokens ++ elements.tokens

def Members.tokens : Members → List Token
  | .nil => []
  | .cons key value members => .key key :: (value.tokens ++ members.tokens)

end

def Json.document (doc : Json) : List Token :=
  .other .onDocumentBegin :: (doc.tokens ++ [.other .onDocumentEnd])

def Json.inPieces (doc : Json) : List HandlerCall := doc.document.flatMap Token.pieces

def Json.inSingleCalls (doc : Json) : List HandlerCall := doc.document.map Token.single

namespace DataValidator

def outcome (d : JsonParser.Delivery) : Option (List Measurement) :=
  match JsonParser.parse (fun state event => parserCallback (some state) event) d
    ParsingState.initial with
  | .ok ((true, _), state) => some state.data
  | _ => none

def keyValidator (key : Bytes) : Option Validator :=
  (buildParseValidation.find? (fun entry => strncmpEq entry.1 key)).map (·.2)

def Harmless : Token → Prop
  | .key c => keyValidator c.last = keyValidator c.whole
  | .string c => c.parts.flatten = []
  | .other _ => True

inductive SameCall : HandlerCall → HandlerCall → Prop
  | same (call : HandlerCall) : SameCall call call
  | key {k k' : Bytes} : keyValidator k = keyValidator k' → SameCall (.onKey k) (.onKey k')

abbrev write (calls : List HandlerCall) (state : ParsingState) : Except Exception (Bool × ParsingState) :=
  JsonParser.writeSome (fun state event => parserCallback (some state) event) calls state

theorem onKey_eq (state : ParsingState) (key : Bytes) :
    (onKey state key).toOption =
      if state.data.isEmpty || state.currentElementCompleted then none
      else (keyValidator key).map (fun v => { state with hasKey := true, validator := some v }) := by
  unfold onKey keyValidator
  split
  · rfl
  · cases buildParseValidation.find? (fun entry => strncmpEq entry.1 key) with
    | none => rfl
    | some entry => rfl

theorem SameCall.handle {call call' : HandlerCall} (h : SameCall call call') (state : ParsingState) :
    (JsonParser.handle (fun state event => parserCallback (some state) event) state call).toOption =
      (JsonParser.handle (fun state event => parserCallback (some state) event) state call').toOption := by
  cases h with
  | same => rfl
  | @key k k' hk =>
    change (onKey state k).toOption = (onKey state k').toOption
    rw [onKey_eq, onKey_eq, hk]

theorem SameCall.answer {call call' : HandlerCall} (h : SameCall call call') :
    call.answer = call'.answer := by
  cases h with
  | same => rfl
  | key => rfl

theorem toOption_eq_some {ε α : Type} {x : Except ε α} {a : α} :
    x.toOption = some a ↔ x = .ok a := by
  cases x with
  | error e => simp [Except.toOption]
  | ok b => simp [Except.toOption]

theorem write_same {calls calls' : List HandlerCall} (h : List.Forall₂ SameCall calls calls')
    (state : ParsingState) : (write calls state).toOption = (write calls' state).toOption := by
  induction h generalizing state with
  | nil => rfl
  | @cons call call' rest rest' hc _ ih =>
    have hh := hc.handle state
    simp only [write, JsonParser.writeSome]
    rcases hx : JsonParser.handle (fun state event => parserCallback (some state) event) state call
      with e | st
    · rw [hx] at hh
      rcases hx' : JsonParser.handle (fun state event => parserCallback (some state) event) state call'
        with e' | st'
      · rfl
      · rw [hx'] at hh
        cases hh
    · rw [hx] at hh
      rw [toOption_eq_some.mp hh.symm]
      simp only [hc.answer]
      split
      · exact ih st
      · rfl

theorem write_silent {call : HandlerCall} (he : call.event = none) (ha : call.answer = true)
    (calls : List HandlerCall) (state : ParsingState) :
    write (call :: calls) state = write calls state := by
  simp [write, JsonParser.writeSome, JsonParser.handle, he, ha]

theorem write_parts (f : Bytes → HandlerCall) (hf : ∀ p, (f p).event = none ∧ (f p).answer = true)
    (parts : List Bytes) (calls : List HandlerCall) (state : ParsingState) :
    write (parts.map f ++ calls) state = write calls state := by
  induction parts with
  | nil => rfl
  | cons p parts ih =>
    rw [List.map_cons, List.cons_append, write_silent (hf p).1 (hf p).2, ih]

theorem write_cons_congr {calls calls' : List HandlerCall} (call : HandlerCall)
    (h : ∀ state, write calls state = write calls' state) (state : ParsingState) :
    write (call :: calls) state = write (call :: calls') state := by
  simp only [write, JsonParser.writeSome] at h ⊢
  cases JsonParser.handle (fun state event => parserCallback (some state) event) state call with
  | error e => rfl
  | ok st =>
    simp only [h st]

theorem write_pieces (tokens : List Token) (state : ParsingState) :
    write (tokens.flatMap Token.pieces) state = write (tokens.map Token.final) state := by
  induction tokens generalizing state with
  | nil => rfl
  | cons t tokens ih =>
    rw [List.flatMap_cons, List.map_cons]
    cases t with
    | key c =>
      rw [Token.pieces, List.append_assoc, write_parts .onKeyPart (fun _ => ⟨rfl, rfl⟩)]
      exact write_cons_congr (.onKey c.last) ih state
    | string c =>
      rw [Token.pieces, List.append_assoc, write_parts .onStringPart (fun _ => ⟨rfl, rfl⟩)]
      exact write_cons_congr (.onString c.last) ih state
    | other call => exact write_cons_congr call ih state

theorem outcome_congr {calls calls' : List HandlerCall}
    (h : (write calls ParsingState.initial).toOption = (write calls' ParsingState.initial).toOption)
    (ec : Option Bytes) (n size : Nat) : outcome ⟨calls, ec, n, size⟩ = outcome ⟨calls', ec, n, size⟩ := by
  unfold outcome JsonParser.parse
  rcases hx : write calls ParsingState.initial with e | p
  · rcases hx' : write calls' ParsingState.initial with e' | p'
    · simp only [hx, hx']
    · rw [hx, hx'] at h
      cases h
  · rw [hx] at h
    simp only [hx, toOption_eq_some.mp h.symm]
    rfl

theorem Harmless.sameCall {t : Token} (h : Harmless t) : SameCall t.final t.single := by
  cases t with
  | key c => exact .key h
  | string c =>
    have hw : c.whole = c.last := by rw [Cut.whole, h, List.nil_append]
    simpa only [Token.final, Token.single, hw] using SameCall.same (.onString c.last)
  | other call => exact .same call

theorem outcome_of_harmless {tokens : List Token} (h : ∀ t ∈ tokens, Harmless t)
    (ec : Option Bytes) (n size : Nat) :
    outcome ⟨tokens.flatMap Token.pieces, ec, n, size⟩ =
      outcome ⟨tokens.map Token.single, ec, n, size⟩ := by
  apply outcome_congr
  rw [write_pieces]
  apply write_same
  induction tokens with
  | nil => exact .nil
  | cons t tokens ih =>
    exact .cons (h t List.mem_cons_self).sameCall (ih (fun u hu => h u (List.mem_cons_of_mem t hu)))

def text (value : String) : Json := .string (Cut.uncut (ascii value))

def member (key value : String) (members : Members) : Members :=
  .cons (Cut.uncut (ascii key)) (text value) members

def valueContext (c : Cut) : Json :=
  .object (member "NAME" "a" (member "TYPE" "STRING" (.cons (Cut.uncut (ascii "VALUE")) (.string c) .nil)))

def otherMembers : Validator → Members
  | .name => member "TYPE" "STRING" (member "VALUE" "a" .nil)
  | .type => member "NAME" "a" (member "VALUE" "a" .nil)
  | .value => member "NAME" "a" (member "TYPE" "STRING" .nil)
  | _ => member "NAME" "a" (member "TYPE" "STRING" (member "VALUE" "a" .nil))

def keyContext (v : Validator) (c : Cut) : Json :=
  .object (.cons c (text (if v = .type then "STRING" else "a")) (otherMembers v))

def keyOf : Option Validator → Bytes
  | some .name => ascii "NAME"
  | some .type => ascii "TYPE"
  | some .unit => ascii "UNIT"
  | some .value => ascii "VALUE"
  | some .decimals => ascii "DECIMALS"
  | none => ascii "X"

def keyOutcome (v : Validator) (key : Bytes) : Option (List Measurement) :=
  outcome ⟨(keyContext v (Cut.uncut key)).inSingleCalls, none, 0, 0⟩

theorem keyValidator_keyOf (o : Option Validator) : keyValidator (keyOf o) = o := by
  cases o with
  | none => rfl
  | some v => cases v <;> rfl

theorem keyOutcome_ne {v : Validator} {o : Option Validator} (h : o ≠ some v) :
    keyOutcome v (keyOf o) ≠ keyOutcome v (keyOf (some v)) := by
  cases o with
  | none => cases v <;> decide
  | some w => cases v <;> cases w <;> first | exact absurd rfl h | decide

theorem outcome_inPieces (doc : Json) :
    outcome ⟨doc.inPieces, none, 0, 0⟩ = outcome ⟨doc.document.map Token.final, none, 0, 0⟩ :=
  outcome_congr (by rw [Json.inPieces, write_pieces]) none 0 0

theorem keyOutcome_congr {v : Validator} {key key' : Bytes}
    (h : keyValidator key = keyValidator key') : keyOutcome v key = keyOutcome v key' := by
  apply outcome_congr
  apply write_same
  have hrest : ∀ calls, List.Forall₂ SameCall calls calls :=
    fun calls => List.forall₂_same.mpr (fun call _ => .same call)
  exact .cons (.same _) (.cons (.same _) (.cons (.key h) (hrest _)))

theorem keyOutcome_of_validator (v : Validator) (key : Bytes) :
    keyOutcome v key = keyOutcome v (keyOf (keyValidator key)) :=
  keyOutcome_congr (keyValidator_keyOf _).symm

theorem valueContext_tokens (c : Cut) :
    ∀ t ∈ (valueContext c).tokens, t.Undivided ∨ t = .string c := by
  simp [valueContext, member, text, Json.tokens, Members.tokens, Token.Undivided, Cut.uncut]

theorem keyContext_tokens (v : Validator) (c : Cut) :
    ∀ t ∈ (keyContext v c).tokens, t.Undivided ∨ t = .key c := by
  cases v <;> simp [keyContext, otherMembers, member, text, Json.tokens, Members.tokens,
    Token.Undivided, Cut.uncut]

theorem value_harmless {c : Cut}
    (h : outcome ⟨(valueContext c).inPieces, none, 0, 0⟩ =
      outcome ⟨(valueContext c).inSingleCalls, none, 0, 0⟩) : Harmless (.string c) := by
  have hlast : outcome ⟨(valueContext c).document.map Token.final, none, 0, 0⟩ =
      some [⟨ascii "a", .string, [], .string c.last⟩] := rfl
  have hwhole : outcome ⟨(valueContext c).inSingleCalls, none, 0, 0⟩ =
      some [⟨ascii "a", .string, [], .string c.whole⟩] := rfl
  rw [outcome_inPieces, hlast, hwhole] at h
  simp only [Option.some.injEq, List.cons.injEq, Measurement.mk.injEq, Value.string.injEq,
    true_and, and_true] at h
  exact List.self_eq_append_left.mp h

theorem key_harmless {c : Cut}
    (h : ∀ v, outcome ⟨(keyContext v c).inPieces, none, 0, 0⟩ =
      outcome ⟨(keyContext v c).inSingleCalls, none, 0, 0⟩) : Harmless (.key c) := by
  have hv : ∀ v, keyOutcome v (keyOf (keyValidator c.last)) =
      keyOutcome v (keyOf (keyValidator c.whole)) := by
    intro v
    have hlast : outcome ⟨(keyContext v c).inPieces, none, 0, 0⟩ = keyOutcome v c.last := by
      rw [outcome_inPieces]
      cases v <;> rfl
    have hwhole : outcome ⟨(keyContext v c).inSingleCalls, none, 0, 0⟩ = keyOutcome v c.whole := rfl
    rw [← keyOutcome_of_validator, ← keyOutcome_of_validator, ← hlast, ← hwhole]
    exact h v
  by_contra hne
  cases hl : keyValidator c.last with
  | some v =>
    rw [hl] at hv
    exact keyOutcome_ne (fun heq => hne (hl.trans heq.symm)) (hv v).symm
  | none =>
    cases hw : keyValidator c.whole with
    | none => exact hne (hl.trans hw.symm)
    | some v =>
      rw [hl, hw] at hv
      exact keyOutcome_ne (by simp) (hv v)

theorem Undivided_harmless {t : Token} (h : t.Undivided) : Harmless t := by
  cases t with
  | key c => exact congrArg keyValidator (Cut.whole_of_uncut h).symm
  | string c => exact congrArg List.flatten h
  | other call => trivial

theorem document_harmless {doc : Json} (h : ∀ t ∈ doc.tokens, Harmless t) :
    ∀ t ∈ doc.document, Harmless t := by
  intro t ht
  rcases List.mem_cons.mp ht with rfl | ht
  · trivial
  · rcases List.mem_append.mp ht with ht | ht
    · exact h t ht
    · rw [List.mem_singleton.mp ht]
      trivial

theorem divided_same_outcome_iff (cuts : Token → Prop) :
    (∀ doc : Json, (∀ t ∈ doc.tokens, t.Undivided ∨ cuts t) → ∀ ec n size,
      outcome ⟨doc.inPieces, ec, n, size⟩ = outcome ⟨doc.inSingleCalls, ec, n, size⟩) ↔
    ∀ t, cuts t → Harmless t := by
  constructor
  · intro hall t ht
    cases t with
    | key c =>
      apply key_harmless
      intro v
      refine hall (keyContext v c) ?_ none 0 0
      intro t hm
      rcases keyContext_tokens v c t hm with hu | rfl
      · exact .inl hu
      · exact .inr ht
    | string c =>
      apply value_harmless
      refine hall (valueContext c) ?_ none 0 0
      intro t hm
      rcases valueContext_tokens c t hm with hu | rfl
      · exact .inl hu
      · exact .inr ht
    | other call => trivial
  · intro hharm doc hdoc ec n size
    apply outcome_of_harmless
    apply document_harmless
    intro t ht
    rcases hdoc t ht with hu | hc
    · exact Undivided_harmless hu
    · exact hharm t hc

theorem divided_value_loses_piece :
    let doc := valueContext ⟨[ascii "a"], 34 :: ascii "b"⟩
    outcome ⟨doc.inPieces, none, 0, 0⟩ ≠ outcome ⟨doc.inSingleCalls, none, 0, 0⟩ := by
  decide

end DataValidator

end QdsBuffer.Parsing
