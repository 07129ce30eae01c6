import QdsBuffer.DataSource.Effect
import QdsBuffer.DataSource.References

namespace QdsBuffer.DataSource
open RingBuffer

variable {cfg : Config} {clock : Nat → Nat}

inductive AddCase (cfg : Config) (clock : Nat → Nat) (id : Int)
    (json : Parsing.JsonParser.Delivery) (access : Nat → FileAccess) (s : DataSource) :
    Except Exception Int × DataSource → Prop
  | parseError (e : Exception) : parse json = .error e →
      AddCase cfg clock id json access s (.error e, s)
  | refError (data : List Measurement) (e : Exception) (refs : References) :
      parse json = .ok data → processRefMapping id access data s.refs = (.error e, refs) →
      AddCase cfg clock id json access s (.error e, { s with refs := refs })
  | pushed (data measurement : List Measurement) (refs : References) :
      parse json = .ok data → processRefMapping id access data s.refs = (.ok measurement, refs) →
      AddCase cfg clock id json access s
        (pushMeasurements cfg clock id measurement { s with refs := refs })

theorem add_case (cfg : Config) (clock : Nat → Nat) (id : Int)
    (json : Parsing.JsonParser.Delivery) (access : Nat → FileAccess) (s : DataSource) :
    AddCase cfg clock id json access s (add cfg clock id json access s) := by
  unfold add
  cases hp : parse json with
  | error e => exact .parseError e hp
  | ok data =>
    rcases hr : processRefMapping id access data s.refs with ⟨res, refs⟩
    cases res with
    | error e => simpa only [hr] using .refError data e refs hp hr
    | ok measurement => simpa only [hr] using .pushed data measurement refs hp hr

def reachesPush (s : DataSource) (id : Int) (json : Parsing.JsonParser.Delivery)
    (access : Nat → FileAccess) : Bool :=
  match parse json with
  | .error _ => false
  | .ok data => (processRefMapping id access data s.refs).1.isOk

theorem reachesPush_of_pushed {s : DataSource} {id : Int} {json : Parsing.JsonParser.Delivery}
    {access : Nat → FileAccess} {data ms : List Measurement} {refs : References}
    (hd : parse json = .ok data) (hp : processRefMapping id access data s.refs = (.ok ms, refs)) :
    reachesPush s id json access = true := by
  simp [reachesPush, hd, hp, Except.isOk, Except.toBool]

theorem not_reachesPush_of_refError {s : DataSource} {id : Int}
    {json : Parsing.JsonParser.Delivery} {access : Nat → FileAccess} {data : List Measurement}
    {e : Exception} {refs : References} (hd : parse json = .ok data)
    (hp : processRefMapping id access data s.refs = (.error e, refs)) :
    reachesPush s id json access = false := by
  simp [reachesPush, hd, hp, Except.isOk, Except.toBool]

theorem not_reachesPush_of_parseError {s : DataSource} {id : Int}
    {json : Parsing.JsonParser.Delivery} {access : Nat → FileAccess} {e : Exception}
    (hd : parse json = .error e) : reachesPush s id json access = false := by
  simp [reachesPush, hd]

theorem pushSection_frame (cfg : Config) (clock : Nat → Nat) (id : Int) (ms : List Measurement) (s : DataSource) :
    (pushSection cfg clock id ms s).2.buffer = (push cfg.ring clock id ms s.buffer).state ∧
    (pushSection cfg clock id ms s).2.refs.refCounter = s.refs.refCounter := by
  obtain ⟨hb, hc, -⟩ := callbacks_frame cfg (push cfg.ring clock id ms s.buffer).calls
    { s with buffer := (push cfg.ring clock id ms s.buffer).state }
  exact ⟨hb, hc⟩

theorem pushMeasurements_frame (id : Int) (ms : List Measurement) (s : DataSource) :
    (pushMeasurements cfg clock id ms s).2.buffer = (push cfg.ring clock id ms s.buffer).state ∧
    (pushMeasurements cfg clock id ms s).2.refs.refCounter = s.refs.refCounter := by
  have hf := pushSection_frame cfg clock id ms s
  simp only [pushMeasurements]
  split
  · exact hf
  · exact hf

theorem pushMeasurements_rows {id : Int} {ms : List Measurement} {s : DataSource}
    {d : ReferenceData} (h : d ∈ rows (pushMeasurements cfg clock id ms s).2) : d ∈ rows s := by
  have hsection : d ∈ rows (pushSection cfg clock id ms s).2 := by
    simp only [pushMeasurements] at h
    split at h
    · exact (mem_rows_deleteRefMapping.mp h).1
    · exact h
  exact (mem_rows_callbacks.mp hsection).1

theorem setReference_buffer (ref data dataFormat : Bytes) (s : DataSource) :
    (setReference ref data dataFormat s).2.buffer = s.buffer := by
  unfold setReference
  split <;> rfl

theorem ring_invariant (clock : Nat → Nat) (s : DataSource) (op : Op) (h : WellFormed cfg.ring s.buffer) :
    WellFormed cfg.ring (step cfg clock s op).buffer := by
  cases op with
  | setReference ref data dataFormat => rwa [step, setReference_buffer]
  | add id json access =>
    have hc := add_case cfg clock id json access s
    simp only [step]
    generalize add cfg clock id json access s = p at hc
    cases hc with
    | parseError => exact h
    | refError => exact h
    | pushed data ms refs =>
      rw [(pushMeasurements_frame id ms _).1]
      exact push_wellFormed h
  | delete id =>
    have hd : WellFormed cfg.ring (RingBuffer.step cfg.ring clock s.buffer (.delete id)) :=
      step_wellFormed s.buffer (.delete id) h
    simp only [step, delete, (callbacks_frame cfg _ _).1]
    exact hd
  | reset reason =>
    have hr : WellFormed cfg.ring (RingBuffer.step cfg.ring clock s.buffer (.reset reason)) :=
      step_wellFormed s.buffer (.reset reason) h
    simp only [step, reset, (callbacks_frame cfg _ _).1]
    exact hr
  | acknowledgeReset => exact h
  | acknowledgeOverflow => exact h
  | setLocked index locked =>
    have hl : WellFormed cfg.ring
        (RingBuffer.step cfg.ring clock s.buffer (.setLocked index locked)) :=
      step_wellFormed s.buffer (.setLocked index locked) h
    exact hl
  | changeFiles files => exact h

theorem run_wellFormed (cfg : Config) (clock : Nat → Nat) (files : Files) (ops : List Op) :
    WellFormed cfg.ring (run cfg clock files ops).buffer :=
  Runs.run_invariant (I := fun s : DataSource => WellFormed cfg.ring s.buffer)
    (ring_invariant clock) ops
    initial_wellFormed

end QdsBuffer.DataSource
