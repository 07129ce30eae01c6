import QdsBuffer.DataSource.Invariant
import QdsBuffer.Library.LockSets

namespace QdsBuffer.Concurrent
open DataSource

-- What a call has still to do: its next section under a lock comes first.
inductive Thread where
  | ready (op : Op)
  | processing (id : Int) (access : Nat → FileAccess) (done todo : List Measurement)
  | pushing (id : Int) (measurement : List Measurement)
  | rollback (id : Int)
  | finished

structure System where
  source : DataSource
  threads : List Thread

def turn (cfg : DataSource.Config) (clock : Nat → Nat) (s : DataSource) : Thread → Thread × DataSource
  | .ready (.add id json access) =>
    match parse json with
    | .error _ => (.finished, s)
    | .ok data => (.processing id access [] data, s)
  | .ready op => (.finished, step cfg clock s op)
  | .processing id _ done [] => (.pushing id done, s)
  | .processing id access done (d :: todo) =>
    if d.type = .ref then
      match processRef id (access 0) d s.refs with
      | (.next d', refs) =>
        (.processing id (fun n => access (n + 1)) (done ++ [d']) todo, { s with refs := refs })
      | (.leave, refs) => (.pushing id (done ++ d :: todo), { s with refs := refs })
      | (.throw _, refs) => (.finished, { s with refs := refs })
    else (.processing id (fun n => access (n + 1)) (done ++ [d]) todo, s)
  | .pushing id measurement =>
    let p := pushSection cfg clock id measurement s
    (if failed p.1 then .rollback id else .finished, p.2)
  | .rollback id => (.finished, deleteRefMapping id false s)
  | .finished => (.finished, s)

def advance (cfg : DataSource.Config) (clock : Nat → Nat) (sys : System) (i : Nat) : System :=
  match sys.threads[i]? with
  | some t => ⟨(turn cfg clock sys.source t).2, sys.threads.set i (turn cfg clock sys.source t).1⟩
  | none => sys

def start (files : Files) (ops : List Op) : System := ⟨initial files, ops.map .ready⟩

variable {cfg : DataSource.Config} {clock : Nat → Nat}

theorem advance_of_thread {sys : System} {i : Nat} {t : Thread} (h : sys.threads[i]? = some t) :
    advance cfg clock sys i =
      ⟨(turn cfg clock sys.source t).2, sys.threads.set i (turn cfg clock sys.source t).1⟩ := by
  simp only [advance, h]

def Reaches (cfg : DataSource.Config) (clock : Nat → Nat) (i : Nat) (sys sys' : System) : Prop :=
  ∃ n, Runs.run (advance cfg clock) sys (List.replicate n i) = sys'

theorem Reaches.refl (i : Nat) (sys : System) : Reaches cfg clock i sys sys := ⟨0, rfl⟩

theorem Reaches.head {i : Nat} {sys sys' : System}
    (h : Reaches cfg clock i (advance cfg clock sys i) sys') : Reaches cfg clock i sys sys' := by
  obtain ⟨n, hn⟩ := h
  exact ⟨n + 1, hn⟩

theorem Reaches.trans {i : Nat} {a b c : System} (hab : Reaches cfg clock i a b)
    (hbc : Reaches cfg clock i b c) : Reaches cfg clock i a c := by
  obtain ⟨m, rfl⟩ := hab
  obtain ⟨n, rfl⟩ := hbc
  refine ⟨m + n, ?_⟩
  rw [List.replicate_add, Runs.run_append]

def processed (id : Int) (done : List Measurement) :
    Except Exception (List Measurement) → Thread
  | .ok ms => .pushing id (done ++ ms)
  | .error _ => .finished

theorem processed_cons (id : Int) (done : List Measurement) (d : Measurement)
    (res : Except Exception (List Measurement)) :
    processed id done (res.map (d :: ·)) = processed id (done ++ [d]) res := by
  cases res with
  | ok ms => simp [processed, Except.map]
  | error e => rfl

theorem processing_alone (cfg : DataSource.Config) (clock : Nat → Nat) {i : Nat} {id : Int}
    {access : Nat → FileAccess} {done todo : List Measurement} {s : DataSource} {ts : List Thread}
    (h : ts[i]? = some (.processing id access done todo)) :
    Reaches cfg clock i ⟨s, ts⟩
      ⟨{ s with refs := (processRefMapping id access todo s.refs).2 },
        ts.set i (processed id done (processRefMapping id access todo s.refs).1)⟩ := by
  induction todo generalizing access done s ts with
  | nil =>
    apply Reaches.head
    rw [advance_of_thread h]
    simpa [turn, processRefMapping, processed] using Reaches.refl i _
  | cons d todo ih =>
    apply Reaches.head
    rw [advance_of_thread h]
    by_cases ht : d.type = .ref
    · rw [processRefMapping_cons_ref ht]
      simp only [turn, ht, ↓reduceIte]
      rcases processRef id (access 0) d s.refs with ⟨t, refs⟩
      cases t with
      | next d' =>
        have hrest := ih (s := { s with refs := refs }) (LockOrder.getElem?_set_of_some h
          (.processing id (fun n => access (n + 1)) (done ++ [d']) todo))
        simpa only [processed_cons, List.set_set] using hrest
      | leave => exact Reaches.refl i _
      | throw e => exact Reaches.refl i _
    · rw [processRefMapping_cons_other ht]
      simp only [turn, ht, ↓reduceIte]
      have hrest := ih (s := s) (LockOrder.getElem?_set_of_some h
        (.processing id (fun n => access (n + 1)) (done ++ [d]) todo))
      simpa only [processed_cons, List.set_set] using hrest

theorem pushing_alone (cfg : DataSource.Config) (clock : Nat → Nat) {i : Nat} {id : Int}
    {ms : List Measurement} {s : DataSource} {ts : List Thread} (h : ts[i]? = some (.pushing id ms)) :
    Reaches cfg clock i ⟨s, ts⟩
      ⟨(pushMeasurements cfg clock id ms s).2, ts.set i .finished⟩ := by
  apply Reaches.head
  rw [advance_of_thread h]
  simp only [turn, pushMeasurements]
  cases hf : failed (pushSection cfg clock id ms s).1 with
  | false => exact Reaches.refl i _
  | true =>
    apply Reaches.head
    rw [advance_of_thread (LockOrder.getElem?_set_of_some h (.rollback id))]
    simp only [turn, List.set_set, ↓reduceIte]
    exact Reaches.refl i _

theorem step_alone (cfg : DataSource.Config) (clock : Nat → Nat) {i : Nat} {op : Op} {s : DataSource}
    {ts : List Thread} (h : ts[i]? = some (.ready op)) :
    Reaches cfg clock i ⟨s, ts⟩ ⟨step cfg clock s op, ts.set i .finished⟩ := by
  apply Reaches.head
  rw [advance_of_thread h]
  cases op with
  | add id json access =>
    simp only [turn, step, add]
    cases hd : parse json with
    | error e => exact Reaches.refl i _
    | ok data =>
      have hprocess := processing_alone cfg clock (s := s)
        (LockOrder.getElem?_set_of_some h (.processing id access [] data))
      refine hprocess.trans ?_
      rcases hp : processRefMapping id access data s.refs with ⟨res, refs⟩
      cases res with
      | error e =>
        simp only [hp, processed, List.set_set]
        exact Reaches.refl i _
      | ok ms =>
        have hpush := pushing_alone cfg clock (s := { s with refs := refs })
          (LockOrder.getElem?_set_of_some h (.pushing id ms))
        simpa only [hp, processed, List.set_set, List.nil_append] using hpush
  | setReference ref data dataFormat => exact Reaches.refl i _
  | delete id => exact Reaches.refl i _
  | reset reason => exact Reaches.refl i _
  | acknowledgeReset => exact Reaches.refl i _
  | acknowledgeOverflow => exact Reaches.refl i _
  | setLocked index locked => exact Reaches.refl i _
  | changeFiles files => exact Reaches.refl i _

end QdsBuffer.Concurrent
