import QdsBuffer.Library.LockSections
import QdsBuffer.Concurrent.Basic
import QdsBuffer.Concurrent.Locks

namespace QdsBuffer.Concurrent.Locks
open LockOrder (Mode Passes Clear)

-- What follows the Push of an Add.
def afterPush (id : Int) (result : Except Exception Int) : Program :=
  if DataSource.failed result then deleteRefMapping id false .done else .done

-- A change of the files is made by nobody's call and takes no lock.
def opProgram (cfg : DataSource.Config) (clock : Nat → Nat) : DataSource.Op → Program
  | .setReference ref data dataFormat => (Call.setReference ref data dataFormat).program cfg clock
  | .add id json access => (Call.add id json access).program cfg clock
  | .delete id => (Call.delete id).program cfg clock
  | .reset reason => (Call.reset reason).program cfg clock
  | .acknowledgeReset => Call.acknowledgeReset.program cfg clock
  | .acknowledgeOverflow => Call.acknowledgeOverflow.program cfg clock
  | .setLocked index locked => (Call.iterate .shared [.setLocked index locked]).program cfg clock
  | .changeFiles files =>
    .act (fun s => { s with refs := { s.refs with files := files } }) (fun _ => .done)

def threadProgram (cfg : DataSource.Config) (clock : Nat → Nat) : Concurrent.Thread → Program
  | .ready op => opProgram cfg clock op
  | .processing id access done todo =>
    processRefMapping id (fun measurement => push cfg clock id measurement (afterPush id)) access done
      todo
  | .pushing id measurement => push cfg clock id measurement (afterPush id)
  | .rollback id => deleteRefMapping id false .done
  | .finished => .done

-- The state of the lock level while no lock is held.
def unlockedThreads (cfg : DataSource.Config) (clock : Nat → Nat) (threads : List Concurrent.Thread) :
    List (LockOrder.Thread Mutex DataSource) :=
  threads.map (fun t => ⟨[], threadProgram cfg clock t⟩)

variable {cfg : DataSource.Config} {clock : Nat → Nat}
  {ts : List (LockOrder.Thread Mutex DataSource)} {i : Nat} {s : DataSource}
  {held : List (Mutex × Mode)}

theorem free_of_below {m : Mutex} (h : Below held m) : ∀ lock ∈ held, lock.1 ≠ m :=
  fun lock hl heq => Nat.ne_of_lt (h lock hl) (heq ▸ rfl)

theorem passes_underLock (hc : Clear ts i) {m : Mutex} (hm : Below held m)
    (f : DataSource → DataSource) (next : DataSource → Program) :
    Passes ts i s ⟨held, underLock m f next⟩ (f s) ⟨held, next s⟩ :=
  (hc.passes_acquire m .exclusive _ (free_of_below hm)).trans
    ((hc.passes_act f _).trans (hc.passes_release m .exclusive _))

theorem passes_callback (hc : Clear ts i) (hm : Below held .deletionInformationList)
    (call : DeleteCall) (next : Program) :
    Passes ts i s ⟨held, onDeleteCallback cfg call next⟩
      (DataSource.onDeleteCallback cfg s call) ⟨held, next⟩ := by
  have href : Below held .refMapping := hm.mono (by decide)
  unfold onDeleteCallback DataSource.onDeleteCallback
  cases call.entry with
  | none => exact passes_underLock hc href _ _
  | some entry => exact (passes_underLock hc hm _ _).trans (passes_underLock hc href _ _)

theorem passes_callbacks (hc : Clear ts i) (hm : Below held .deletionInformationList)
    (calls : List DeleteCall) (next : Program) :
    Passes ts i s ⟨held, callbacks cfg calls next⟩
      (calls.foldl (DataSource.onDeleteCallback cfg) s) ⟨held, next⟩ := by
  induction calls generalizing s with
  | nil => exact .refl _
  | cons call calls ih => exact (passes_callback hc hm call _).trans ih

-- One section on the buffer: the change, its callbacks, and the release of the mutex.
theorem passes_buffer (hc : Clear ts i) (hm : Below held .buffer) (f : DataSource → DataSource)
    (deleted : DataSource → List DeleteCall) (next : DataSource → Program) :
    Passes ts i s ⟨held, .acquire .buffer .exclusive (.act f (fun s =>
        callbacks cfg (deleted s) (.release .buffer .exclusive (next s))))⟩
      ((deleted s).foldl (DataSource.onDeleteCallback cfg) (f s)) ⟨held, next s⟩ :=
  (hc.passes_acquire .buffer .exclusive _ (free_of_below hm)).trans
    ((hc.passes_act f _).trans ((passes_callbacks hc (hm.cons .exclusive (by decide)) _ _).trans
      (hc.passes_release .buffer .exclusive _)))

theorem passes_push (hc : Clear ts i) (id : Int) (ms : List Measurement)
    (next : Except Exception Int → Program) :
    let p := DataSource.pushSection cfg clock id ms s
    Passes ts i s ⟨[], push cfg clock id ms next⟩ p.2 ⟨[], next p.1⟩ :=
  passes_buffer hc (below_nil .buffer) _
    (fun s => (RingBuffer.push cfg.ring clock id ms s.buffer).calls)
    (fun s => next (RingBuffer.push cfg.ring clock id ms s.buffer).result)

theorem passes_delete (hc : Clear ts i) (id : Int) :
    Passes ts i s ⟨[], delete cfg id⟩ (DataSource.delete cfg id s) ⟨[], .done⟩ :=
  passes_buffer hc (below_nil .buffer) _ (fun s => (RingBuffer.delete cfg.ring id s.buffer).2)
    (fun _ => .done)

theorem passes_reset (hc : Clear ts i) (reason : ResetReason) :
    Passes ts i s ⟨[], reset cfg clock reason⟩ (DataSource.reset cfg clock reason s) ⟨[], .done⟩ := by
  have hbelow : Below [(.resetInformationList, .exclusive)] .buffer :=
    (below_nil .resetInformationList).cons .exclusive (by decide)
  refine (hc.passes_acquire .resetInformationList .exclusive _ (free_of_below (below_nil _))).trans ?_
  refine (passes_buffer hc hbelow _
    (fun s => (RingBuffer.reset cfg.ring clock reason s.buffer).2.2) _).trans ?_
  exact (hc.passes_act _ _).trans (hc.passes_release .resetInformationList .exclusive _)

theorem passes_setLocked (hc : Clear ts i) (index : Nat) (locked : Bool) :
    Passes ts i s ⟨[], iterate .shared [.setLocked index locked]⟩
      { s with buffer := s.buffer.setLocked index locked } ⟨[], .done⟩ :=
  (hc.passes_acquire .buffer .shared _ (free_of_below (below_nil _))).trans
    ((hc.passes_act _ _).trans (hc.passes_release .buffer .shared _))

theorem passes_turn (cfg : DataSource.Config) (clock : Nat → Nat) (hc : Clear ts i) (t : Concurrent.Thread) :
    Passes ts i s ⟨[], threadProgram cfg clock t⟩ (Concurrent.turn cfg clock s t).2
      ⟨[], threadProgram cfg clock (Concurrent.turn cfg clock s t).1⟩ := by
  cases t with
  | ready op =>
    cases op with
    | add id json access =>
      refine (hc.passes_acquire .parser .exclusive _ (free_of_below (below_nil _))).trans ?_
      refine (hc.passes_release .parser .exclusive _).trans ?_
      simp only [Concurrent.turn]
      cases DataSource.parse json with
      | error e => exact .refl _
      | ok data => exact .refl _
    | setReference ref data dataFormat => exact passes_underLock hc (below_nil _) _ _
    | delete id => exact passes_delete hc id
    | reset reason => exact passes_reset hc reason
    | acknowledgeReset => exact passes_underLock hc (below_nil _) _ _
    | acknowledgeOverflow => exact passes_underLock hc (below_nil _) _ _
    | setLocked index locked => exact passes_setLocked hc index locked
    | changeFiles files => exact hc.passes_act _ _
  | processing id access done todo =>
    cases todo with
    | nil => exact .refl _
    | cons d todo =>
      simp only [threadProgram, processRefMapping, Concurrent.turn]
      split
      · refine (passes_underLock hc (below_nil .refMapping) _ _).trans ?_
        rcases DataSource.processRef id (access 0) d s.refs with ⟨turn, refs⟩
        cases turn with
        | next d' => exact .refl _
        | leave => exact .refl _
        | throw e => exact .refl _
      · exact .refl _
  | pushing id ms =>
    refine (passes_push hc id ms (afterPush id)).trans ?_
    simp only [Concurrent.turn, afterPush]
    cases DataSource.failed (DataSource.pushSection cfg clock id ms s).1 with
    | true => exact .refl _
    | false => exact .refl _
  | rollback id => exact passes_underLock hc (below_nil _) _ _
  | finished => exact .refl _

def embedded (cfg : DataSource.Config) (clock : Nat → Nat) (sys : Concurrent.System) :
    LockOrder.System Mutex DataSource :=
  ⟨sys.source, unlockedThreads cfg clock sys.threads⟩

theorem unlocked_clear (cfg : DataSource.Config) (clock : Nat → Nat) {threads : List Concurrent.Thread} {t : Concurrent.Thread}
    (h : threads[i]? = some t) : Clear (unlockedThreads cfg clock threads) i where
  here := by
    obtain ⟨hlt, -⟩ := List.getElem?_eq_some_iff.mp h
    simpa [unlockedThreads] using hlt
  others j u _ hu := by
    obtain ⟨t, -, rfl⟩ := List.mem_map.mp (List.mem_of_getElem? hu)
    rfl

theorem advance_embedded (cfg : DataSource.Config) (clock : Nat → Nat) (sys : Concurrent.System) (i : Nat) :
    ∃ n, Runs.run LockOrder.step (embedded cfg clock sys) (List.replicate n i) =
      embedded cfg clock (Concurrent.advance cfg clock sys i) := by
  cases ht : sys.threads[i]? with
  | none => exact ⟨0, by simp [Concurrent.advance, ht]⟩
  | some t =>
    have hclear := unlocked_clear cfg clock ht
    obtain ⟨n, hn⟩ := passes_turn (s := sys.source) cfg clock hclear t
    refine ⟨n, ?_⟩
    have hself : (unlockedThreads cfg clock sys.threads).set i ⟨[], threadProgram cfg clock t⟩ =
        unlockedThreads cfg clock sys.threads := by
      apply LockOrder.set_same
      simp [unlockedThreads, ht]
    rw [hself] at hn
    rw [Concurrent.advance_of_thread ht]
    simpa [embedded, unlockedThreads, List.map_set] using hn

theorem sections_are_interleavings (cfg : DataSource.Config) (clock : Nat → Nat) (files : Files)
    (ops : List DataSource.Op) (schedule : List Nat) :
    ∃ schedule', Runs.run LockOrder.step
        (LockOrder.start (DataSource.initial files) (ops.map (opProgram cfg clock))) schedule' =
      embedded cfg clock (Runs.run (Concurrent.advance cfg clock) (Concurrent.start files ops)
        schedule) := by
  have hstart : LockOrder.start (DataSource.initial files) (ops.map (opProgram cfg clock)) =
      embedded cfg clock (Concurrent.start files ops) := by
    simp [LockOrder.start, embedded, unlockedThreads, Concurrent.start, threadProgram]
  rw [hstart]
  generalize Concurrent.start files ops = sys
  induction schedule generalizing sys with
  | nil => exact ⟨[], rfl⟩
  | cons i schedule ih =>
    obtain ⟨n, hn⟩ := advance_embedded cfg clock sys i
    obtain ⟨schedule', hrest⟩ := ih (Concurrent.advance cfg clock sys i)
    exact ⟨List.replicate n i ++ schedule', by rw [Runs.run_append, hn, hrest]; rfl⟩

end QdsBuffer.Concurrent.Locks
