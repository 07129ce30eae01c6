import QdsBuffer.Library.Atomicity
import QdsBuffer.Concurrent.Entrywise
import QdsBuffer.Concurrent.Linearizable
import QdsBuffer.RingBuffer.Push

namespace QdsBuffer.Concurrent.Entrywise
open LockOrder Locks Bytes

def bufferPart : Part DataSource RingBuffer where
  get := (·.buffer)
  put rb s := { s with buffer := rb }
  get_put _ _ := rfl
  put_get _ := rfl
  put_put _ _ _ := rfl

-- The first program still has to make goal of the buffer, which is rb now.
abbrev Inside (enters : Prop) (held : List (Mutex × Mode)) (goal rb : RingBuffer)
    (p q : Program) : Prop :=
  p.Refines .buffer bufferPart enters ((.buffer, .exclusive) :: held) (some (goal, rb)) q

abbrev Outside (enters : Prop) (held : List (Mutex × Mode)) (p q : Program) : Prop :=
  p.Refines .buffer bufferPart enters held none q

variable {cfg : DataSource.Config} {clock : Nat → Nat} {enters : Prop} {held : List (Mutex × Mode)}
  {goal rb : RingBuffer} {owed : Option (RingBuffer × RingBuffer)}

theorem read_inside {next : DataSource → Program} {q : Program}
    (h : ∀ s, s.buffer = rb → Inside enters held goal rb (next s) q) :
    Inside enters held goal rb (read next) q :=
  .silent rb (fun s hs => by rw [← hs]; rfl) h

theorem change_inside {f : RingBuffer → RingBuffer} {next q : Program}
    (h : Inside enters held goal (f rb) next q) : Inside enters held goal rb (change f next) q :=
  .silent (f rb) (fun s hs => by rw [← hs]; rfl) (fun _ _ => h)

theorem getCurrentTimeMs_inside {next : Nat → Program} {q : Program}
    (h : Inside enters held goal ⟨rb.buffer, rb.ticks + 1⟩ (next (clock rb.ticks)) q) :
    Inside enters held goal rb (getCurrentTimeMs clock next) q := by
  refine .silent ⟨rb.buffer, rb.ticks + 1⟩ ?_ ?_
  · rintro s rfl
    rfl
  · rintro s rfl
    exact h

theorem unlock_inside {p q : Program} (h : Outside enters held p q) :
    Inside enters held rb rb (unlock p) (unlock q) := by
  refine .leave ?_
  rwa [List.erase_cons_head]

theorem underLock_refines {m : Mutex} (hm : m ≠ .buffer) {f : DataSource → DataSource}
    (hf : bufferPart.Apart f) {p q : DataSource → Program}
    (hq : ∀ rb s, q (bufferPart.put rb s) = q s)
    (h : ∀ s, (p s).Refines .buffer bufferPart enters held owed (q s)) :
    (underLock m f p).Refines .buffer bufferPart enters held owed (underLock m f q) := by
  refine .acquire (.inr hm) (.apart hf (fun rb s => by rw [hq]) (fun s => .release (.inr hm) ?_))
  rw [List.erase_cons_head]
  exact h s

theorem underSharedLock_refines {m : Mutex} {p q : Program} (h : Outside enters held p q) :
    Outside enters held (underSharedLock m p) (underSharedLock m q) := by
  refine .acquire (.inl rfl) (.release (.inl rfl) ?_)
  rwa [List.erase_cons_head]

theorem deleteRefMapping_refines {id : Int} {clear : Bool} {p q : Program}
    (h : p.Refines .buffer bufferPart enters held owed q) :
    (deleteRefMapping id clear p).Refines .buffer bufferPart enters held owed
      (deleteRefMapping id clear q) :=
  underLock_refines (by simp) (fun _ _ => rfl) (fun _ _ => rfl) (fun _ => h)

theorem onDeleteCallback_refines {call : DeleteCall} {p q : Program}
    (h : p.Refines .buffer bufferPart enters held owed q) :
    (onDeleteCallback cfg call p).Refines .buffer bufferPart enters held owed
      (onDeleteCallback cfg call q) := by
  unfold onDeleteCallback
  cases call.entry with
  | none => exact deleteRefMapping_refines h
  | some entry =>
    exact underLock_refines (by simp) (fun _ _ => rfl) (fun _ _ => rfl)
      (fun _ => deleteRefMapping_refines h)

theorem callbacks_append (calls calls' : List DeleteCall) (next : Program) :
    callbacks cfg (calls ++ calls') next = callbacks cfg calls (callbacks cfg calls' next) :=
  List.foldr_append

theorem notify_callback (call : DeleteCall) (calls : List DeleteCall) (next : Program) :
    callbacks cfg (RingBuffer.notify cfg.ring call ++ calls) next =
      onDeleteCallback cfg call (callbacks cfg calls next) := rfl

theorem discard_unlocked {size ticks : Nat} {entry : BufferEntry} (hfull : cfg.bufferSize ≤ size)
    (hlocked : entry.locked = false) (rest : List BufferEntry) :
    RingBuffer.discard cfg.ring clock size ticks (entry :: rest) =
      let d := RingBuffer.discard cfg.ring clock (size - 1) (ticks + 1) rest
      { d with
        calls := RingBuffer.notify cfg.ring ⟨some entry, false, clock ticks⟩ ++ d.calls
        deletionCounter := d.deletionCounter + 1 } := by
  have hmax : cfg.ring.maxSize ≤ size := hfull
  have hcallback : cfg.ring.hasCallback = true := rfl
  simp [RingBuffer.discard, hmax, hcallback, hlocked]

theorem discard_locked {size ticks : Nat} {entry : BufferEntry} (hfull : cfg.bufferSize ≤ size)
    (hlocked : entry.locked = true) (rest : List BufferEntry) :
    RingBuffer.discard cfg.ring clock size ticks (entry :: rest) =
      let d := RingBuffer.discard cfg.ring clock size ticks rest
      { d with buffer := entry :: d.buffer } := by
  have hmax : cfg.ring.maxSize ≤ size := hfull
  simp [RingBuffer.discard, hmax, hlocked]

theorem eraseIdx_length (kept : List BufferEntry) (entry : BufferEntry) (rest : List BufferEntry) :
    (kept ++ entry :: rest).eraseIdx kept.length = kept ++ rest := by
  rw [List.eraseIdx_append_of_length_le (Nat.le_refl _), Nat.sub_self, List.eraseIdx_cons_zero]

-- kept is what the loop has left in front of its iterator.
theorem discard_inside {next : Int → Program} {q : Program} (kept : List BufferEntry)
    {rest : List BufferEntry} {n ticks : Nat} (hn : rest.length ≤ n) {deletionCounter : Int}
    (hnext : let d := RingBuffer.discard cfg.ring clock (kept.length + rest.length) ticks rest
      Inside enters held goal ⟨kept ++ d.buffer, d.ticks⟩
        (next (deletionCounter + d.deletionCounter)) q) :
    Inside enters held goal ⟨kept ++ rest, ticks⟩
      (discard cfg clock next n kept.length deletionCounter)
      (callbacks cfg
        (RingBuffer.discard cfg.ring clock (kept.length + rest.length) ticks rest).calls q) := by
  induction rest generalizing kept n ticks deletionCounter with
  | nil =>
    have hdone : Inside enters held goal ⟨kept ++ [], ticks⟩ (next deletionCounter) q := by
      simpa [RingBuffer.discard] using hnext
    cases n with
    | zero => exact hdone
    | succ n =>
      refine read_inside (fun s hs => ?_)
      have hend : s.buffer.buffer[kept.length]? = none := by simp [hs]
      simp only [hend]
      exact hdone
  | cons entry rest ih =>
    obtain ⟨n, rfl⟩ : ∃ n', n = n' + 1 := ⟨n - 1, by simp at hn; omega⟩
    have hn' : rest.length ≤ n := by simpa using hn
    refine read_inside (fun s hs => ?_)
    have hat : s.buffer.buffer[kept.length]? = some entry := by simp [hs]
    have hsize : s.buffer.buffer.length = kept.length + (entry :: rest).length := by simp [hs]
    simp only [hat, hsize]
    by_cases hfull : cfg.bufferSize ≤ kept.length + (entry :: rest).length
    · cases hlocked : entry.locked with
      | false =>
        have hone : kept.length + (entry :: rest).length - 1 = kept.length + rest.length := rfl
        have hcount : ∀ later : Int, deletionCounter + 1 + later = deletionCounter + (later + 1) := by
          omega
        rw [discard_unlocked hfull hlocked, hone] at hnext ⊢
        simp only [hfull, ↓reduceIte, Bool.not_false]
        refine getCurrentTimeMs_inside ?_
        rw [notify_callback]
        refine onDeleteCallback_refines (change_inside ?_)
        simp only [eraseIdx_length]
        refine ih kept hn' ?_
        simp only [hcount]
        exact hnext
      | true =>
        have hmore : kept.length + (entry :: rest).length = (kept ++ [entry]).length + rest.length := by
          simp only [List.length_append, List.length_cons, List.length_nil]
          omega
        simp only [hfull, ↓reduceIte, Bool.not_true]
        rw [discard_locked hfull hlocked, hmore] at hnext ⊢
        have hrest : Inside enters held goal ⟨kept ++ [entry] ++ rest, ticks⟩
            (discard cfg clock next n (kept ++ [entry]).length deletionCounter) _ :=
          ih (kept ++ [entry]) hn' (by simpa using hnext)
        simpa using hrest
    · have hlt : kept.length + (entry :: rest).length < cfg.ring.maxSize := Nat.not_le.mp hfull
      rw [RingBuffer.discard_of_lt hlt] at hnext ⊢
      simp only [hfull, ↓reduceIte]
      simp only [Int.add_zero] at hnext
      exact hnext

theorem discard_from_begin {next : Int → Program} {q : Program}
    (hnext : let d := RingBuffer.discard cfg.ring clock rb.buffer.length rb.ticks rb.buffer
      Inside enters held goal ⟨d.buffer, d.ticks⟩ (next d.deletionCounter) q) :
    Inside enters held goal rb (discard cfg clock next rb.buffer.length 0 0)
      (callbacks cfg (RingBuffer.discard cfg.ring clock rb.buffer.length rb.ticks rb.buffer).calls
        q) := by
  have hinside : Inside enters held goal ⟨[] ++ rb.buffer, rb.ticks⟩
      (discard cfg clock next rb.buffer.length ([] : List BufferEntry).length 0) _ :=
    discard_inside [] (Nat.le_refl rb.buffer.length) (by simpa using hnext)
  simpa using hinside

-- The search goes past the entries with other ids.
theorem replace_past {id : Int} {pushed refused q : Program} (kept : List BufferEntry)
    {pre post : List BufferEntry} (hpre : ∀ e ∈ pre, e.id ≠ id) {n ticks : Nat}
    (h : Inside enters held goal ⟨kept ++ pre ++ post, ticks⟩
      (replace cfg id pushed refused n (kept ++ pre).length) q) :
    Inside enters held goal ⟨kept ++ pre ++ post, ticks⟩
      (replace cfg id pushed refused (n + pre.length) kept.length) q := by
  induction pre generalizing kept with
  | nil => simpa using h
  | cons e pre ih =>
    obtain ⟨he, hrest⟩ := List.forall_mem_cons.mp hpre
    refine read_inside (fun s hs => ?_)
    have hat : s.buffer.buffer[kept.length]? = some e := by simp [hs]
    have hmore := ih (kept ++ [e]) hrest (by simpa using h)
    simp only [hat, he, ↓reduceIte]
    simpa using hmore

theorem replace_found {id : Int} {pushed refused q : Program} {b : List BufferEntry}
    {it : BufferEntry} (hfind : b.find? (RingBuffer.hasId id) = some it) {ticks : Nat}
    (hunlocked : it.locked = false → ∃ q', q = onDeleteCallback cfg ⟨some it, false, 0⟩ q' ∧
      Inside enters held goal ⟨b.eraseP (RingBuffer.hasId id), ticks⟩ pushed q')
    (hlocked : it.locked = true → Inside enters held goal ⟨b, ticks⟩ refused q) :
    Inside enters held goal ⟨b, ticks⟩ (replace cfg id pushed refused b.length 0) q := by
  obtain ⟨pre, post, rfl, hit, hpre, hwithout⟩ := RingBuffer.hasId_split hfind
  rw [hwithout] at hunlocked
  have hlength : (pre ++ it :: post).length = post.length + 1 + pre.length := by
    simp only [List.length_append, List.length_cons]
    omega
  rw [hlength]
  refine replace_past [] hpre (read_inside (fun s hs => ?_))
  have hat : s.buffer.buffer[([] ++ pre).length]? = some it := by simp [hs]
  simp only [hat, hit, ↓reduceIte]
  cases hl : it.locked with
  | true => exact hlocked hl
  | false =>
    obtain ⟨q', rfl, hpushed⟩ := hunlocked hl
    simp only [Bool.not_false, ↓reduceIte]
    refine onDeleteCallback_refines (change_inside ?_)
    simp only [List.nil_append, eraseIdx_length]
    exact hpushed

theorem replace_none {id : Int} {pushed refused q : Program} {b : List BufferEntry}
    (hb : ∀ e ∈ b, e.id ≠ id) {ticks : Nat} (h : Inside enters held goal ⟨b, ticks⟩ pushed q) :
    Inside enters held goal ⟨b, ticks⟩ (replace cfg id pushed refused b.length 0) q := by
  have hend : Inside enters held goal ⟨[] ++ b ++ [], ticks⟩
      (replace cfg id pushed refused (0 + b.length) ([] : List BufferEntry).length) q :=
    replace_past [] hb (by simpa [replace] using h)
  simpa using hend

theorem pushBack_inside {id : Int} {measurement : List Measurement} {next q : Program}
    {d : RingBuffer.Discarded} (h : Outside enters held next q) :
    Inside enters held (RingBuffer.pushBack clock id measurement d).state ⟨d.buffer, d.ticks⟩
      (pushBack clock id measurement (unlock next)) (unlock q) :=
  getCurrentTimeMs_inside (change_inside (unlock_inside h))

-- What the rest of Push makes of the buffer after its first loop, with the callbacks it adds.
theorem store_inside (cfg : DataSource.Config) (clock : Nat → Nat) (id : Int)
    (measurement : List Measurement) {next : Except Exception Int → Program}
    (hnext : ∀ result, Outside enters held (next result) (next result)) (d : RingBuffer.Discarded) :
    let p := RingBuffer.store cfg.ring clock id measurement d
    ∃ calls, p.calls = d.calls ++ calls ∧ Inside enters held p.state ⟨d.buffer, d.ticks⟩
      (store cfg clock id measurement next d.deletionCounter)
      (callbacks cfg calls (unlock (next p.result))) := by
  intro p
  have hcase : RingBuffer.StoreCase cfg.ring clock id measurement d p :=
    RingBuffer.store_case cfg.ring clock id measurement d
  have hmode : cfg.ring.counterMode = cfg.counterMode := rfl
  generalize p = p at hcase
  unfold store
  cases hcase with
  | badId back hm hback hle =>
    refine ⟨[], by simp, ?_⟩
    rw [hmode] at hm
    simp only [hm, ↓reduceIte]
    refine read_inside (fun s hs => ?_)
    have hlast : s.buffer.buffer.getLast? = some back := by rw [hs]; exact hback
    simp only [hlast, hle, ↓reduceIte]
    exact unlock_inside (hnext _)
  | lockedEntry it hm hfind hlocked =>
    refine ⟨[], by simp, ?_⟩
    rw [hmode] at hm
    simp only [hm, ↓reduceIte]
    refine read_inside (fun s hs => ?_)
    rw [hs]
    refine replace_found hfind (fun hl => ?_) (fun _ => unlock_inside (hnext _))
    rw [hlocked] at hl
    cases hl
  | append hlast hids =>
    refine ⟨[], by simp [RingBuffer.pushBack], ?_⟩
    rw [hmode] at hlast hids
    have hpushed : Inside enters held (RingBuffer.pushBack clock id measurement d).state
        ⟨d.buffer, d.ticks⟩ (pushBack clock id measurement (unlock (next (.ok d.deletionCounter)))) _ :=
      pushBack_inside (hnext _)
    split
    · next hm =>
      refine read_inside (fun s hs => ?_)
      rw [hs]
      cases hback : d.buffer.getLast? with
      | none => exact hpushed
      | some back =>
        have hlt := hlast hm back hback
        simp only [Int.not_le.mpr hlt, ↓reduceIte]
        exact hpushed
    · next hm =>
      refine read_inside (fun s hs => ?_)
      rw [hs]
      exact replace_none (hids hm) hpushed
  | replace it hm hfind hlocked =>
    refine ⟨RingBuffer.notify cfg.ring ⟨some it, false, 0⟩, rfl, ?_⟩
    rw [hmode] at hm
    simp only [hm, ↓reduceIte]
    refine read_inside (fun s hs => ?_)
    rw [hs]
    refine replace_found hfind (fun _ => ⟨_, rfl, ?_⟩) (fun hl => ?_)
    · exact pushBack_inside (hnext _)
    · rw [hlocked] at hl
      cases hl

theorem push_full_refused {id : Int} {measurement : List Measurement} {rb : RingBuffer}
    (hfull : cfg.bufferSize ≤ rb.buffer.length) (hoverflow : cfg.allowOverflow = false) :
    RingBuffer.push cfg.ring clock id measurement rb = ⟨.error ringBufferOverflowException, rb, []⟩ := by
  have hmax : cfg.ring.maxSize ≤ rb.buffer.length := hfull
  have hallow : cfg.ring.allowOverflow = false := hoverflow
  simp [RingBuffer.push, hmax, hallow]

theorem push_full {id : Int} {measurement : List Measurement} {rb : RingBuffer}
    (hfull : cfg.bufferSize ≤ rb.buffer.length) (hoverflow : cfg.allowOverflow = true) :
    RingBuffer.push cfg.ring clock id measurement rb =
      let d := RingBuffer.discard cfg.ring clock rb.buffer.length rb.ticks rb.buffer
      if cfg.bufferSize ≤ d.buffer.length then ⟨.ok (-1), ⟨d.buffer, d.ticks⟩, d.calls⟩
      else RingBuffer.store cfg.ring clock id measurement d := by
  have hmax : cfg.ring.maxSize ≤ rb.buffer.length := hfull
  have hallow : cfg.ring.allowOverflow = true := hoverflow
  simp only [RingBuffer.push, hmax, hallow, ↓reduceIte, Bool.not_true]
  rfl

theorem push_not_full {id : Int} {measurement : List Measurement} {rb : RingBuffer}
    (hfull : ¬cfg.bufferSize ≤ rb.buffer.length) :
    RingBuffer.push cfg.ring clock id measurement rb =
      RingBuffer.store cfg.ring clock id measurement ⟨rb.buffer, rb.ticks, [], 0⟩ := by
  have hmax : ¬cfg.ring.maxSize ≤ rb.buffer.length := hfull
  simp only [RingBuffer.push, hmax, ↓reduceIte]

-- The first loop of Push on a full buffer, and what follows it.
theorem push_full_inside {id : Int} {measurement : List Measurement}
    {next : Except Exception Int → Program}
    (hnext : ∀ result, Outside enters held (next result) (next result)) {rb : RingBuffer}
    (hfull : cfg.bufferSize ≤ rb.buffer.length) (hoverflow : cfg.allowOverflow = true) :
    let p := RingBuffer.push cfg.ring clock id measurement rb
    Inside enters held p.state rb
      (discard cfg clock (fun deletionCounter => read (fun s =>
        if cfg.bufferSize ≤ s.buffer.buffer.length then unlock (next (.ok (-1)))
        else store cfg clock id measurement next deletionCounter)) rb.buffer.length 0 0)
      (callbacks cfg p.calls (unlock (next p.result))) := by
  intro p
  have hp : p = _ := push_full hfull hoverflow
  by_cases hroom : cfg.bufferSize ≤
      (RingBuffer.discard cfg.ring clock rb.buffer.length rb.ticks rb.buffer).buffer.length
  · rw [hp]
    simp only [hroom, ↓reduceIte]
    refine discard_from_begin (read_inside (fun s hs => ?_))
    rw [hs]
    simp only [hroom, ↓reduceIte]
    exact unlock_inside (hnext _)
  · rw [hp]
    simp only [hroom, ↓reduceIte]
    obtain ⟨calls, hcalls, hstore⟩ := store_inside cfg clock id measurement hnext
      (RingBuffer.discard cfg.ring clock rb.buffer.length rb.ticks rb.buffer)
    rw [hcalls, callbacks_append]
    refine discard_from_begin (read_inside (fun s hs => ?_))
    rw [hs]
    simp only [hroom, ↓reduceIte]
    exact hstore

theorem push_refines {id : Int} {measurement : List Measurement}
    {next : Except Exception Int → Program} (henters : enters)
    (hnext : ∀ result, Outside enters held (next result) (next result)) :
    Outside enters held (push cfg clock id measurement next)
      (Locks.push cfg clock id measurement next) := by
  refine .enter (fun rb => (RingBuffer.push cfg.ring clock id measurement rb).state) henters
    (fun _ => rfl) (fun s => ?_)
  change Inside enters held (RingBuffer.push cfg.ring clock id measurement s.buffer).state s.buffer _
    (callbacks cfg (RingBuffer.push cfg.ring clock id measurement s.buffer).calls
      (unlock (next (RingBuffer.push cfg.ring clock id measurement s.buffer).result)))
  generalize s.buffer = rb
  refine read_inside (fun s hs => ?_)
  rw [hs]
  by_cases hfull : cfg.bufferSize ≤ rb.buffer.length
  · simp only [hfull, ↓reduceIte]
    cases hoverflow : cfg.allowOverflow with
    | false =>
      rw [push_full_refused hfull hoverflow]
      exact unlock_inside (hnext _)
    | true => exact push_full_inside hnext hfull hoverflow
  · obtain ⟨calls, hcalls, hstore⟩ :=
      store_inside cfg clock id measurement hnext ⟨rb.buffer, rb.ticks, [], 0⟩
    rw [push_not_full hfull, hcalls]
    simp only [hfull, ↓reduceIte]
    exact hstore

theorem deleteLoop_inside {id : Int} (kept : List BufferEntry) {rest : List BufferEntry} {ticks n : Nat}
    (hn : rest.length ≤ n) :
    Inside enters held ⟨kept ++ (RingBuffer.deleteLoop cfg.ring id rest).1, ticks⟩
      ⟨kept ++ rest, ticks⟩ (deleteLoop cfg id n kept.length)
      (callbacks cfg (RingBuffer.deleteLoop cfg.ring id rest).2 (unlock .done)) := by
  have hdone : ∀ rb, Inside enters held rb rb (unlock .done) (unlock .done) :=
    fun rb => unlock_inside .done
  induction rest generalizing kept n with
  | nil =>
    cases n with
    | zero => exact hdone _
    | succ n =>
      refine read_inside (fun s hs => ?_)
      have hend : s.buffer.buffer[kept.length]? = none := by simp [hs]
      simp only [hend]
      exact hdone _
  | cons it rest ih =>
    obtain ⟨n, rfl⟩ : ∃ n', n = n' + 1 := ⟨n - 1, by simp at hn; omega⟩
    refine read_inside (fun s hs => ?_)
    have hat : s.buffer.buffer[kept.length]? = some it := by simp [hs]
    have hmode : cfg.ring.counterMode = cfg.counterMode := rfl
    simp only [hat, RingBuffer.deleteLoop, hmode]
    split
    · refine onDeleteCallback_refines (change_inside ?_)
      simp only [eraseIdx_length]
      exact hdone _
    · split
      · exact hdone _
      · have hmore : Inside enters held _ ⟨kept ++ [it] ++ rest, ticks⟩
            (deleteLoop cfg id n (kept ++ [it]).length) _ := ih (kept ++ [it]) (by simpa using hn)
        simpa using hmore

theorem delete_refines {id : Int} (henters : enters) :
    Outside enters held (delete cfg id) (Locks.delete cfg id) := by
  refine .enter (fun rb => (RingBuffer.delete cfg.ring id rb).1) henters (fun _ => rfl) (fun s => ?_)
  refine read_inside (fun s' hs => ?_)
  have hloop : Inside enters held _ ⟨[] ++ s.buffer.buffer, s.buffer.ticks⟩
      (deleteLoop cfg id s.buffer.buffer.length ([] : List BufferEntry).length) _ :=
    deleteLoop_inside [] (Nat.le_refl s.buffer.buffer.length)
  rw [hs]
  exact hloop

theorem resetBuffer_inside {reason : ResetReason} {next : ResetInformation → Program}
    (henters : enters) (hnext : ∀ info, Outside enters held (next info) (next info)) :
    Outside enters held (resetBuffer cfg clock reason next)
      (.acquire .buffer .exclusive (.act
        (fun s => { s with buffer := (RingBuffer.reset cfg.ring clock reason s.buffer).2.1 })
        (fun s => callbacks cfg (RingBuffer.reset cfg.ring clock reason s.buffer).2.2
          (unlock (next (RingBuffer.reset cfg.ring clock reason s.buffer).1))))) := by
  refine .enter (fun rb => (RingBuffer.reset cfg.ring clock reason rb).2.1) henters (fun _ => rfl)
    (fun s => ?_)
  change Inside enters held (RingBuffer.reset cfg.ring clock reason s.buffer).2.1 s.buffer _
    (callbacks cfg (RingBuffer.reset cfg.ring clock reason s.buffer).2.2
      (unlock (next (RingBuffer.reset cfg.ring clock reason s.buffer).1)))
  rcases s.buffer with ⟨_ | ⟨front, rest⟩, ticks⟩
  · refine read_inside (fun s hs => ?_)
    rw [hs]
    exact unlock_inside (hnext _)
  · obtain ⟨back, hback⟩ : ∃ back, (front :: rest).getLast? = some back := ⟨_, List.getLast?_cons⟩
    have hreset : RingBuffer.reset cfg.ring clock reason ⟨front :: rest, ticks⟩ =
        (⟨clock ticks, reason, front.timestampMs, back.timestampMs,
          (front :: rest).length % 2 ^ 32⟩, ⟨[], ticks + 1⟩,
          RingBuffer.notify cfg.ring ⟨none, true, 0⟩) := by
      simp only [RingBuffer.reset, List.head?_cons, hback]
    rw [hreset]
    refine read_inside (fun s hs => ?_)
    rw [hs]
    simp only [List.isEmpty_cons, Bool.false_eq_true, ↓reduceIte]
    refine onDeleteCallback_refines (getCurrentTimeMs_inside ?_)
    refine read_inside (fun s hs => read_inside (fun s' hs' => read_inside (fun s'' hs'' => ?_)))
    rw [hs, hs', hs'']
    simp only [List.head?_cons, hback, Option.elim_some]
    exact change_inside (unlock_inside (hnext _))

theorem reset_refines {reason : ResetReason} (henters : enters) :
    Outside enters held (reset cfg clock reason) (Locks.reset cfg clock reason) := by
  refine .acquire (.inl rfl) (resetBuffer_inside henters (fun info => ?_))
  exact .apart (fun _ _ => rfl) (fun _ _ => rfl) (fun _ => .release (.inl rfl) .done)

theorem processRefMapping_refines {id : Int} {next next' : List Measurement → Program}
    (hnext : ∀ measurement, Outside enters held (next measurement) (next' measurement))
    {access : Nat → FileAccess} {done todo : List Measurement} :
    Outside enters held (processRefMapping id next access done todo)
      (processRefMapping id next' access done todo) := by
  induction todo generalizing access done with
  | nil => exact hnext done
  | cons d todo ih =>
    unfold processRefMapping
    split
    · refine underLock_refines (by simp) (fun _ _ => rfl) (fun _ _ => rfl) (fun s => ?_)
      cases (DataSource.processRef id (access 0) d s.refs).1 with
      | next d' => exact ih
      | leave => exact hnext _
      | throw e => exact .done
    · exact ih

theorem add_refines {id : Int} {json : Parsing.JsonParser.Delivery} {access : Nat → FileAccess}
    (henters : enters) :
    Outside enters held (add cfg clock id json access) (Locks.add cfg clock id json access) := by
  refine .acquire (.inl rfl) (.release (.inl rfl) ?_)
  rw [List.erase_cons_head]
  cases DataSource.parse json with
  | error e => exact .done
  | ok data =>
    refine processRefMapping_refines (fun measurement => push_refines henters (fun result => ?_))
    cases DataSource.failed result with
    | true => exact deleteRefMapping_refines .done
    | false => exact .done

theorem iterate_refines (mode : Mode) (visits : List Visit) :
    Outside enters held (iterate mode visits) (iterate mode visits) := by
  refine .acquire (.inl rfl) ?_
  induction visits with
  | nil => exact .release (.inl rfl) .done
  | cons visit visits ih =>
    cases visit with
    | read => exact ih
    | setLocked index locked => exact .guarded List.mem_cons_self (fun _ => ih)
    | getReference ref => exact underSharedLock_refines ih

theorem setReference_apart (ref data dataFormat : Bytes) :
    bufferPart.Apart (fun s => (DataSource.setReference ref data dataFormat s).2) := by
  intro rb s
  have hrefs : (bufferPart.put rb s).refs = s.refs := rfl
  simp only [DataSource.setReference, hrefs]
  cases s.refs.refMapping.find ref with
  | some it => rfl
  | none => rfl

theorem program_refines (cfg : DataSource.Config) (clock : Nat → Nat) {call : Call}
    (henters : (∀ mode visits, call ≠ .iterate mode visits) → enters) :
    Outside enters [] (program cfg clock call) (call.program cfg clock) := by
  cases call with
  | add id json access => exact add_refines (henters (by simp))
  | reset reason => exact reset_refines (henters (by simp))
  | delete id => exact delete_refines (henters (by simp))
  | iterate mode visits => exact iterate_refines mode visits
  | setReference ref data dataFormat =>
    exact underLock_refines (by simp) (setReference_apart ref data dataFormat) (fun _ _ => rfl)
      (fun _ => .done)
  | acknowledgeReset =>
    exact underLock_refines (by simp) (fun _ _ => rfl) (fun _ _ => rfl) (fun _ => .done)
  | acknowledgeOverflow =>
    exact underLock_refines (by simp) (fun _ _ => rfl) (fun _ _ => rfl) (fun _ => .done)
  | _ => exact underSharedLock_refines .done

-- What others see of the steps in schedule: the operations as wholes, in schedule'.
structure SeenAs (cfg : DataSource.Config) (clock : Nat → Nat) (source : DataSource)
    (calls : List Call) (schedule schedule' : List Nat) : Prop where
  held : (Locks.system cfg clock source calls schedule').threads.map (·.held) =
    (system cfg clock source calls schedule).threads.map (·.held)
  refs : (Locks.system cfg clock source calls schedule').state.refs =
    (system cfg clock source calls schedule).state.refs
  resetInformationList :
    (Locks.system cfg clock source calls schedule').state.resetInformationList =
      (system cfg clock source calls schedule).state.resetInformationList
  deletionInformationList :
    (Locks.system cfg clock source calls schedule').state.deletionInformationList =
      (system cfg clock source calls schedule).state.deletionInformationList
  buffer : (∀ i, Holds (system cfg clock source calls schedule) i (.buffer, .exclusive) →
      ∃ mode visits, calls[i]? = some (.iterate mode visits)) →
    (Locks.system cfg clock source calls schedule').state.buffer =
      (system cfg clock source calls schedule).state.buffer
  unfinished : ∀ i, Unfinished (system cfg clock source calls schedule) i ↔
    Unfinished (Locks.system cfg clock source calls schedule') i

def Changes (calls : List Call) (i : Nat) : Prop :=
  ∀ mode visits, calls[i]? ≠ some (.iterate mode visits)

theorem calls_beside (cfg : DataSource.Config) (clock : Nat → Nat) (source : DataSource)
    (calls : List Call) :
    Beside .buffer bufferPart (Changes calls)
      (LockOrder.start source (calls.map (program cfg clock)))
      (LockOrder.start source (calls.map (·.program cfg clock))) (fun _ => none) := by
  refine start_beside source (by simp) (fun i p q hp hq => ?_)
  rw [List.getElem?_map, Option.map_eq_some_iff] at hp hq
  obtain ⟨call, hcall, rfl⟩ := hp
  obtain ⟨call', hcall', rfl⟩ := hq
  obtain rfl : call = call' := Option.some.inj (hcall.symm.trans hcall')
  refine program_refines cfg clock (fun hchanges mode visits heq => ?_)
  exact hchanges mode visits (Option.some.inj (hcall.symm.trans heq))

theorem seen_of_beside {source : DataSource} {calls : List Call} {schedule schedule' : List Nat}
    {owed : Nat → Option (RingBuffer × RingBuffer)}
    (h : Beside .buffer bufferPart (Changes calls) (system cfg clock source calls schedule)
      (Locks.system cfg clock source calls schedule') owed) :
    SeenAs cfg clock source calls schedule schedule' where
  held := h.held
  refs := h.outside (·.refs) (fun _ _ => rfl)
  resetInformationList := h.outside (·.resetInformationList) (fun _ _ => rfl)
  deletionInformationList := h.outside (·.deletionInformationList) (fun _ _ => rfl)
  buffer hfree := by
    refine congrArg (·.buffer) (h.settled (fun i hi hchanges => ?_))
    obtain ⟨mode, visits, hcall⟩ := hfree i hi
    exact hchanges mode visits hcall
  unfinished := h.unfinished

theorem operations_atomic (cfg : DataSource.Config) (clock : Nat → Nat) (source : DataSource)
    (calls : List Call) (schedule : List Nat) :
    ∃ turns history, SeenAs cfg clock source calls schedule turns ∧
      BufferHistory cfg clock source calls turns history ∧
      (∀ i ∈ turns, i ∈ schedule) ∧ (∀ p ∈ history, p.1 ∈ schedule) ∧
      ∀ schedule', ∃ turns' history',
        SeenAs cfg clock source calls (schedule ++ schedule') (turns ++ turns') ∧
        BufferHistory cfg clock source calls (turns ++ turns') (history ++ history') ∧
        (∀ i ∈ turns', i ∈ schedule') ∧
        ∀ p ∈ history', p.1 ∈ schedule' ∧ Unfinished (system cfg clock source calls schedule) p.1 := by
  obtain ⟨turns, owed, h, hturns⟩ :=
    (calls_beside cfg clock source calls).run (start_exclusion source _) schedule
  obtain ⟨history, hhistory, hby, hmore⟩ := history_grows cfg clock source calls turns
  have hseen : SeenAs cfg clock source calls schedule turns := seen_of_beside h
  refine ⟨turns, history, hseen, hhistory, hturns, fun p hp => hturns p.1 (hby p hp), ?_⟩
  intro schedule'
  obtain ⟨turns', owed', h', hturns'⟩ := h.run (run_exclusion source _ schedule) schedule'
  rw [← Runs.run_append, ← Runs.run_append] at h'
  obtain ⟨history', hhistory', hby'⟩ := hmore turns'
  refine ⟨turns', history', seen_of_beside h', hhistory', hturns', fun p hp => ?_⟩
  obtain ⟨hin, hun⟩ := hby' p hp
  exact ⟨hturns' p.1 hin, (hseen.unfinished p.1).mpr hun⟩

-- While Push has the lock there are entries that no operation as a whole leaves behind.
example :
    let add (id : Int) : DataSource.Op :=
      .add id DataSource.emptyDocument (fun _ => ⟨true, true, true, true⟩)
    (system ⟨2, 1, true, 1, 1⟩ id (DataSource.run ⟨2, 1, true, 1, 1⟩ id (fun _ => none) [add 1, add 2])
      [.add 2 DataSource.emptyDocument (fun _ => ⟨true, true, true, true⟩)]
      (List.replicate 13 0)).state.buffer.buffer = [⟨2, [], 1, false⟩] := by
  decide +kernel

end QdsBuffer.Concurrent.Entrywise
