import QdsBuffer.RingBuffer.Refusal
import Mathlib.Order.Bounds.Defs
import Mathlib.Order.Monotone.Defs

namespace QdsBuffer.RingBuffer

variable {cfg : Config} {clock : Nat → Nat}

def times (b : List BufferEntry) : List Nat := b.map (·.timestampMs)

structure Timed (clock : Nat → Nat) (b : List BufferEntry) (ticks : Nat) : Prop where
  sorted : (times b).Pairwise (· ≤ ·)
  past : ∀ t ∈ times b, t ≤ clock ticks

@[simp] theorem times_append (b c : List BufferEntry) : times (b ++ c) = times b ++ times c :=
  List.map_append

@[simp] theorem times_cons (e : BufferEntry) (b : List BufferEntry) :
    times (e :: b) = e.timestampMs :: times b := rfl

@[simp] theorem times_nil : times [] = [] := rfl

theorem times_modify (b : List BufferEntry) (index : Nat) (locked : Bool) :
    times (b.modify index (fun e => { e with locked := locked })) = times b :=
  map_modify_locked _ (fun _ _ => rfl) b index locked

theorem makeRoom_ticks (cfg : Config) (clock : Nat → Nat) (rb : RingBuffer) :
    rb.ticks ≤ (makeRoom cfg clock rb).ticks := by
  unfold makeRoom
  cases victim cfg rb.buffer with
  | none => exact Nat.le_refl _
  | some v => cases hc : cfg.hasCallback <;> simp

section
variable (hclock : Monotone clock)
include hclock

theorem Timed.sublist {b c : List BufferEntry} {ticks ticks' : Nat} (h : Timed clock b ticks)
    (hs : c.Sublist b) (ht : ticks ≤ ticks') : Timed clock c ticks' := by
  have htimes : (times c).Sublist (times b) := hs.map _
  refine ⟨h.sorted.sublist htimes, ?_⟩
  intro t hm
  exact Nat.le_trans (h.past t (htimes.subset hm)) (hclock ht)

theorem Timed.append {b : List BufferEntry} {ticks : Nat} (h : Timed clock b ticks)
    (id : Int) (ms : List Measurement) :
    Timed clock (b ++ [⟨id, ms, clock ticks, false⟩]) (ticks + 1) := by
  have hnext : clock ticks ≤ clock (ticks + 1) := hclock (Nat.le_succ ticks)
  refine ⟨?_, ?_⟩
  · simp only [times_append, times_cons, times_nil, List.pairwise_append, List.mem_singleton]
    refine ⟨h.sorted, List.pairwise_singleton _ _, ?_⟩
    rintro t ht _ rfl
    exact h.past t ht
  · intro t ht
    simp only [times_append, times_cons, times_nil, List.mem_append, List.mem_singleton] at ht
    rcases ht with ht | rfl
    · exact Nat.le_trans (h.past t ht) hnext
    · exact hnext

theorem StoreCase.timed {id : Int} {ms : List Measurement} {d : Discarded} {p : Pushed}
    (hc : StoreCase cfg clock id ms d p) (h : Timed clock d.buffer d.ticks) :
    Timed clock p.state.buffer p.state.ticks := by
  cases hc with
  | badId => exact h
  | lockedEntry => exact h
  | append => exact h.append hclock id ms
  | replace =>
    exact (h.sublist hclock List.eraseP_sublist (Nat.le_refl _)).append hclock id ms

theorem push_timed {rb : RingBuffer} (id : Int) (ms : List Measurement) (hwf : WellFormed cfg rb)
    (h : Timed clock rb.buffer rb.ticks) :
    Timed clock (push cfg clock id ms rb).state.buffer (push cfg clock id ms rb).state.ticks := by
  by_cases hr : Room cfg rb.buffer
  · rw [push_of_room hwf.size hr]
    apply (store_case _ _ _ _ _).timed hclock
    rw [makeRoom_buffer]
    exact h.sublist hclock (remaining_sublist cfg _) (makeRoom_ticks cfg clock rb)
  · rw [push_of_not_room hwf.size hr]
    exact h

theorem step_timed (rb : RingBuffer) (op : Op)
    (h : WellFormed cfg rb ∧ Timed clock rb.buffer rb.ticks) :
    WellFormed cfg (step cfg clock rb op) ∧
      Timed clock (step cfg clock rb op).buffer (step cfg clock rb op).ticks := by
  refine ⟨step_wellFormed rb op h.1, ?_⟩
  cases op with
  | push id ms => exact push_timed hclock id ms h.1 h.2
  | delete id => exact h.2.sublist hclock (deleteLoop_sublist cfg id _) (Nat.le_refl _)
  | reset reason =>
    rw [step, reset_buffer]
    exact ⟨List.Pairwise.nil, by simp⟩
  | setLocked index locked =>
    refine ⟨?_, ?_⟩
    · simpa only [step, setLocked, times_modify] using h.2.sorted
    · simpa only [step, setLocked, times_modify] using h.2.past

theorem run_timed (cfg : Config) (ops : List Op) :
    Timed clock (Runs.run (step cfg clock) initial ops).buffer
      (Runs.run (step cfg clock) initial ops).ticks :=
  (Runs.run_invariant (step_timed hclock) ops
    ⟨initial_wellFormed, List.Pairwise.nil, by simp [initial]⟩).2

end

theorem oldest_isLeast {b rest : List BufferEntry} {front : BufferEntry}
    (h : (times b).Pairwise (· ≤ ·)) (hb : b = front :: rest) :
    IsLeast {t | t ∈ times b} front.timestampMs := by
  subst hb
  rw [times_cons, List.pairwise_cons] at h
  refine ⟨by simp, ?_⟩
  intro t ht
  rcases List.mem_cons.mp ht with rfl | ht
  · exact Nat.le_refl _
  · exact h.1 t ht

theorem newest_isGreatest {b pre : List BufferEntry} {back : BufferEntry}
    (h : (times b).Pairwise (· ≤ ·)) (hb : b = pre ++ [back]) :
    IsGreatest {t | t ∈ times b} back.timestampMs := by
  subst hb
  rw [times_append, List.pairwise_append] at h
  refine ⟨by simp, ?_⟩
  intro t ht
  have hmem : t ∈ times pre ++ times [back] := by rwa [← times_append]
  rcases List.mem_append.mp hmem with ht | ht
  · exact h.2.2 t ht back.timestampMs (by simp)
  · exact Nat.le_of_eq (by simpa using ht)

structure Reports (rb : RingBuffer) (info : ResetInformation) : Prop where
  oldest : IsLeast {t | t ∈ times rb.buffer} info.oldestDatasetTimeMs
  newest : IsGreatest {t | t ∈ times rb.buffer} info.newestDatasetTimeMs
  count : info.deletedDatasetsCount = rb.buffer.length
  time : ∀ t ∈ times rb.buffer, t ≤ info.resetTimeMs

theorem reset_reports {rb : RingBuffer} (reason : ResetReason)
    (h : Timed clock rb.buffer rb.ticks) (hne : rb.buffer ≠ [])
    (hlen : rb.buffer.length < 2 ^ 32) : Reports rb (reset cfg clock reason rb).1 := by
  obtain ⟨front, rest, hf⟩ := List.exists_cons_of_ne_nil hne
  obtain ⟨pre, back, hl⟩ := (List.eq_nil_or_concat' rb.buffer).resolve_left hne
  have hhead : rb.buffer.head? = some front := by simp [hf]
  have hlast : rb.buffer.getLast? = some back := by simp [hl]
  simp only [reset, hhead, hlast]
  exact ⟨oldest_isLeast h.sorted hf, newest_isGreatest h.sorted hl, Nat.mod_eq_of_lt hlen, h.past⟩

theorem reset_reports_what_it_deleted (cfg : Config) (clock : Nat → Nat) (ops : List Op)
    (hclock : Monotone clock) :
    let rb := Runs.run (step cfg clock) initial ops
    (times rb.buffer).Pairwise (· ≤ ·) ∧
      ∀ reason, rb.buffer ≠ [] → rb.buffer.length < 2 ^ 32 →
        Reports rb (reset cfg clock reason rb).1 := by
  intro rb
  have h : Timed clock rb.buffer rb.ticks := run_timed hclock cfg ops
  exact ⟨h.sorted, fun reason hne hlen => reset_reports reason h hne hlen⟩

theorem reset_reports_what_it_deleted_three :
    let cfg : Config := ⟨3, 1, true, true⟩
    let rb := Runs.run (step cfg id) initial [.push 1 [], .push 2 [], .push 1 []]
    Reports rb (reset cfg id .user rb).1 :=
  (reset_reports_what_it_deleted _ id _ monotone_id).2 .user (by decide) (by decide)

end QdsBuffer.RingBuffer
