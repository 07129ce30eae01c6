import QdsBuffer.RingBuffer.Effect
import Mathlib.Algebra.Order.Group.Multiset
import Mathlib.Data.List.Induction
import Mathlib.Tactic.Abel

namespace QdsBuffer.RingBuffer

variable {cfg : Config} {clock : Nat → Nat}

def calls (cfg : Config) (clock : Nat → Nat) (rb : RingBuffer) : Op → List DeleteCall
  | .push id measurements => (push cfg clock id measurements rb).calls
  | .delete id => (delete cfg id rb).2
  | .reset reason => (reset cfg clock reason rb).2.2
  | .setLocked _ _ => []

def stored (cfg : Config) (clock : Nat → Nat) (rb : RingBuffer) : Op → List BufferEntry
  | .push id measurements =>
    let p := push cfg clock id measurements rb
    if refused p.result then [] else p.state.buffer.getLast?.toList
  | _ => []

def passed (calls : List DeleteCall) : List BufferEntry :=
  (calls.filter (fun call => !call.clear)).filterMap (·.entry)

def removedByReset (rb : RingBuffer) : Op → List BufferEntry
  | .reset _ => rb.buffer
  | _ => []

structure Ledger where
  stored : List BufferEntry
  passed : List BufferEntry
  removedByReset : List BufferEntry

def account (cfg : Config) (clock : Nat → Nat) (rb : RingBuffer) (l : Ledger) (op : Op) : Ledger :=
  ⟨l.stored ++ stored cfg clock rb op, l.passed ++ passed (calls cfg clock rb op),
    l.removedByReset ++ removedByReset rb op⟩

def ledger (cfg : Config) (clock : Nat → Nat) (ops : List Op) : Ledger :=
  Runs.track (step cfg clock) (account cfg clock) initial ⟨[], [], []⟩ ops

-- Consumers change the lock of a stored entry, so entries are counted without it.
def bag (b : List BufferEntry) : Multiset BufferEntry :=
  ↑(b.map (fun e => { e with locked := false }))

def Leaves (before after stored gone : List BufferEntry) : Prop :=
  ∃ kept, kept.Sublist before ∧ after = kept ++ stored ∧ before.Perm (kept ++ gone)

def Notifies (cfg : Config) (clock : Nat → Nat) (rb : RingBuffer) (op : Op) : Prop :=
  match op with
  | .reset _ => calls cfg clock rb op = if rb.buffer = [] then [] else [⟨none, true, 0⟩]
  | .setLocked _ _ => calls cfg clock rb op = []
  | _ =>
    (∀ call ∈ calls cfg clock rb op, call.clear = false ∧ ∃ e ∈ rb.buffer, call.entry = some e) ∧
      Leaves rb.buffer (step cfg clock rb op).buffer (stored cfg clock rb op)
        (passed (calls cfg clock rb op))

@[simp] theorem bag_nil : bag [] = 0 := rfl

@[simp] theorem bag_append (b c : List BufferEntry) : bag (b ++ c) = bag b + bag c := by
  simp [bag]

theorem bag_perm {b c : List BufferEntry} (h : b.Perm c) : bag b = bag c :=
  Multiset.coe_eq_coe.mpr (h.map _)

@[simp] theorem passed_append (cs ds : List DeleteCall) : passed (cs ++ ds) = passed cs ++ passed ds := by
  simp [passed]

theorem Leaves.bag_eq {before after stored gone : List BufferEntry}
    (h : Leaves before after stored gone) : bag before + bag stored = bag after + bag gone := by
  obtain ⟨kept, -, rfl, hp⟩ := h
  rw [bag_perm hp, bag_append, bag_append]
  abel

theorem perm_eraseP_find {α : Type} (p : α → Bool) (b : List α) :
    b.Perm (b.eraseP p ++ (b.find? p).toList) := by
  induction b with
  | nil => exact List.Perm.nil
  | cons a b ih =>
    cases hp : p a with
    | true => simpa [hp] using (List.perm_append_comm : ([a] ++ b).Perm (b ++ [a]))
    | false => simpa [hp] using ih.cons a

theorem remaining_perm (cfg : Config) (b : List BufferEntry) :
    b.Perm (remaining cfg b ++ (victim cfg b).toList) := by
  unfold remaining victim
  split
  · exact perm_eraseP_find unlocked b
  · simp

section
variable (hcallback : cfg.hasCallback = true)
include hcallback

theorem passed_evictionCalls (rb : RingBuffer) :
    passed (evictionCalls cfg clock rb) = (victim cfg rb.buffer).toList := by
  unfold evictionCalls
  cases victim cfg rb.buffer <;> simp [notify, hcallback, passed]

theorem passed_replacementCalls (id : Int) (b : List BufferEntry) :
    passed (replacementCalls cfg id b) = (b.find? (hasId id)).toList := by
  unfold replacementCalls
  cases b.find? (hasId id) <;> simp [notify, hcallback, passed]

theorem evictionCalls_carry {rb : RingBuffer} :
    ∀ call ∈ evictionCalls cfg clock rb, call.clear = false ∧ ∃ e ∈ rb.buffer, call.entry = some e := by
  unfold evictionCalls
  cases hv : victim cfg rb.buffer with
  | none => simp
  | some v => simp [notify, hcallback, (victim_mem hv).1]

theorem replacementCalls_carry {id : Int} {b c : List BufferEntry} (hs : b.Sublist c) :
    ∀ call ∈ replacementCalls cfg id b, call.clear = false ∧ ∃ e ∈ c, call.entry = some e := by
  unfold replacementCalls
  cases hf : b.find? (hasId id) with
  | none => simp
  | some it => simp [notify, hcallback, hs.subset (List.mem_of_find?_eq_some hf)]

theorem push_notifies (id : Int) (ms : List Measurement) {rb : RingBuffer} (h : WellFormed cfg rb) :
    Notifies cfg clock rb (.push id ms) := by
  simp only [Notifies, calls, step, stored]
  by_cases hr : Refuses cfg rb.buffer id
  · obtain ⟨href, hb, hc⟩ := push_of_refuses clock ms h hr
    rw [hb, hc, href, passed_evictionCalls hcallback]
    refine ⟨evictionCalls_carry hcallback, remaining cfg rb.buffer, remaining_sublist cfg _, ?_, ?_⟩
    · simp
    · exact remaining_perm cfg rb.buffer
  · obtain ⟨n, t, hn, hp⟩ := push_of_accepts clock ms h hr
    have hsub := remaining_sublist cfg rb.buffer
    have hn' : n ≠ -1 := by omega
    rw [hp, passed_append, passed_evictionCalls hcallback, passed_replacementCalls hcallback]
    refine ⟨?_, (remaining cfg rb.buffer).eraseP (hasId id), List.eraseP_sublist.trans hsub, ?_, ?_⟩
    · intro call hcall
      rcases List.mem_append.mp hcall with hcall | hcall
      · exact evictionCalls_carry hcallback call hcall
      · exact replacementCalls_carry hcallback hsub call hcall
    · simp [refused, hn']
    · refine (remaining_perm cfg rb.buffer).trans ?_
      refine ((perm_eraseP_find (hasId id) _).append_right _).trans ?_
      rw [List.append_assoc]
      exact List.perm_append_comm.append_left _

theorem delete_notifies (id : Int) {rb : RingBuffer} (h : WellFormed cfg rb) :
    Notifies cfg clock rb (.delete id) := by
  simp only [Notifies, calls, step, stored, delete, deleteLoop_eq id h.order,
    passed_replacementCalls hcallback]
  exact ⟨replacementCalls_carry hcallback (List.Sublist.refl _), _, List.eraseP_sublist, by simp,
    perm_eraseP_find (hasId id) rb.buffer⟩

theorem reset_notifies (reason : ResetReason) (rb : RingBuffer) :
    Notifies cfg clock rb (.reset reason) := by
  simp only [Notifies, calls]
  by_cases hb : rb.buffer = []
  · rw [reset_of_empty cfg clock reason hb, if_pos hb]
  · obtain ⟨info, -, hr⟩ := reset_of_nonempty cfg clock reason hb
    rw [hr, if_neg hb, notify, if_pos hcallback]

theorem step_notifies (clock : Nat → Nat) {rb : RingBuffer} (op : Op) (h : WellFormed cfg rb) :
    Notifies cfg clock rb op := by
  cases op with
  | push id ms => exact push_notifies hcallback id ms h
  | delete id => exact delete_notifies hcallback id h
  | reset reason => exact reset_notifies hcallback reason rb
  | setLocked index locked => rfl

theorem step_balance (clock : Nat → Nat) {rb : RingBuffer} (op : Op) (h : WellFormed cfg rb) :
    bag rb.buffer + bag (stored cfg clock rb op) = bag (step cfg clock rb op).buffer +
      (bag (passed (calls cfg clock rb op)) + bag (removedByReset rb op)) := by
  have hn := step_notifies hcallback clock op h
  cases op with
  | push id ms => simpa only [removedByReset, bag_nil, add_zero] using hn.2.bag_eq
  | delete id => simpa only [removedByReset, bag_nil, add_zero] using hn.2.bag_eq
  | reset reason =>
    have hp : passed (calls cfg clock rb (.reset reason)) = [] := by
      rw [show calls cfg clock rb (.reset reason) = _ from hn]
      split <;> simp [passed]
    simp only [hp, stored, step, reset_buffer, removedByReset, bag_nil, add_zero, zero_add]
  | setLocked index locked =>
    have hb : bag (step cfg clock rb (.setLocked index locked)).buffer = bag rb.buffer :=
      congrArg Multiset.ofList (map_modify_locked (fun e => { e with locked := false })
        (fun _ _ => rfl) rb.buffer index locked)
    simp only [hb, stored, calls, passed, removedByReset, List.filter_nil, List.filterMap_nil,
      bag_nil, add_zero]

theorem step_accounts {rb : RingBuffer} (l : Ledger) (op : Op) (h : WellFormed cfg rb)
    (hl : bag l.stored = bag rb.buffer + bag l.passed + bag l.removedByReset) :
    bag (account cfg clock rb l op).stored = bag (step cfg clock rb op).buffer +
      bag (account cfg clock rb l op).passed + bag (account cfg clock rb l op).removedByReset := by
  have hb := step_balance hcallback clock op h
  simp only [account, bag_append]
  calc bag l.stored + bag (stored cfg clock rb op)
      = (bag rb.buffer + bag (stored cfg clock rb op)) + bag l.passed + bag l.removedByReset := by
        rw [hl]
        abel
    _ = _ := by
        rw [hb]
        abel

theorem every_entry_notified_once (clock : Nat → Nat) (ops : List Op) :
    let rb := Runs.run (step cfg clock) initial ops
    let l := ledger cfg clock ops
    bag l.stored = bag rb.buffer + bag l.passed + bag l.removedByReset ∧
      ∀ op, Notifies cfg clock rb op := by
  intro rb l
  have hstep : ∀ (rb : RingBuffer) (l : Ledger) (op : Op),
      (WellFormed cfg rb ∧ bag l.stored = bag rb.buffer + bag l.passed + bag l.removedByReset) →
      WellFormed cfg (step cfg clock rb op) ∧
        bag (account cfg clock rb l op).stored = bag (step cfg clock rb op).buffer +
          bag (account cfg clock rb l op).passed +
          bag (account cfg clock rb l op).removedByReset := fun rb l op hi =>
    ⟨step_wellFormed rb op hi.1, step_accounts hcallback l op hi.1 hi.2⟩
  have hinitial : bag [] = bag initial.buffer + bag [] + bag [] := rfl
  refine ⟨?_, fun op => step_notifies hcallback clock op (run_wellFormed cfg clock ops)⟩
  exact (Runs.track_invariant hstep ops (t := ⟨[], [], []⟩) ⟨initial_wellFormed, hinitial⟩).2

end

theorem every_entry_notified_once_refused :
    let cfg : Config := ⟨2, 0, true, true⟩
    let ops := [.push 1 [], .push 2 [], .push 2 [], .delete 2, .push 3 [], .reset .user]
    let rb := Runs.run (step cfg id) initial ops
    let l := ledger cfg id ops
    bag l.stored = bag rb.buffer + bag l.passed + bag l.removedByReset ∧ ∀ op, Notifies cfg id rb op :=
  every_entry_notified_once rfl _ _

theorem ledger_append (ops : List Op) (op : Op) :
    ledger cfg clock (ops ++ [op]) =
      account cfg clock (Runs.run (step cfg clock) initial ops) (ledger cfg clock ops) op :=
  Runs.track_append (account cfg clock) initial ⟨[], [], []⟩ ops [op]

theorem bag_card (b : List BufferEntry) : (bag b).card = b.length := by
  simp [bag]

theorem ledger_balance (hcallback : cfg.hasCallback = true) (ops : List Op) :
    bag (ledger cfg clock ops).stored = bag (Runs.run (step cfg clock) initial ops).buffer +
      bag (ledger cfg clock ops).passed + bag (ledger cfg clock ops).removedByReset := by
  induction ops using List.reverseRecOn with
  | nil => rfl
  | append_singleton ops op ih =>
    rw [ledger_append, Runs.run_append]
    exact step_accounts hcallback (ledger cfg clock ops) op (run_wellFormed cfg clock ops) ih

theorem calls_clear (hcallback : cfg.hasCallback = true) {rb : RingBuffer} (op : Op)
    (h : WellFormed cfg rb) :
    ∀ call ∈ calls cfg clock rb op, call.clear = false ∨ call.entry = none := by
  intro call hcall
  have hnotifies := step_notifies hcallback clock op h
  cases op with
  | push id ms => exact .inl (hnotifies.1 call hcall).1
  | delete id => exact .inl (hnotifies.1 call hcall).1
  | reset reason =>
    rw [show calls cfg clock rb (.reset reason) = _ from hnotifies] at hcall
    split at hcall
    · cases hcall
    · rw [List.mem_singleton.mp hcall]
      exact .inr rfl
  | setLocked index locked => cases hcall

end QdsBuffer.RingBuffer
