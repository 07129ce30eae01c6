import QdsBuffer.RingBuffer.Effect

namespace QdsBuffer.RingBuffer

variable {cfg : Config} {clock : Nat → Nat}

def LeavesLocked (e : BufferEntry) (rb : RingBuffer) : Op → Prop
  | .push _ _ => True
  | .setLocked index locked => rb.buffer[index]? = some e → locked = true
  | _ => False

def LockedThroughout (cfg : Config) (clock : Nat → Nat) (rb : RingBuffer) (ops : List Op)
    (e : BufferEntry) : Prop :=
  e.locked = true ∧ Runs.Along (step cfg clock) (LeavesLocked e) rb ops

theorem sublist_eraseP {α : Type} {p : α → Bool} {kept b : List α} (h : kept.Sublist b)
    (hp : ∀ a ∈ kept, ¬ p a = true) : kept.Sublist (b.eraseP p) := by
  have herase := h.eraseP (p := p)
  rwa [List.eraseP_of_forall_not hp] at herase

theorem sublist_modify {α : Type} {f : α → α} {kept b : List α} (h : kept.Sublist b) {index : Nat}
    (hf : ∀ a ∈ kept, b[index]? = some a → f a = a) : kept.Sublist (b.modify index f) := by
  induction h generalizing index with
  | slnil => simp
  | cons a _ ih =>
    cases index with
    | zero => simpa using List.Sublist.cons _ (by assumption)
    | succ index => simpa using List.Sublist.cons _ (ih (by simpa using hf))
  | cons_cons a hs ih =>
    cases index with
    | zero =>
      have ha : f a = a := hf a List.mem_cons_self (by simp)
      simpa [ha] using hs
    | succ index =>
      simpa using ih (fun x hx => by simpa using hf x (List.mem_cons_of_mem a hx))

theorem remaining_keeps_locked (cfg : Config) {kept b : List BufferEntry} (h : kept.Sublist b)
    (hl : ∀ e ∈ kept, e.locked = true) : kept.Sublist (remaining cfg b) := by
  unfold remaining
  split
  · exact sublist_eraseP h (fun e he => by simp [unlocked, hl e he])
  · exact h

theorem unlocked_of_accepts {b : List BufferEntry} {id : Int} {e : BufferEntry} (h : IdOrder cfg b)
    (hr : ¬ Refuses cfg b id) (he : e ∈ remaining cfg b) (hid : e.id = id) : e.locked = false := by
  have hm : id ∈ ids (remaining cfg b) := mem_ids.mpr ⟨e, he, hid⟩
  obtain ⟨-, -, it, hit, hiid, hl⟩ := (replaces_iff h).mpr ⟨hr, hm⟩
  have hn := (h.sublist (remaining_sublist cfg b)).nodup
  rwa [eq_of_id hn he hit (hid.trans hiid.symm)]

theorem push_keeps_locked (id : Int) (ms : List Measurement) {rb : RingBuffer}
    {kept : List BufferEntry} (hwf : WellFormed cfg rb) (h : kept.Sublist rb.buffer)
    (hl : ∀ e ∈ kept, e.locked = true) : kept.Sublist (push cfg clock id ms rb).state.buffer := by
  have hrem := remaining_keeps_locked cfg h hl
  by_cases hr : Refuses cfg rb.buffer id
  · rwa [(push_of_refuses clock ms hwf hr).2.1]
  · obtain ⟨n, t, -, hp⟩ := push_of_accepts clock ms hwf hr
    rw [hp]
    refine (sublist_eraseP hrem ?_).trans (List.sublist_append_left _ _)
    intro e he hid
    have hun := unlocked_of_accepts hwf.order hr (hrem.subset he) (by simpa [hasId] using hid)
    rw [hl e he] at hun
    cases hun

theorem step_keeps_locked {rb : RingBuffer} {op : Op} {kept : List BufferEntry}
    (hop : ∀ e ∈ kept, LeavesLocked e rb op) (hwf : WellFormed cfg rb) (h : kept.Sublist rb.buffer)
    (hl : ∀ e ∈ kept, e.locked = true) : kept.Sublist (step cfg clock rb op).buffer := by
  cases op with
  | push id ms => exact push_keeps_locked id ms hwf h hl
  | setLocked index locked =>
    refine sublist_modify h ?_
    intro e he hi
    rw [hop e he hi, ← hl e he]
  | delete id =>
    cases kept with
    | nil => exact List.nil_sublist _
    | cons e kept => exact (hop e List.mem_cons_self).elim
  | reset reason =>
    cases kept with
    | nil => exact List.nil_sublist _
    | cons e kept => exact (hop e List.mem_cons_self).elim

theorem run_keeps_locked {rb : RingBuffer} {ops : List Op} {kept : List BufferEntry}
    (hwf : WellFormed cfg rb) (h : kept.Sublist rb.buffer)
    (hl : ∀ e ∈ kept, LockedThroughout cfg clock rb ops e) :
    kept.Sublist (Runs.run (step cfg clock) rb ops).buffer := by
  induction ops generalizing rb with
  | nil => exact h
  | cons op ops ih =>
    refine ih (step_wellFormed rb op hwf) ?_ ?_
    · exact step_keeps_locked (fun e he => (hl e he).2.1) hwf h (fun e he => (hl e he).1)
    · exact fun e he => ⟨(hl e he).1, (hl e he).2.2⟩

theorem locked_entries_survive (cfg : Config) (clock : Nat → Nat) (before ops : List Op) :
    let rb := Runs.run (step cfg clock) initial before
    let rb' := Runs.run (step cfg clock) rb ops
    (∀ e ∈ rb.buffer, LockedThroughout cfg clock rb ops e → e ∈ rb'.buffer) ∧
      ∀ e e', [e, e'].Sublist rb.buffer → LockedThroughout cfg clock rb ops e →
        LockedThroughout cfg clock rb ops e' → [e, e'].Sublist rb'.buffer := by
  intro rb rb'
  have hwf : WellFormed cfg rb := run_wellFormed cfg clock before
  refine ⟨?_, ?_⟩
  · intro e he hl
    have hs : [e].Sublist rb'.buffer :=
      run_keeps_locked hwf (List.singleton_sublist.mpr he) (by simpa using hl)
    exact List.singleton_sublist.mp hs
  · intro e e' hs hl hl'
    exact run_keeps_locked hwf hs (by simpa using ⟨hl, hl'⟩)

def content (e : BufferEntry) : Int × List Measurement × Nat := (e.id, e.measurements, e.timestampMs)

theorem eraseP_keeps_content {id : Int} {b : List BufferEntry}
    {kept : List (Int × List Measurement × Nat)} (h : kept.Sublist (b.map content))
    (hid : ∀ x ∈ kept, x.1 ≠ id) : kept.Sublist ((b.eraseP (hasId id)).map content) := by
  have herase : (b.map content).eraseP (fun x => decide (x.1 = id)) =
      (b.eraseP (hasId id)).map content := List.eraseP_map
  rw [← herase]
  exact sublist_eraseP h (by simpa using hid)

theorem ne_of_accepts {b : List BufferEntry} {id : Int} (h : IdOrder cfg b)
    (hmode : cfg.counterMode = 0) (hr : ¬ Refuses cfg b id) : ∀ e ∈ remaining cfg b, e.id ≠ id := by
  intro e he hid
  exact ((replaces_iff h).mpr ⟨hr, mem_ids.mpr ⟨e, he, hid⟩⟩).1 hmode

-- Without overflow a Push gives up no entry but one of its own id.
theorem push_keeps_content (hno : cfg.allowOverflow = false) (id : Int) (ms : List Measurement)
    {rb : RingBuffer} (hwf : WellFormed cfg rb) {kept : List (Int × List Measurement × Nat)}
    (h : kept.Sublist (rb.buffer.map content)) (hid : cfg.counterMode ≠ 0 → ∀ x ∈ kept, x.1 ≠ id) :
    kept.Sublist ((push cfg clock id ms rb).state.buffer.map content) := by
  have hall : remaining cfg rb.buffer = rb.buffer := remaining_of_no_victim (by simp [victim, hno])
  rcases Classical.em (Refuses cfg rb.buffer id) with hrefuses | haccepts
  · rw [(push_of_refuses clock ms hwf hrefuses).2.1, hall]
    exact h
  · obtain ⟨n, t, -, hpush⟩ := push_of_accepts clock ms hwf haccepts
    rw [hpush, hall, List.map_append]
    refine (eraseP_keeps_content h ?_).trans (List.sublist_append_left _ _)
    intro x hx
    rcases Decidable.em (cfg.counterMode = 0) with hmode | hmode
    · obtain ⟨e, he, rfl⟩ := List.mem_map.mp (h.subset hx)
      rw [← hall] at he
      exact ne_of_accepts hwf.order hmode haccepts e he
    · exact hid hmode x hx

end QdsBuffer.RingBuffer
