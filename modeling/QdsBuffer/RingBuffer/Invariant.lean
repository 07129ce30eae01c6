import QdsBuffer.RingBuffer.Push
import Mathlib.Data.List.Nodup

namespace QdsBuffer.RingBuffer

variable {cfg : Config} {clock : Nat → Nat}

def ids (b : List BufferEntry) : List Int := b.map (·.id)

@[simp] theorem ids_append (b c : List BufferEntry) : ids (b ++ c) = ids b ++ ids c :=
  List.map_append

@[simp] theorem ids_cons (e : BufferEntry) (b : List BufferEntry) : ids (e :: b) = e.id :: ids b :=
  rfl

@[simp] theorem ids_nil : ids [] = [] := rfl

theorem mem_ids {id : Int} {b : List BufferEntry} : id ∈ ids b ↔ ∃ e ∈ b, e.id = id := by
  simp [ids]

theorem eq_of_id {b : List BufferEntry} {e it : BufferEntry} (hn : (ids b).Nodup) (he : e ∈ b)
    (hit : it ∈ b) (h : e.id = it.id) : e = it :=
  List.inj_on_of_nodup_map hn he hit h

def IdOrder (cfg : Config) (b : List BufferEntry) : Prop :=
  if cfg.counterMode = 0 then (ids b).Pairwise (· < ·) else (ids b).Nodup

structure WellFormed (cfg : Config) (rb : RingBuffer) : Prop where
  size : rb.buffer.length ≤ cfg.maxSize
  order : IdOrder cfg rb.buffer

theorem IdOrder.sublist {b c : List BufferEntry} (h : IdOrder cfg b) (hs : c.Sublist b) :
    IdOrder cfg c := by
  unfold IdOrder at h ⊢
  split at h <;> rename_i hm <;> simp only [hm, ↓reduceIte]
  · exact List.Pairwise.sublist (hs.map _) h
  · exact List.Nodup.sublist (hs.map _) h

theorem IdOrder.nodup {b : List BufferEntry} (h : IdOrder cfg b) : (ids b).Nodup := by
  unfold IdOrder at h
  split at h
  · exact h.imp (fun hlt => Int.ne_of_lt hlt)
  · exact h

theorem IdOrder.le_last {b : List BufferEntry} {back : BufferEntry} (h : IdOrder cfg b)
    (hm : cfg.counterMode = 0) (hl : b.getLast? = some back) : ∀ e ∈ b, e.id ≤ back.id := by
  obtain ⟨pre, rfl⟩ := List.getLast?_eq_some_iff.mp hl
  simp only [IdOrder, hm, ↓reduceIte, ids_append, ids_cons, ids_nil, List.pairwise_append,
    List.mem_singleton, forall_eq] at h
  intro e he
  rcases List.mem_append.mp he with he | he
  · exact Int.le_of_lt (h.2.2 e.id (mem_ids.mpr ⟨e, he, rfl⟩))
  · exact Int.le_of_eq (by rw [List.mem_singleton.mp he])

theorem IdOrder.append {b : List BufferEntry} {e : BufferEntry} (h : IdOrder cfg b)
    (h0 : cfg.counterMode = 0 → ∀ back, b.getLast? = some back → back.id < e.id)
    (h1 : cfg.counterMode ≠ 0 → ∀ x ∈ b, x.id ≠ e.id) : IdOrder cfg (b ++ [e]) := by
  by_cases hm : cfg.counterMode = 0
  · have hlt : ∀ x ∈ b, x.id < e.id := by
      intro x hx
      obtain ⟨back, hl⟩ := Option.isSome_iff_exists.mp
        (List.getLast?_isSome.mpr (List.ne_nil_of_mem hx))
      have := h0 hm back hl
      have := h.le_last hm hl x hx
      omega
    simp only [IdOrder, hm, ↓reduceIte, ids_append, ids_cons, ids_nil, List.pairwise_append] at h ⊢
    exact ⟨h, List.pairwise_singleton _ _, by simpa [ids] using hlt⟩
  · simp only [IdOrder, hm, ↓reduceIte, ids_append, ids_cons, ids_nil] at h ⊢
    exact List.nodup_append.mpr ⟨h, List.nodup_singleton _, by simpa [ids] using h1 hm⟩

theorem eraseP_hasId_length {id : Int} {b : List BufferEntry} {it : BufferEntry}
    (h : b.find? (hasId id) = some it) : (b.eraseP (hasId id)).length + 1 = b.length := by
  obtain ⟨pre, post, hb, -, -, he⟩ := hasId_split h
  rw [he, hb]
  simp only [List.length_append, List.length_cons]
  omega

theorem eraseP_hasId_ne {id : Int} {b : List BufferEntry} {it : BufferEntry}
    (hn : (ids b).Nodup) (h : b.find? (hasId id) = some it) :
    ∀ e ∈ b.eraseP (hasId id), e.id ≠ id := by
  obtain ⟨pre, post, hb, hit, hpre, he⟩ := hasId_split h
  rw [he]
  rw [hb, ids_append, ids_cons, List.nodup_append] at hn
  intro e hm
  rcases List.mem_append.mp hm with hm | hm
  · exact hpre e hm
  · rintro rfl
    exact (List.nodup_cons.mp hn.2.1).1 (hit ▸ mem_ids.mpr ⟨e, hm, rfl⟩)

theorem StoreCase.wellFormed {id : Int} {ms : List Measurement} {d : Discarded} {p : Pushed}
    (hc : StoreCase cfg clock id ms d p) (hl : d.buffer.length < cfg.maxSize)
    (ho : IdOrder cfg d.buffer) : WellFormed cfg p.state := by
  cases hc with
  | badId => exact ⟨Nat.le_of_lt hl, ho⟩
  | lockedEntry => exact ⟨Nat.le_of_lt hl, ho⟩
  | append h0 h1 =>
    refine ⟨?_, ho.append h0 h1⟩
    simp only [pushBack, List.length_append, List.length_singleton]
    omega
  | replace it hm hf _ =>
    refine ⟨?_, ?_⟩
    · have := eraseP_hasId_length hf
      simp only [pushBack, List.length_append, List.length_singleton]
      omega
    · exact (ho.sublist List.eraseP_sublist).append (absurd · hm)
        (fun _ => eraseP_hasId_ne ho.nodup hf)

theorem push_wellFormed {rb : RingBuffer} {id : Int} {ms : List Measurement}
    (h : WellFormed cfg rb) : WellFormed cfg (push cfg clock id ms rb).state := by
  by_cases hr : Room cfg rb.buffer
  · rw [push_of_room h.size hr]
    apply (store_case _ _ _ _ _).wellFormed
    · rw [makeRoom_buffer]
      exact room_length h.size hr
    · rw [makeRoom_buffer]
      exact h.order.sublist (remaining_sublist cfg _)
  · rw [push_of_not_room h.size hr]
    exact h

theorem deleteLoop_sublist (cfg : Config) (id : Int) (b : List BufferEntry) :
    (deleteLoop cfg id b).1.Sublist b := by
  induction b with
  | nil => exact List.Sublist.refl _
  | cons e b ih =>
    simp only [deleteLoop]
    split
    · exact List.sublist_cons_self _ _
    · split
      · exact List.Sublist.refl _
      · exact ih.cons_cons _

theorem reset_of_empty (cfg : Config) (clock : Nat → Nat) (reason : ResetReason) {rb : RingBuffer}
    (h : rb.buffer = []) : reset cfg clock reason rb = (⟨0, .unknown, 0, 0, 0⟩, rb, []) := by
  simp only [reset, h, List.head?_nil]

theorem reset_of_nonempty (cfg : Config) (clock : Nat → Nat) (reason : ResetReason)
    {rb : RingBuffer} (h : rb.buffer ≠ []) :
    ∃ info, info.resetTimeMs = clock rb.ticks ∧
      reset cfg clock reason rb = (info, ⟨[], rb.ticks + 1⟩, notify cfg ⟨none, true, 0⟩) := by
  have hf : rb.buffer.head? = some (rb.buffer.head h) := List.head?_eq_some_head h
  have hl : rb.buffer.getLast? = some (rb.buffer.getLast h) := List.getLast?_eq_some_getLast h
  simp only [reset, hf, hl]
  exact ⟨_, rfl, rfl⟩

theorem reset_buffer (cfg : Config) (clock : Nat → Nat) (reason : ResetReason) (rb : RingBuffer) :
    (reset cfg clock reason rb).2.1.buffer = [] := by
  by_cases h : rb.buffer = []
  · rw [reset_of_empty cfg clock reason h]
    exact h
  · obtain ⟨info, -, hr⟩ := reset_of_nonempty cfg clock reason h
    rw [hr]

theorem map_modify_locked {γ : Type} (f : BufferEntry → γ)
    (hf : ∀ e locked, f { e with locked := locked } = f e) (b : List BufferEntry) (index : Nat)
    (locked : Bool) :
    (b.modify index (fun e => { e with locked := locked })).map f = b.map f := by
  induction b generalizing index with
  | nil => simp
  | cons e b ih => cases index <;> simp [ih, hf]

theorem ids_modify (b : List BufferEntry) (index : Nat) (locked : Bool) :
    ids (b.modify index (fun e => { e with locked := locked })) = ids b :=
  map_modify_locked _ (fun _ _ => rfl) b index locked

theorem exists_of_mem_modify_locked {b : List BufferEntry} {index : Nat} {locked : Bool}
    {e : BufferEntry} (h : e ∈ b.modify index (fun e => { e with locked := locked })) :
    ∃ e' ∈ b, e'.id = e.id ∧ e'.measurements = e.measurements := by
  have hm : (e.id, e.measurements) ∈ b.map (fun e => (e.id, e.measurements)) := by
    rw [← map_modify_locked _ (fun _ _ => rfl) b index locked]
    exact List.mem_map.mpr ⟨e, h, rfl⟩
  obtain ⟨e', he', heq⟩ := List.mem_map.mp hm
  exact ⟨e', he', Prod.mk.inj heq⟩

theorem step_wellFormed (rb : RingBuffer) (op : Op) (h : WellFormed cfg rb) :
    WellFormed cfg (step cfg clock rb op) := by
  cases op with
  | push id ms => exact push_wellFormed h
  | delete id =>
    have hs := deleteLoop_sublist cfg id rb.buffer
    exact ⟨Nat.le_trans hs.length_le h.size, h.order.sublist hs⟩
  | reset reason =>
    have hb := reset_buffer cfg clock reason rb
    refine ⟨?_, ?_⟩
    · simp [step, hb]
    · simp [step, hb, IdOrder]
  | setLocked index locked =>
    refine ⟨?_, ?_⟩
    · simpa [step, setLocked] using h.size
    · simpa only [step, setLocked, IdOrder, ids_modify] using h.order

theorem initial_wellFormed : WellFormed cfg initial := ⟨Nat.zero_le _, by simp [IdOrder, initial]⟩

theorem run_wellFormed (cfg : Config) (clock : Nat → Nat) (ops : List Op) :
    WellFormed cfg (Runs.run (step cfg clock) initial ops) :=
  Runs.run_invariant step_wellFormed ops initial_wellFormed

theorem representation_invariant (cfg : Config) (clock : Nat → Nat) (ops : List Op) :
    let b := (Runs.run (step cfg clock) initial ops).buffer
    b.length ≤ cfg.maxSize ∧ (cfg.counterMode = 0 → (ids b).Pairwise (· < ·)) ∧
      (cfg.counterMode ≠ 0 → (ids b).Nodup) := by
  have h := run_wellFormed cfg clock ops
  refine ⟨h.size, ?_, fun _ => h.order.nodup⟩
  intro h0
  have hord := h.order
  simpa only [IdOrder, h0, ↓reduceIte] using hord

end QdsBuffer.RingBuffer
