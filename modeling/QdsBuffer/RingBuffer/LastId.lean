import QdsBuffer.RingBuffer.Eviction

namespace QdsBuffer.RingBuffer

variable {cfg : Config} {clock : Nat → Nat}

abbrev Submission := Int × List Measurement

def submit (cfg : Config) (clock : Nat → Nat) (rb : RingBuffer) (s : Submission) : RingBuffer :=
  (push cfg clock s.1 s.2 rb).state

def Forward (cfg : Config) (clock : Nat → Nat) (rb : RingBuffer) (s : Submission) : Prop :=
  (s.1 ≤ getLastId rb → refused (push cfg clock s.1 s.2 rb).result = true) ∧
    getLastId rb ≤ getLastId (submit cfg clock rb s)

def LosesLast (cfg : Config) (rb : RingBuffer) (s : Submission) : Prop :=
  cfg.maxSize ≤ rb.buffer.length ∧ cfg.allowOverflow = true ∧
    ∃ pre back, rb.buffer = pre ++ [back] ∧ (∀ e ∈ pre, e.locked = true) ∧
      back.locked = false ∧ s.1 ≤ back.id

structure Rising (cfg : Config) (rb : RingBuffer) : Prop where
  wellFormed : WellFormed cfg rb
  nonempty : rb.buffer ≠ []

theorem getLastId_of_last {rb : RingBuffer} {pre : List BufferEntry} {back : BufferEntry}
    (h : rb.buffer = pre ++ [back]) : getLastId rb = back.id := by
  simp [getLastId, h]

theorem Rising.split {rb : RingBuffer} (h : Rising cfg rb) :
    ∃ pre back, rb.buffer = pre ++ [back] ∧ getLastId rb = back.id := by
  obtain ⟨pre, back, hb⟩ := (List.eq_nil_or_concat' rb.buffer).resolve_left h.nonempty
  exact ⟨pre, back, hb, getLastId_of_last hb⟩

theorem rejects_iff {pre : List BufferEntry} {back : BufferEntry} {id : Int}
    (hmode : cfg.counterMode = 0) : Rejects cfg (pre ++ [back]) id ↔ id ≤ back.id := by
  simp [Rejects, BadId, LockedEntry, hmode]

theorem not_rejects_nil {id : Int} : ¬ Rejects cfg [] id := by
  simp [Rejects, BadId, LockedEntry]

theorem accepted_is_last (clock : Nat → Nat) (s : Submission) {rb : RingBuffer}
    (h : WellFormed cfg rb) (hr : ¬ Refuses cfg rb.buffer s.1) :
    getLastId (submit cfg clock rb s) = s.1 ∧ (submit cfg clock rb s).buffer ≠ [] := by
  obtain ⟨n, t, -, hp⟩ := push_of_accepts clock s.2 h hr
  rw [submit, hp]
  exact ⟨by simp [getLastId], by simp⟩

theorem refused_keeps_last {rb : RingBuffer} {s : Submission} {pre : List BufferEntry}
    {back : BufferEntry} (clock : Nat → Nat) (h : WellFormed cfg rb)
    (hr : Refuses cfg rb.buffer s.1) (hrem : remaining cfg rb.buffer = pre ++ [back]) :
    getLastId (submit cfg clock rb s) = back.id ∧ (submit cfg clock rb s).buffer ≠ [] := by
  have hb := (push_of_refuses clock s.2 h hr).2.1
  rw [hrem] at hb
  exact ⟨getLastId_of_last hb, by rw [submit, hb]; simp⟩

-- Where the eviction does not take the last entry, the id is compared with the right one.
theorem remaining_keeps_last {b pre : List BufferEntry} {back : BufferEntry} (hb : b = pre ++ [back])
    (hv : ∀ v, victim cfg b = some v → ∃ l r, b = l ++ v :: r ∧ remaining cfg b = l ++ r ∧ r ≠ []) :
    ∃ pre', remaining cfg b = pre' ++ [back] := by
  cases hvictim : victim cfg b with
  | none => exact ⟨pre, by rw [remaining_of_no_victim hvictim, hb]⟩
  | some v =>
    obtain ⟨l, r, hsplit, hrem, hr⟩ := hv v hvictim
    obtain ⟨r', last, hr'⟩ := (List.eq_nil_or_concat' r).resolve_left hr
    rw [hb, hr', ← List.cons_append, ← List.append_assoc] at hsplit
    have hlast : back = last := by simpa using (List.append_inj' hsplit rfl).2
    exact ⟨l ++ r', by rw [hrem, hr', hlast, List.append_assoc]⟩

theorem LosesLast.not_forward {rb : RingBuffer} {s : Submission} (hmode : cfg.counterMode = 0)
    (h : WellFormed cfg rb) (hl : LosesLast cfg rb s) : ¬ Forward cfg clock rb s := by
  obtain ⟨hfull, ha, pre, back, hb, hpre, hback, hle⟩ := hl
  obtain ⟨hv, hrem⟩ := victim_behind_locked hfull ha hb hpre hback
  rw [List.append_nil] at hrem
  have hroom : Room cfg rb.buffer := .inr (by simp [hv])
  rintro ⟨hrefuse, hmono⟩
  rw [getLastId_of_last hb] at hrefuse hmono
  have hr : Refuses cfg rb.buffer s.1 := (push_refused_iff h).mp (hrefuse hle)
  have hrej : Rejects cfg pre s.1 := by
    rw [← hrem]
    exact hr.resolve_left (not_not.mpr hroom)
  rcases List.eq_nil_or_concat' pre with hnil | ⟨pre', last, hpre'⟩
  · exact not_rejects_nil (hnil ▸ hrej)
  · have hlast := (refused_keeps_last clock h hr (hrem.trans hpre')).1
    have hlt : last.id < back.id := by
      have hord := h.order
      simp only [IdOrder, hmode, ↓reduceIte, hb, hpre', ids_append, ids_cons, ids_nil] at hord
      simpa using (List.pairwise_append.mp hord).2.2 last.id (by simp) back.id (by simp)
    omega

theorem keeps_last_of_not_losesLast {rb : RingBuffer} {s : Submission} {pre : List BufferEntry}
    {back : BufferEntry} (hb : rb.buffer = pre ++ [back]) (hle : s.1 ≤ back.id)
    (hl : ¬ LosesLast cfg rb s) : ∃ pre', remaining cfg rb.buffer = pre' ++ [back] := by
  refine remaining_keeps_last hb ?_
  intro v hv
  obtain ⟨l, r, hsplit, hlocked, hrem⟩ := victim_split hv
  refine ⟨l, r, hsplit, hrem, ?_⟩
  rintro rfl
  obtain ⟨hfull, ha⟩ := victim_full hv
  have hlast : back = v := by
    have := hb.symm.trans hsplit
    simpa using (List.append_inj' this rfl).2
  exact hl ⟨hfull, ha, l, v, hsplit, hlocked, (victim_mem hv).2, hlast ▸ hle⟩

theorem no_room_of_newer_refused {rb : RingBuffer} {s : Submission} {back : BufferEntry}
    (hmode : cfg.counterMode = 0) (h : WellFormed cfg rb) (hb : rb.buffer.getLast? = some back)
    (hlt : back.id < s.1) (hr : Refuses cfg rb.buffer s.1) : ¬ Room cfg rb.buffer := by
  refine hr.resolve_right ?_
  rintro (⟨-, last, hlast, hle⟩ | ⟨h0, -⟩)
  · have hmem := (remaining_sublist cfg rb.buffer).subset (List.mem_of_getLast? hlast)
    have := h.order.le_last hmode hb last hmem
    omega
  · exact h0 hmode

theorem forward_of_not_losesLast {rb : RingBuffer} {s : Submission} (clock : Nat → Nat)
    (hmode : cfg.counterMode = 0) (h : Rising cfg rb) (hl : ¬ LosesLast cfg rb s) :
    Forward cfg clock rb s := by
  obtain ⟨pre, back, hb, hlast⟩ := h.split
  rcases Int.lt_or_le back.id s.1 with hlt | hle
  · refine ⟨fun hle => absurd hle (by omega), ?_⟩
    rcases Classical.em (Refuses cfg rb.buffer s.1) with hr | hr
    · have hroom := no_room_of_newer_refused hmode h.wellFormed (by simp [hb]) hlt hr
      have hsame : submit cfg clock rb s = rb := by
        rw [submit, push_of_not_room h.wellFormed.size hroom]
      exact Int.le_of_eq (congrArg getLastId hsame.symm)
    · rw [hlast, (accepted_is_last clock s h.wellFormed hr).1]
      omega
  · obtain ⟨pre', hrem⟩ := keeps_last_of_not_losesLast hb hle hl
    have hr : Refuses cfg rb.buffer s.1 := by
      refine .inr ?_
      rw [hrem]
      exact (rejects_iff hmode).mpr hle
    refine ⟨fun _ => (push_refused_iff h.wellFormed).mpr hr, ?_⟩
    rw [hlast]
    exact Int.le_of_eq (refused_keeps_last clock h.wellFormed hr hrem).1.symm

theorem submit_rising {rb : RingBuffer} (s : Submission) (h : Rising cfg rb) :
    Rising cfg (submit cfg clock rb s) := by
  refine ⟨push_wellFormed h.wellFormed, ?_⟩
  by_cases hr : Refuses cfg rb.buffer s.1
  · rw [submit, (push_of_refuses clock s.2 h.wellFormed hr).2.1]
    intro hnil
    rcases hr with hroom | hrej
    · have hv : victim cfg rb.buffer = none := by simpa [Room] using (not_or.mp hroom).2
      exact h.nonempty (remaining_of_no_victim hv ▸ hnil)
    · exact not_rejects_nil (hnil ▸ hrej)
  · exact (accepted_is_last clock s h.wellFormed hr).2

theorem forward_iff {rb : RingBuffer} (clock : Nat → Nat) (s : Submission)
    (hmode : cfg.counterMode = 0) (h : Rising cfg rb) :
    Forward cfg clock rb s ↔ ¬ LosesLast cfg rb s :=
  ⟨fun hf hl => hl.not_forward hmode h.wellFormed hf, forward_of_not_losesLast clock hmode h⟩

theorem ids_forward_iff (cfg : Config) (clock : Nat → Nat) (ops : List Op)
    (submissions : List Submission) (hmode : cfg.counterMode = 0)
    (hstored : (Runs.run (step cfg clock) initial ops).buffer ≠ []) :
    let rb := Runs.run (step cfg clock) initial ops
    Runs.Along (submit cfg clock) (Forward cfg clock) rb submissions ↔
      Runs.Along (submit cfg clock) (fun rb s => ¬ LosesLast cfg rb s) rb submissions :=
  Runs.along_congr (fun _ s h => submit_rising s h)
    (fun _ s h => forward_iff clock s hmode h) submissions ⟨run_wellFormed cfg clock ops, hstored⟩

theorem ids_forward_iff_two :
    let cfg : Config := ⟨2, 0, true, true⟩
    let rb := Runs.run (step cfg id) initial [.push 1 [], .push 5 []]
    Runs.Along (submit cfg id) (Forward cfg id) rb [(7, []), (6, [])] ↔
      Runs.Along (submit cfg id) (fun rb s => ¬ LosesLast cfg rb s) rb [(7, []), (6, [])] :=
  ids_forward_iff _ _ _ _ rfl (by decide)

theorem older_id_replaces_last :
    let cfg : Config := ⟨1, 0, true, true⟩
    let rb := Runs.run (step cfg id) initial [.push 5 []]
    ¬ Runs.Along (submit cfg id) (Forward cfg id) rb [(3, [])] ∧
      getLastId (submit cfg id rb (3, [])) = 3 := by
  refine ⟨?_, by decide⟩
  rintro ⟨⟨hrefuse, -⟩, -⟩
  exact absurd (hrefuse (by decide)) (by decide)

end QdsBuffer.RingBuffer
