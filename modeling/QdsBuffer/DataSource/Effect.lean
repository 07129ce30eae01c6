import QdsBuffer.DataSource.Basic
import QdsBuffer.RingBuffer.Effect

namespace QdsBuffer.DataSource
open RingBuffer

variable {cfg : Config} {clock : Nat → Nat}

abbrev rows (s : DataSource) : List ReferenceData := s.refs.refMapping.rows

abbrev entries (s : DataSource) : List BufferEntry := s.buffer.buffer

@[simp] theorem rows_initial (files : Files) : rows (initial files) = [] := rfl

@[simp] theorem entries_initial (files : Files) : entries (initial files) = [] := rfl

def erases (call : DeleteCall) (d : ReferenceData) : Prop :=
  call.clear = true ∨ d.id = (call.entry.map (·.id)).getD 0

theorem mem_rows_deleteRefMapping {id : Int} {clear : Bool} {s : DataSource} {d : ReferenceData} :
    d ∈ rows (deleteRefMapping id clear s) ↔ d ∈ rows s ∧ ¬ (clear = true ∨ d.id = id) := by
  cases clear <;> simp [rows, deleteRefMapping]

theorem mem_rows_callback {s : DataSource} {call : DeleteCall} {d : ReferenceData} :
    d ∈ rows (onDeleteCallback cfg s call) ↔ d ∈ rows s ∧ ¬ erases call d := by
  unfold onDeleteCallback erases
  split <;> rename_i he <;> rw [mem_rows_deleteRefMapping] <;> simp [he, rows]

theorem mem_rows_callbacks {calls : List DeleteCall} {s : DataSource} {d : ReferenceData} :
    d ∈ rows (calls.foldl (onDeleteCallback cfg) s) ↔
      d ∈ rows s ∧ ∀ call ∈ calls, ¬ erases call d := by
  induction calls generalizing s with
  | nil => simp
  | cons call calls ih =>
    rw [List.foldl_cons, ih, mem_rows_callback]
    simp only [List.mem_cons, forall_eq_or_imp, and_assoc]

theorem callback_frame (cfg : Config) (s : DataSource) (call : DeleteCall) :
    (onDeleteCallback cfg s call).buffer = s.buffer ∧
    (onDeleteCallback cfg s call).refs.refCounter = s.refs.refCounter ∧
    (onDeleteCallback cfg s call).refs.files = s.refs.files := by
  unfold onDeleteCallback
  split <;> exact ⟨rfl, rfl, rfl⟩

theorem callbacks_frame (cfg : Config) (calls : List DeleteCall) (s : DataSource) :
    (calls.foldl (onDeleteCallback cfg) s).buffer = s.buffer ∧
    (calls.foldl (onDeleteCallback cfg) s).refs.refCounter = s.refs.refCounter ∧
    (calls.foldl (onDeleteCallback cfg) s).refs.files = s.refs.files := by
  induction calls generalizing s with
  | nil => exact ⟨rfl, rfl, rfl⟩
  | cons call calls ih =>
    obtain ⟨hb, hc, hf⟩ := callback_frame cfg s call
    obtain ⟨hb', hc', hf'⟩ := ih (onDeleteCallback cfg s call)
    exact ⟨hb'.trans hb, hc'.trans hc, hf'.trans hf⟩

theorem erases_evictionCalls {rb : RingBuffer} {d : ReferenceData} :
    (∀ call ∈ evictionCalls cfg.ring clock rb, ¬ erases call d) ↔
      ∀ v ∈ victim cfg.ring rb.buffer, d.id ≠ v.id := by
  unfold evictionCalls
  generalize victim cfg.ring rb.buffer = v
  cases v <;> simp [notify, Config.ring, erases]

theorem erases_replacementCalls {id : Int} {b : List BufferEntry} {d : ReferenceData} :
    (∀ call ∈ replacementCalls cfg.ring id b, ¬ erases call d) ↔ (id ∈ ids b → d.id ≠ id) := by
  cases hf : b.find? (hasId id) with
  | none =>
    have hn : id ∉ ids b := by simpa [mem_ids] using find_hasId_none.mp hf
    simp [replacementCalls, hf, hn]
  | some it =>
    have hit : it.id = id := by simpa [hasId] using List.find?_some hf
    have hm : id ∈ ids b := mem_ids.mpr ⟨it, List.mem_of_find?_eq_some hf, hit⟩
    simp [replacementCalls, hf, hm, notify, Config.ring, erases, hit]

theorem failed_of_refused {result : Except Exception Int} (h : refused result = true) :
    failed result = true := by
  cases result with
  | error e => rfl
  | ok n =>
    simp only [refused, failed, decide_eq_true_eq] at h ⊢
    omega

theorem pushSection_refused_effect (clock : Nat → Nat) (ms : List Measurement) {s : DataSource}
    {id : Int} (h : WellFormed cfg.ring s.buffer) (hr : Refuses cfg.ring (entries s) id) :
    let p := pushSection cfg clock id ms s
    refused p.1 = true ∧ entries p.2 = remaining cfg.ring (entries s) ∧
      ∀ d, d ∈ rows p.2 ↔ d ∈ rows s ∧ ∀ v ∈ victim cfg.ring (entries s), d.id ≠ v.id := by
  obtain ⟨href, hb, hc⟩ := push_of_refuses clock ms h hr
  refine ⟨href, ?_, ?_⟩
  · exact (congrArg RingBuffer.buffer (callbacks_frame cfg _ _).1).trans hb
  · intro d
    simp only [pushSection]
    rw [mem_rows_callbacks, hc, erases_evictionCalls]

theorem pushSection_accepted_effect (clock : Nat → Nat) (ms : List Measurement) {s : DataSource}
    {id : Int} (h : WellFormed cfg.ring s.buffer) (hr : ¬ Refuses cfg.ring (entries s) id) :
    let p := pushSection cfg clock id ms s
    failed p.1 = false ∧
      (∃ t, entries p.2 =
        (remaining cfg.ring (entries s)).eraseP (hasId id) ++ [⟨id, ms, t, false⟩]) ∧
      ∀ d, d ∈ rows p.2 ↔
        d ∈ rows s ∧ (id ∈ ids (remaining cfg.ring (entries s)) → d.id ≠ id) ∧
          ∀ v ∈ victim cfg.ring (entries s), d.id ≠ v.id := by
  obtain ⟨n, t, hn, hpush⟩ := push_of_accepts clock ms h hr
  simp only [pushSection, hpush]
  refine ⟨?_, ⟨clock t, ?_⟩, ?_⟩
  · simp only [failed, decide_eq_false_iff_not]
    omega
  · simp only [entries, (callbacks_frame cfg _ _).1]
  · intro d
    rw [mem_rows_callbacks]
    simp only [List.mem_append, or_imp, forall_and, erases_evictionCalls, erases_replacementCalls]
    exact ⟨fun hd => ⟨hd.1, hd.2.2, hd.2.1⟩, fun hd => ⟨hd.1, hd.2.2, hd.2.1⟩⟩

theorem push_refused_effect (clock : Nat → Nat) (ms : List Measurement) {s : DataSource} {id : Int}
    (h : WellFormed cfg.ring s.buffer) (hr : Refuses cfg.ring (entries s) id) :
    let p := pushMeasurements cfg clock id ms s
    refused p.1 = true ∧ entries p.2 = remaining cfg.ring (entries s) ∧
      ∀ d, d ∈ rows p.2 ↔
        d ∈ rows s ∧ d.id ≠ id ∧ ∀ v ∈ victim cfg.ring (entries s), d.id ≠ v.id := by
  obtain ⟨href, hb, hrows⟩ := pushSection_refused_effect clock ms h hr
  simp only [pushMeasurements, failed_of_refused href, ↓reduceIte]
  refine ⟨href, hb, ?_⟩
  intro d
  rw [mem_rows_deleteRefMapping, hrows d]
  simp only [Bool.false_eq_true, false_or, and_assoc, and_comm (a := d.id ≠ id)]

theorem push_accepted_effect (clock : Nat → Nat) (ms : List Measurement) {s : DataSource} {id : Int}
    (h : WellFormed cfg.ring s.buffer) (hr : ¬ Refuses cfg.ring (entries s) id) :
    let p := pushMeasurements cfg clock id ms s
    failed p.1 = false ∧
      (∃ t, entries p.2 =
        (remaining cfg.ring (entries s)).eraseP (hasId id) ++ [⟨id, ms, t, false⟩]) ∧
      ∀ d, d ∈ rows p.2 ↔
        d ∈ rows s ∧ (id ∈ ids (remaining cfg.ring (entries s)) → d.id ≠ id) ∧
          ∀ v ∈ victim cfg.ring (entries s), d.id ≠ v.id := by
  have hp := pushSection_accepted_effect clock ms h hr
  simpa only [pushMeasurements, hp.1, Bool.false_eq_true, ↓reduceIte] using hp

theorem delete_effect (id : Int) {s : DataSource} (h : WellFormed cfg.ring s.buffer) :
    entries (delete cfg id s) = (entries s).eraseP (hasId id) ∧
      ∀ d, d ∈ rows (delete cfg id s) ↔ d ∈ rows s ∧ (id ∈ ids (entries s) → d.id ≠ id) := by
  have hd : RingBuffer.delete cfg.ring id s.buffer = _ :=
    congrArg (fun p => ((⟨p.1, s.buffer.ticks⟩, p.2) : RingBuffer × List DeleteCall))
      (deleteLoop_eq id h.order)
  simp only [delete, hd]
  refine ⟨by simp only [entries, (callbacks_frame cfg _ _).1], ?_⟩
  intro d
  rw [mem_rows_callbacks, erases_replacementCalls]

theorem reset_effect (cfg : Config) (clock : Nat → Nat) (reason : ResetReason) (s : DataSource) :
    entries (reset cfg clock reason s) = [] ∧
      ∀ d, d ∈ rows (reset cfg clock reason s) ↔ d ∈ rows s ∧ entries s = [] := by
  refine ⟨?_, ?_⟩
  · simp only [reset, entries, (callbacks_frame cfg _ _).1]
    exact reset_buffer _ _ _ _
  · intro d
    simp only [reset, rows]
    rw [← rows, mem_rows_callbacks]
    by_cases hb : entries s = []
    · rw [reset_of_empty cfg.ring clock reason hb]
      simp [hb]
    · obtain ⟨info, -, hr⟩ := reset_of_nonempty cfg.ring clock reason hb
      rw [hr]
      simp [hb, notify, Config.ring, erases]

end QdsBuffer.DataSource
