import QdsBuffer.Library.Tenure
import QdsBuffer.Concurrent.Naming
import QdsBuffer.Concurrent.Ownership
import QdsBuffer.Concurrent.Retrieval

namespace QdsBuffer.Concurrent.Locks
open RingBuffer DataSource

-- The data set of id k, and that the references of k in the table are those it names.
def tenure (cfg : DataSource.Config) (files : Files) (calls : List Call) (k : Int) :
    LockOrder.Tenure DataSource where
  sound s := Kept cfg s ∧ Accounted files calls s.refs ∧ s.refs.NamesBelow
  present s := k ∈ ids (entries s)
  good s := ∀ ref, HasRef (entries s) k ref ↔ HasPair (rows s) k ref
  keeps s s' := (k ∈ ids (entries s') ↔ k ∈ ids (entries s)) ∧
    (∀ ref, HasRef (entries s') k ref ↔ HasRef (entries s) k ref) ∧
    ∀ ref, HasPair (rows s') k ref ↔ HasPair (rows s) k ref
  refl _ := ⟨Iff.rfl, fun _ => Iff.rfl, fun _ => Iff.rfl⟩
  trans hab hbc := ⟨hbc.1.trans hab.1, fun ref => (hbc.2.1 ref).trans (hab.2.1 ref),
    fun ref => (hbc.2.2 ref).trans (hab.2.2 ref)⟩
  present_iff h := h.1
  good_mono h hgood ref := ((h.2.1 ref).trans (hgood ref)).trans (h.2.2 ref).symm

def Guest (cfg : DataSource.Config) (files : Files) (calls : List Call) (k : Int) (p : Program) :
    Prop :=
  p.Guest (tenure cfg files calls k)

def NeverStores (cfg : DataSource.Config) (files : Files) (calls : List Call) (k : Int)
    (p : Program) : Prop :=
  p.NeverInstalls (tenure cfg files calls k)

variable {cfg : DataSource.Config} {clock : Nat → Nat} {files : Files} {calls : List Call} {k : Int}

theorem underLock_neverStores {m : Mutex} {f : DataSource → DataSource}
    {next : DataSource → Program} (hbuffer : ∀ s, (f s).buffer = s.buffer)
    (hnext : ∀ s, NeverStores cfg files calls k (next s)) :
    NeverStores cfg files calls k (underLock m f next) := by
  intro s _ habsent
  refine ⟨?_, hnext s⟩
  change k ∉ ids (f s).buffer.buffer
  rwa [hbuffer s]

theorem callbacks_neverStores {deleted : List DeleteCall} {next : Program}
    (hnext : NeverStores cfg files calls k next) :
    NeverStores cfg files calls k (callbacks cfg deleted next) :=
  callbacks_induction
    (fun _ _ hafter => underLock_neverStores (fun _ => rfl) (fun _ => hafter))
    (fun _ _ _ hafter => underLock_neverStores (fun _ => rfl) (fun _ => hafter)) hnext

-- A section that leaves the buffer and the references of k alone.
theorem underLock_guest {m : Mutex} {f : DataSource → DataSource} {next : DataSource → Program}
    (hbuffer : ∀ s, (f s).buffer = s.buffer)
    (hrows : ∀ s d, d.id = k → (d ∈ rows (f s) ↔ d ∈ rows s))
    (hnext : ∀ s, Guest cfg files calls k (next s)) :
    Guest cfg files calls k (underLock m f next) := by
  intro s _
  refine .inl ⟨⟨?_, ?_, ?_⟩, hnext s⟩
  · rw [entries, hbuffer s]
  · intro ref
    rw [entries, hbuffer s]
  · intro ref
    constructor
    · rintro ⟨x, hx, hid, href⟩
      exact ⟨x, (hrows s x hid).mp hx, hid, href⟩
    · rintro ⟨x, hx, hid, href⟩
      exact ⟨x, (hrows s x hid).mpr hx, hid, href⟩

theorem deleteRefMapping_guest {id : Int} {clear : Bool} (h : ¬(clear = true ∨ k = id))
    {next : Program} (hnext : Guest cfg files calls k next) :
    Guest cfg files calls k (deleteRefMapping id clear next) := by
  refine underLock_guest (fun _ => rfl) ?_ (fun _ => hnext)
  rintro s d rfl
  exact mem_rows_deleteRefMapping.trans (and_iff_left h)

theorem onDeleteCallback_guest {call : DeleteCall} (h : ¬ErasesId call k) {next : Program}
    (hnext : Guest cfg files calls k next) :
    Guest cfg files calls k (Locks.onDeleteCallback cfg call next) := by
  unfold ErasesId at h
  unfold Locks.onDeleteCallback
  cases he : call.entry with
  | none =>
    rw [he] at h
    exact deleteRefMapping_guest h hnext
  | some entry =>
    rw [he] at h
    exact underLock_guest (fun _ => rfl) (fun _ _ _ => Iff.rfl)
      (fun _ => deleteRefMapping_guest h hnext)

theorem callbacks_guest {deleted : List DeleteCall} (h : ∀ call ∈ deleted, ¬ErasesId call k)
    {next : Program} (hnext : Guest cfg files calls k next) :
    Guest cfg files calls k (callbacks cfg deleted next) := by
  induction deleted with
  | nil => exact hnext
  | cons call deleted ih =>
    obtain ⟨hcall, hrest⟩ := List.forall_mem_cons.mp h
    exact onDeleteCallback_guest hcall (ih hrest)

theorem measurements_of_id {b : List BufferEntry} (hn : (ids b).Nodup) {e e' : BufferEntry}
    (he : e ∈ b) (he' : e' ∈ b) (hid : e.id = e'.id) : e.measurements = e'.measurements :=
  congrArg BufferEntry.measurements (List.inj_on_of_nodup_map hn he he' hid)

theorem spared_evictionCalls {rb : RingBuffer}
    (h : ∀ v ∈ victim cfg.ring rb.buffer, k ≠ v.id) :
    ∀ call ∈ evictionCalls cfg.ring clock rb, ¬ErasesId call k :=
  (erases_evictionCalls (d := ⟨k, [], [], []⟩)).mpr h

theorem spared_replacementCalls {id : Int} {b : List BufferEntry} (h : id ∈ ids b → k ≠ id) :
    ∀ call ∈ replacementCalls cfg.ring id b, ¬ErasesId call k :=
  (erases_replacementCalls (d := ⟨k, [], [], []⟩)).mpr h

-- The callbacks of a Push of another id erase no references of a data set that stays.
theorem push_spares {rb : RingBuffer} (hwf : WellFormed cfg.ring rb) {id : Int} (hid : k ≠ id)
    (ms : List Measurement)
    (hstays : k ∈ ids rb.buffer → k ∈ ids (RingBuffer.push cfg.ring clock id ms rb).state.buffer) :
    ∀ call ∈ (RingBuffer.push cfg.ring clock id ms rb).calls, ¬ErasesId call k := by
  have hvictim : (k ∈ ids rb.buffer → k ∈ ids (remaining cfg.ring rb.buffer)) →
      ∀ v ∈ victim cfg.ring rb.buffer, k ≠ v.id := by
    rintro hrest v hv rfl
    obtain ⟨e, he, heq⟩ := mem_ids.mp (hrest (mem_ids.mpr ⟨v, (victim_mem hv).1, rfl⟩))
    exact ((mem_remaining hwf.order.nodup).mp he).2 v hv heq
  by_cases hr : Refuses cfg.ring rb.buffer id
  · obtain ⟨-, hb, hc⟩ := push_of_refuses clock ms hwf hr
    rw [hb] at hstays
    rw [hc]
    exact spared_evictionCalls (hvictim hstays)
  · obtain ⟨n, t, -, hp⟩ := push_of_accepts clock ms hwf hr
    rw [hp] at hstays ⊢
    have hrest : k ∈ ids rb.buffer → k ∈ ids (remaining cfg.ring rb.buffer) := by
      intro hk
      rcases List.mem_append.mp (ids_append _ _ ▸ hstays hk) with hold | hnew
      · exact (List.eraseP_sublist.map _).subset hold
      · exact absurd (List.mem_singleton.mp hnew) hid
    intro call hcall
    rcases List.mem_append.mp hcall with hcall | hcall
    · exact spared_evictionCalls (hvictim hrest) call hcall
    · exact spared_replacementCalls (fun _ => hid) call hcall

theorem delete_spares {rb : RingBuffer} (hwf : WellFormed cfg.ring rb) (id : Int)
    (hstays : k ∈ ids rb.buffer → k ∈ ids (RingBuffer.delete cfg.ring id rb).1.buffer) :
    ∀ call ∈ (RingBuffer.delete cfg.ring id rb).2, ¬ErasesId call k := by
  simp only [RingBuffer.delete, deleteLoop_eq id hwf.order] at hstays ⊢
  refine spared_replacementCalls ?_
  rintro hid rfl
  obtain ⟨e, he, heq⟩ := mem_ids.mp (hstays hid)
  exact ((mem_eraseP_hasId hwf.order.nodup).mp he).2 heq

-- An operation of the buffer that adds nothing of k, and the callbacks it announces.
theorem removal_guest {rb : DataSource → RingBuffer} {deleted : DataSource → List DeleteCall}
    {next : DataSource → Program}
    (hold : ∀ s, Kept cfg s → ∀ e ∈ (rb s).buffer, e.id = k →
      ∃ e' ∈ entries s, e'.id = k ∧ e'.measurements = e.measurements)
    (hspares : ∀ s, Kept cfg s → (k ∈ ids (entries s) → k ∈ ids (rb s).buffer) →
      ∀ call ∈ deleted s, ¬ErasesId call k)
    (hnext : ∀ s, Guest cfg files calls k (next s)) :
    Guest cfg files calls k (.act (fun s => { s with buffer := rb s })
      (fun s => callbacks cfg (deleted s) (next s))) := by
  rintro s ⟨hwf, -, -⟩
  have hback : k ∈ ids (rb s).buffer → k ∈ ids (entries s) := by
    intro hk
    obtain ⟨e, he, hid⟩ := mem_ids.mp hk
    obtain ⟨e', he', hid', -⟩ := hold s hwf e he hid
    exact mem_ids.mpr ⟨e', he', hid'⟩
  by_cases hstays : k ∈ ids (entries s) → k ∈ ids (rb s).buffer
  · refine .inl ⟨⟨⟨hback, hstays⟩, fun ref => ⟨?_, ?_⟩, fun _ => Iff.rfl⟩,
      callbacks_guest (hspares s hwf hstays) (hnext s)⟩
    · rintro ⟨e, he, hid, href⟩
      obtain ⟨e', he', hid', hms⟩ := hold s hwf e he hid
      exact ⟨e', he', hid', hms ▸ href⟩
    · rintro ⟨e, he, hid, href⟩
      obtain ⟨e₁, he₁, hid₁⟩ := mem_ids.mp (hstays (mem_ids.mpr ⟨e, he, hid⟩))
      obtain ⟨e₂, he₂, hid₂, hms⟩ := hold s hwf e₁ he₁ hid₁
      rw [measurements_of_id hwf.order.nodup he he₂ (hid.trans hid₂.symm), hms] at href
      exact ⟨e₁, he₁, hid₁, href⟩
  · obtain ⟨hstored, hgone⟩ := Classical.not_imp.mp hstays
    exact .inr ⟨hstored, hgone, callbacks_neverStores (hnext s).neverInstalls⟩

theorem push_guest {id : Int} (hid : k ≠ id) (ms : List Measurement)
    {next : Except Exception Int → Program}
    (hnext : ∀ result, Guest cfg files calls k (next result)) :
    Guest cfg files calls k (push cfg clock id ms next) := by
  refine removal_guest (fun s hwf e he hek => ?_) (fun s hwf => push_spares hwf hid ms)
    (fun _ => hnext _)
  rcases mem_push hwf he with hold | ⟨hsame, -⟩
  · exact ⟨e, hold, hek, rfl⟩
  · exact absurd (hek.symm.trans hsame) hid

theorem delete_guest (id : Int) : Guest cfg files calls k (Locks.delete cfg id) := by
  refine removal_guest (fun s hwf e he hek => ?_) (fun s hwf => delete_spares hwf id)
    (fun _ => trivial)
  exact ⟨e, (deleteLoop_sublist cfg.ring id s.buffer.buffer).subset he, hek, rfl⟩

theorem visits_guest (mode : LockOrder.Mode) (visits : List Visit) :
    Guest cfg files calls k (visits.foldr Visit.program (.release .buffer mode .done)) := by
  induction visits with
  | nil => trivial
  | cons visit visits ih =>
    cases visit with
    | read => exact ih
    | setLocked index locked =>
      intro s _
      refine .inl ⟨⟨?_, fun _ => hasRef_modify_locked, fun _ => Iff.rfl⟩, ih⟩
      exact iff_of_eq (congrArg (k ∈ ·) (ids_modify (entries s) index locked))
    | getReference ref => exact ih

theorem add_guest (clock : Nat → Nat) (h0 : k ≠ 0) {id : Int} (hid : k ≠ id)
    (json : Parsing.JsonParser.Delivery) (access : Nat → FileAccess) :
    Guest cfg files calls k (Locks.add cfg clock id json access) := by
  unfold Locks.add
  cases parse json with
  | error e => trivial
  | ok data =>
    change Guest cfg files calls k (Locks.processRefMapping id _ access [] data)
    refine processRefMapping_induction (P := Guest cfg files calls k) (fun _ _ _ => trivial) ?_ ?_
      access rfl .nil
    · intro d _ ht turn after hafter
      refine underLock_guest (fun _ => rfl) ?_ hafter
      rintro s x rfl
      have hc := ref_case id turn d s.refs
      exact ⟨fun hx => (hc.origin hx).resolve_right hid, fun hx => hc.keeps ht hx (.inl h0)⟩
    · intro ms _
      apply push_guest hid ms
      intro result
      split
      · exact deleteRefMapping_guest (by simp [hid]) trivial
      · trivial

theorem setReference_guest (h0 : k ≠ 0) (ref data dataFormat : Bytes) :
    Guest cfg files calls k
      (underLock .refMapping (fun s => (setReference ref data dataFormat s).2) (fun _ => .done)) := by
  refine underLock_guest (fun s => (setReference_frame ref data dataFormat s).1) ?_
    (fun _ => trivial)
  rintro s x rfl
  refine ⟨?_, fun hx => setReference_keeps ref data dataFormat s hx⟩
  unfold setReference
  cases hf : s.refs.refMapping.find ref with
  | some _ => exact id
  | none =>
    intro hx
    rcases (KeyedTable.mem_emplace (KeyedTable.find_eq_none.mp hf)).mp hx with rfl | hold
    · exact absurd rfl h0
    · exact hold

def Call.addId : Call → Option Int
  | .add id _ _ => some id
  | _ => none

theorem program_guest (clock : Nat → Nat) (h0 : k ≠ 0) {call : Call} (hadd : call.addId ≠ some k)
    (hreset : ∀ reason, call ≠ .reset reason) :
    Guest cfg files calls k (call.program cfg clock) := by
  cases call with
  | add id json access => exact add_guest clock h0 (fun h => hadd (congrArg some h.symm)) json access
  | setReference ref data dataFormat => exact setReference_guest h0 ref data dataFormat
  | reset reason => exact absurd rfl (hreset reason)
  | delete id => exact delete_guest id
  | acknowledgeReset =>
    exact underLock_guest (fun _ => rfl) (fun _ _ _ => Iff.rfl) (fun _ => trivial)
  | acknowledgeOverflow =>
    exact underLock_guest (fun _ => rfl) (fun _ _ _ => Iff.rfl) (fun _ => trivial)
  | iterate mode visits => exact visits_guest mode visits
  | _ => trivial

end QdsBuffer.Concurrent.Locks
