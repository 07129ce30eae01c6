import QdsBuffer.Library.Obligations
import QdsBuffer.Concurrent.Entries
import QdsBuffer.DataSource.Effect

namespace QdsBuffer.Concurrent.Locks
open RingBuffer DataSource

-- An Add of the id with more than one REF measurement: it may fail when some are assigned already.
def ManyRefs (calls : List Call) (id : Int) : Prop :=
  ∃ json access data, Call.add id json access ∈ calls ∧ parse json = .ok data ∧ 1 < refCount data

-- References of the id are assigned although no data set of that id is stored.
def Ownerless (calls : List Call) (id : Int) (s : DataSource) : Prop :=
  id ≠ 0 ∧ ¬ManyRefs calls id ∧ (∃ d ∈ rows s, d.id = id) ∧ id ∉ ids (entries s)

def Kept (cfg : DataSource.Config) (s : DataSource) : Prop := WellFormed cfg.ring s.buffer

def ErasesId (call : DeleteCall) (id : Int) : Prop :=
  call.clear = true ∨ id = (call.entry.map (·.id)).getD 0

variable {cfg : DataSource.Config} {clock : Nat → Nat} {calls : List Call}

def Settles (cfg : DataSource.Config) (calls : List Call) (id : Int) (p : Program) : Prop :=
  p.Settles (Kept cfg) (Ownerless calls) id

def Responsible (cfg : DataSource.Config) (calls : List Call) (p : Program) : Prop :=
  p.Responsible (Kept cfg) (Ownerless calls)

theorem Ownerless.of_frame {id : Int} {s s' : DataSource} (h : Ownerless calls id s')
    (hrows : ∀ d ∈ rows s', d ∈ rows s) (hids : ids (entries s') = ids (entries s)) :
    Ownerless calls id s := by
  obtain ⟨h0, hmany, ⟨d, hd, hid⟩, hnone⟩ := h
  exact ⟨h0, hmany, ⟨d, hrows d hd, hid⟩, hids ▸ hnone⟩

-- A section that touches neither the entries nor, but for removals, the references.
theorem underLock_responsible {m : Mutex} {f : DataSource → DataSource}
    {next : DataSource → Program} (hbuffer : ∀ s, (f s).buffer = s.buffer)
    (hrows : ∀ s, ∀ d ∈ rows (f s), d ∈ rows s) (hnext : ∀ s, Responsible cfg calls (next s)) :
    Responsible cfg calls (underLock m f next) := by
  intro s hs
  refine ⟨?_, ?_, hnext s⟩
  · rwa [Kept, hbuffer s]
  · intro id hid
    exact .inl (hid.of_frame (hrows s) (by rw [entries, hbuffer s]))

theorem deleteRefMapping_responsible (id : Int) (clear : Bool) {next : Program}
    (hnext : Responsible cfg calls next) :
    Responsible cfg calls (deleteRefMapping id clear next) :=
  underLock_responsible (fun _ => rfl) (fun _ _ hd => (mem_rows_deleteRefMapping.mp hd).1)
    (fun _ => hnext)

theorem callbacks_responsible (deleted : List DeleteCall) {next : Program}
    (hnext : Responsible cfg calls next) :
    Responsible cfg calls (callbacks cfg deleted next) :=
  callbacks_induction
    (fun _ _ hafter => underLock_responsible (fun _ => rfl) (fun _ _ hd => hd) (fun _ => hafter))
    (fun id clear _ hafter => deleteRefMapping_responsible id clear hafter) hnext

theorem underLock_settles {m : Mutex} {f : DataSource → DataSource} {next : DataSource → Program}
    {id : Int} (hnext : ∀ s, Ownerless calls id (f s) → Settles cfg calls id (next s)) :
    Settles cfg calls id (underLock m f next) :=
  fun s _ hopen => hnext s hopen

theorem deleteRefMapping_settles {id id' : Int} {clear : Bool} (h : clear = true ∨ id = id')
    (next : Program) : Settles cfg calls id (deleteRefMapping id' clear next) := by
  apply underLock_settles
  rintro s ⟨-, -, ⟨d, hd, hid⟩, -⟩
  exact absurd (h.imp_right hid.trans) (mem_rows_deleteRefMapping.mp hd).2

theorem onDeleteCallback_settles {call : DeleteCall} {id : Int} (h : ErasesId call id)
    (next : Program) : Settles cfg calls id (Locks.onDeleteCallback cfg call next) := by
  unfold ErasesId at h
  unfold Locks.onDeleteCallback
  cases he : call.entry with
  | none =>
    rw [he] at h
    exact deleteRefMapping_settles h next
  | some entry =>
    rw [he] at h
    exact underLock_settles (fun _ _ => deleteRefMapping_settles h next)

theorem onDeleteCallback_passes {call : DeleteCall} {id : Int} {next : Program}
    (h : Settles cfg calls id next) : Settles cfg calls id (Locks.onDeleteCallback cfg call next) := by
  unfold Locks.onDeleteCallback
  cases call.entry with
  | none => exact underLock_settles (fun _ _ => h)
  | some entry => exact underLock_settles (fun _ _ => underLock_settles (fun _ _ => h))

theorem callbacks_passes {deleted : List DeleteCall} {id : Int} {next : Program}
    (h : Settles cfg calls id next) : Settles cfg calls id (callbacks cfg deleted next) := by
  induction deleted with
  | nil => exact h
  | cons call deleted ih => exact onDeleteCallback_passes ih

theorem callbacks_settles {deleted : List DeleteCall} {id : Int}
    (h : ∃ call ∈ deleted, ErasesId call id) (next : Program) :
    Settles cfg calls id (callbacks cfg deleted next) := by
  obtain ⟨call, hcall, herases⟩ := h
  induction deleted with
  | nil => cases hcall
  | cons first deleted ih =>
    rcases List.mem_cons.mp hcall with rfl | hcall
    · exact onDeleteCallback_settles herases _
    · exact onDeleteCallback_passes (ih hcall)

-- Every id that leaves the buffer is passed to a callback that will remove its references.
def Announces (b b' : List BufferEntry) (deleted : List DeleteCall) : Prop :=
  ∀ id ∈ ids b, id ∉ ids b' → ∃ call ∈ deleted, ErasesId call id

theorem Announces.settles {s : DataSource} {rb : RingBuffer} {deleted : List DeleteCall}
    (h : Announces (entries s) rb.buffer deleted) {id : Int}
    (hopen : Ownerless calls id { s with buffer := rb }) (next : Program) :
    Ownerless calls id s ∨ Settles cfg calls id (callbacks cfg deleted next) := by
  obtain ⟨h0, hmany, hrow, hnone⟩ := hopen
  by_cases hstored : id ∈ ids (entries s)
  · exact .inr (callbacks_settles (h id hstored hnone) next)
  · exact .inl ⟨h0, hmany, hrow, hstored⟩

theorem evictionCalls_announce (clock : Nat → Nat) {rb : RingBuffer}
    (hwf : WellFormed cfg.ring rb) :
    Announces rb.buffer (remaining cfg.ring rb.buffer) (evictionCalls cfg.ring clock rb) := by
  intro id hid hgone
  by_contra hnone
  simp only [not_exists, not_and] at hnone
  have hkeep := (erases_evictionCalls (d := ⟨id, [], [], []⟩)).mp hnone
  obtain ⟨e, he, rfl⟩ := mem_ids.mp hid
  exact hgone (mem_ids.mpr ⟨e, (mem_remaining hwf.order.nodup).mpr ⟨he, hkeep⟩, rfl⟩)

theorem replacementCalls_announce (cfg : DataSource.Config) (id : Int) {b : List BufferEntry}
    (hn : (ids b).Nodup) :
    Announces b (b.eraseP (hasId id)) (replacementCalls cfg.ring id b) := by
  intro id' hid hgone
  obtain ⟨e, he, rfl⟩ := mem_ids.mp hid
  have hsame : e.id = id := by
    by_contra hne
    exact hgone (mem_ids.mpr ⟨e, (mem_eraseP_hasId hn).mpr ⟨he, hne⟩, rfl⟩)
  by_contra hnone
  simp only [not_exists, not_and] at hnone
  exact (erases_replacementCalls (d := ⟨e.id, [], [], []⟩)).mp hnone (hsame ▸ hid) hsame

theorem Announces.append {b b' b'' : List BufferEntry} {deleted deleted' : List DeleteCall}
    (h : Announces b b' deleted) (h' : Announces b' b'' deleted') :
    Announces b b'' (deleted ++ deleted') := by
  intro id hid hgone
  by_cases hmid : id ∈ ids b'
  · obtain ⟨call, hcall, herases⟩ := h' id hmid hgone
    exact ⟨call, List.mem_append_right _ hcall, herases⟩
  · obtain ⟨call, hcall, herases⟩ := h id hid hmid
    exact ⟨call, List.mem_append_left _ hcall, herases⟩

theorem delete_announces {rb : RingBuffer} (hwf : WellFormed cfg.ring rb) (id : Int) :
    Announces rb.buffer (RingBuffer.delete cfg.ring id rb).1.buffer
      (RingBuffer.delete cfg.ring id rb).2 := by
  simp only [RingBuffer.delete, deleteLoop_eq id hwf.order]
  exact replacementCalls_announce cfg id hwf.order.nodup

theorem reset_announces (cfg : DataSource.Config) (clock : Nat → Nat) (reason : ResetReason)
    (rb : RingBuffer) :
    Announces rb.buffer (RingBuffer.reset cfg.ring clock reason rb).2.1.buffer
      (RingBuffer.reset cfg.ring clock reason rb).2.2 := by
  intro id hid _
  obtain ⟨e, he, -⟩ := mem_ids.mp hid
  obtain ⟨info, -, hreset⟩ := reset_of_nonempty cfg.ring clock reason (List.ne_nil_of_mem he)
  rw [hreset]
  exact ⟨⟨none, true, 0⟩, List.mem_cons_self, .inl rfl⟩

theorem push_announces (clock : Nat → Nat) {rb : RingBuffer} (hwf : WellFormed cfg.ring rb)
    (id : Int) (ms : List Measurement) :
    Announces rb.buffer (RingBuffer.push cfg.ring clock id ms rb).state.buffer
      (RingBuffer.push cfg.ring clock id ms rb).calls := by
  have hevicted := evictionCalls_announce clock hwf
  by_cases hr : Refuses cfg.ring rb.buffer id
  · obtain ⟨-, hb, hc⟩ := push_of_refuses clock ms hwf hr
    rwa [hb, hc]
  · obtain ⟨n, t, -, hp⟩ := push_of_accepts clock ms hwf hr
    have hreplaced := replacementCalls_announce cfg id
      (hwf.order.sublist (remaining_sublist cfg.ring rb.buffer)).nodup
    rw [hp]
    intro id' hid hgone
    rw [ids_append, List.mem_append, not_or] at hgone
    exact hevicted.append hreplaced id' hid hgone.1

theorem push_responsible (clock : Nat → Nat) (id : Int) (ms : List Measurement)
    {next : Except Exception Int → Program} (hnext : ∀ result, Responsible cfg calls (next result)) :
    Responsible cfg calls (push cfg clock id ms next) := by
  intro s hs
  refine ⟨push_wellFormed hs, ?_, callbacks_responsible _ (hnext _)⟩
  exact fun id' hopen => (push_announces clock hs id ms).settles hopen _

-- A data set that is stored needs no further care; one that is refused is rolled back.
theorem push_settles (clock : Nat → Nat) (id : Int) (ms : List Measurement)
    {next : Except Exception Int → Program}
    (hnext : ∀ result, failed result = true → Settles cfg calls id (next result)) :
    Settles cfg calls id (push cfg clock id ms next) := by
  intro s hs hopen
  by_cases hr : Refuses cfg.ring (entries s) id
  · exact callbacks_passes (hnext _ (failed_of_refused (push_of_refuses clock ms hs hr).1))
  · obtain ⟨n, t, -, hp⟩ := push_of_accepts clock ms hs hr
    have hnone := hopen.2.2.2
    simp only [entries, hp, ids_append, ids_cons, List.mem_append] at hnone
    exact absurd (.inr List.mem_cons_self) hnone

theorem processRefMapping_other {id : Int} {next : List Measurement → Program}
    {access : Nat → FileAccess} {done todo : List Measurement} (h : refCount todo = 0) :
    Locks.processRefMapping id next access done todo = next (done ++ todo) := by
  induction todo generalizing access done with
  | nil => rw [List.append_nil]; rfl
  | cons d todo ih =>
    simp only [refCount, List.countP_cons, Nat.add_eq_zero_iff] at h
    have ht : d.type ≠ .ref := by simpa using h.2
    unfold Locks.processRefMapping
    rw [if_neg ht, ih h.1, List.append_assoc]
    rfl

theorem processRefMapping_responsible {id : Int} {next : List Measurement → Program}
    (hnext : ∀ ms, Responsible cfg calls (next ms))
    (hsettles : ∀ ms, Settles cfg calls id (next ms)) {todo : List Measurement}
    (hmany : ManyRefs calls id ∨ refCount todo ≤ 1) (access : Nat → FileAccess)
    (done : List Measurement) :
    Responsible cfg calls (Locks.processRefMapping id next access done todo) := by
  induction todo generalizing access done with
  | nil => exact hnext done
  | cons d todo ih =>
    have hrest : ManyRefs calls id ∨ refCount todo ≤ 1 := by
      refine hmany.imp_right (fun h => ?_)
      simp only [refCount, List.countP_cons] at h ⊢
      omega
    unfold Locks.processRefMapping
    split
    · next ht =>
      have hlast : ManyRefs calls id ∨ refCount todo = 0 := by
        refine hmany.imp_right (fun h => ?_)
        simp only [refCount, List.countP_cons, ht] at h ⊢
        simpa using h
      intro s hs
      have hc := ref_case id (access 0) d s.refs
      have horigin := fun x => hc.origin (x := x)
      beta_reduce
      generalize processRef id (access 0) d s.refs = p at hc horigin
      -- a reference is either as before or now that of this Add, which goes on
      have hopens : ∀ (rest : Program), (ManyRefs calls id ∨ Settles cfg calls id rest) →
          ∀ id', Ownerless calls id' { s with refs := p.2 } →
            Ownerless calls id' s ∨ Settles cfg calls id' rest := by
        intro rest hrest' id' hopen
        obtain ⟨h0, hnot, ⟨x, hx, hid⟩, hnone⟩ := hopen
        rcases horigin x hx with hold | hnew
        · exact .inl ⟨h0, hnot, ⟨x, hold, hid⟩, hnone⟩
        · have hsame : id = id' := hnew.symm.trans hid
          subst hsame
          exact hrest'.elim (fun h => absurd h hnot) .inr
      cases hc with
      | noString => exact ⟨hs, fun _ hopen => .inl hopen, trivial⟩
      | refused => exact ⟨hs, fun _ hopen => .inl hopen, trivial⟩
      | failed => exact ⟨hs, fun _ hopen => .inl (hopen.of_frame (fun _ hx => hx) rfl), trivial⟩
      | bound => exact ⟨hs, hopens _ (.inr (hsettles _)), hnext _⟩
      | loaded =>
        refine ⟨hs, hopens _ (hlast.imp_right (fun h => ?_)), ih hrest _ _⟩
        change Settles cfg calls id (Locks.processRefMapping id next _ _ todo)
        rw [processRefMapping_other h]
        exact hsettles _
    · exact ih hrest _ _

theorem add_responsible (clock : Nat → Nat) {id : Int} {json : Parsing.JsonParser.Delivery}
    {access : Nat → FileAccess} (hcall : Call.add id json access ∈ calls) :
    Responsible cfg calls (Locks.add cfg clock id json access) := by
  unfold Locks.add
  cases hdata : parse json with
  | error e => trivial
  | ok data =>
    change Responsible cfg calls (Locks.processRefMapping id _ access [] data)
    apply processRefMapping_responsible
    · intro ms
      apply push_responsible
      intro result
      cases failed result with
      | true => exact deleteRefMapping_responsible id false trivial
      | false => trivial
    · intro ms
      apply push_settles
      intro result hfailed
      rw [hfailed]
      exact deleteRefMapping_settles (.inr rfl) _
    · by_cases hone : refCount data ≤ 1
      · exact .inr hone
      · exact .inl ⟨json, access, data, hcall, hdata, Nat.lt_of_not_le hone⟩

theorem delete_responsible (id : Int) : Responsible cfg calls (Locks.delete cfg id) := by
  intro s hs
  refine ⟨?_, ?_, callbacks_responsible _ trivial⟩
  · exact @step_wellFormed cfg.ring (fun _ => 0) s.buffer (.delete id) hs
  · exact fun id' hopen => (delete_announces hs id).settles hopen _

theorem reset_responsible (clock : Nat → Nat) (reason : ResetReason) :
    Responsible cfg calls (Locks.reset cfg clock reason) := by
  intro s hs
  refine ⟨step_wellFormed s.buffer (.reset reason) hs, ?_, callbacks_responsible _ ?_⟩
  · exact fun id' hopen => (reset_announces cfg clock reason s.buffer).settles hopen _
  · intro s' hs'
    exact ⟨hs', fun _ hopen => .inl (hopen.of_frame (fun _ hx => hx) rfl), trivial⟩

theorem visits_responsible (mode : LockOrder.Mode) (visits : List Visit) :
    Responsible cfg calls (visits.foldr Visit.program (.release .buffer mode .done)) := by
  induction visits with
  | nil => trivial
  | cons visit visits ih =>
    cases visit with
    | read => exact ih
    | setLocked index locked =>
      intro s hs
      refine ⟨@step_wellFormed cfg.ring (fun _ => 0) s.buffer (.setLocked index locked) hs, ?_, ih⟩
      exact fun _ hopen => .inl (hopen.of_frame (fun _ hx => hx) (ids_modify _ _ _))
    | getReference ref => exact ih

theorem setReference_responsible (ref data dataFormat : Bytes) :
    Responsible cfg calls
      (underLock .refMapping (fun s => (setReference ref data dataFormat s).2) (fun _ => .done)) := by
  intro s hs
  have hbuffer := (setReference_frame ref data dataFormat s).1
  refine ⟨?_, ?_, trivial⟩
  · rwa [Kept, hbuffer]
  · rintro id ⟨h0, hnot, ⟨x, hx, hid⟩, hnone⟩
    beta_reduce at hx hnone
    rw [entries, hbuffer] at hnone
    refine .inl ⟨h0, hnot, ⟨x, ?_, hid⟩, hnone⟩
    unfold setReference at hx
    cases hf : s.refs.refMapping.find ref with
    | some _ => simpa only [hf] using hx
    | none =>
      simp only [hf] at hx
      rcases (KeyedTable.mem_emplace (KeyedTable.find_eq_none.mp hf)).mp hx with rfl | hold
      · exact absurd hid.symm h0
      · exact hold

theorem program_responsible (clock : Nat → Nat) {call : Call} (hcall : call ∈ calls) :
    Responsible cfg calls (call.program cfg clock) := by
  cases call with
  | add id json access => exact add_responsible clock hcall
  | setReference ref data dataFormat =>
    exact setReference_responsible ref data dataFormat
  | reset reason => exact reset_responsible clock reason
  | delete id => exact delete_responsible id
  | acknowledgeReset =>
    exact underLock_responsible (fun _ => rfl) (fun _ _ hd => hd) (fun _ => trivial)
  | acknowledgeOverflow =>
    exact underLock_responsible (fun _ => rfl) (fun _ _ hd => hd) (fun _ => trivial)
  | iterate mode visits => exact visits_responsible mode visits
  | _ => trivial

theorem system_owed (cfg : DataSource.Config) (clock : Nat → Nat) (files : Files)
    (calls : List Call) (schedule : List Nat) :
    LockOrder.Owed (Kept cfg) (Ownerless calls)
      (system cfg clock (initial files) calls schedule) := by
  apply LockOrder.run_owed
  apply LockOrder.start_owed
  · exact initial_wellFormed
  · intro p hp
    obtain ⟨call, hcall, rfl⟩ := List.mem_map.mp hp
    exact program_responsible clock hcall
  · rintro id ⟨-, -, ⟨d, hd, -⟩, -⟩
    cases hd

-- What is not owned yet is the business of one running call, whatever the others do.
theorem references_owned (cfg : DataSource.Config) (clock : Nat → Nat) (files : Files)
    (calls : List Call) (schedule : List Nat) :
    let sys := system cfg clock (initial files) calls schedule
    ∀ d ∈ rows sys.state, d.id ≠ 0 →
      (∃ e ∈ entries sys.state, e.id = d.id) ∨
        (∃ json access data, Call.add d.id json access ∈ calls ∧ parse json = .ok data ∧
          1 < refCount data) ∨
        ∃ t ∈ sys.threads, t.rest ≠ .done ∧ Settles cfg calls d.id t.rest := by
  intro sys d hd h0
  by_contra hnone
  rw [not_or, not_or] at hnone
  obtain ⟨hstored, hmany, hrunning⟩ := hnone
  have hopen : Ownerless calls d.id sys.state :=
    ⟨h0, hmany, ⟨d, hd, rfl⟩, fun hid => hstored (mem_ids.mp hid)⟩
  obtain ⟨t, ht, hsettles⟩ := (system_owed cfg clock files calls schedule).owed d.id hopen
  refine hrunning ⟨t, ht, ?_, hsettles⟩
  intro hdone
  rwa [hdone] at hsettles

theorem references_owned_loaded :
    let cfg : DataSource.Config := ⟨2, 0, true, 1, 1⟩
    let file := Bytes.ascii "f"
    let files : Files := fun path => if path = file then some [65] else none
    let calls : List Call := [.add 1 (refDocument file) (fun _ => ⟨true, true, true, true⟩)]
    ∃ n, let sys := system cfg id (initial files) calls (List.replicate n 0)
      (∃ e ∈ entries sys.state, e.id = 1) ∨
        (∃ json access data, Call.add 1 json access ∈ calls ∧ parse json = .ok data ∧
          1 < refCount data) ∨
        ∃ t ∈ sys.threads, t.rest ≠ .done ∧ Settles cfg calls 1 t.rest := by
  intro cfg file files calls
  obtain ⟨n, hn⟩ := program_alone cfg id
    (.add 1 (refDocument file) (fun _ => ⟨true, true, true, true⟩)) (initial files)
  refine ⟨n, references_owned cfg id files calls (List.replicate n 0)
    ⟨1, generatedRef 0, formatOf file, [65]⟩ ?_ (by decide)⟩
  have hstate : system cfg id (initial files) calls (List.replicate n 0) = _ := hn
  rw [hstate]
  exact List.mem_cons_self

end QdsBuffer.Concurrent.Locks
