import QdsBuffer.Library.LockSets
import QdsBuffer.Concurrent.Locks

namespace QdsBuffer.Concurrent.Locks
open LockOrder

-- What ProcessRefMapping may make of a measurement.
def Replaced (d d' : Measurement) : Prop :=
  d' = d ∨ d.type = .ref ∧ ∃ n, d' = { d with value := .string (DataSource.generatedRef n) }

def Replacement : List Measurement → List Measurement → Prop := List.Forall₂ Replaced

theorem replaced_refl (data : List Measurement) : Replacement data data :=
  List.forall₂_same.mpr (fun _ _ => .inl rfl)

-- Every change of the shared state that a call may make, beside the locks it then holds.
inductive Acts (cfg : DataSource.Config) (clock : Nat → Nat) :
    Call → List (Mutex × Mode) → (DataSource → DataSource) → Prop
  | processRef (id : Int) (json : Parsing.JsonParser.Delivery) (access : Nat → FileAccess)
      (turn : FileAccess) (data : List Measurement) (d : Measurement)
      (hdata : DataSource.parse json = .ok data) (hd : d ∈ data) (ht : d.type = .ref) :
      Acts cfg clock (.add id json access) [(.refMapping, .exclusive)]
        (fun s => { s with refs := (DataSource.processRef id turn d s.refs).2 })
  | push (id : Int) (json : Parsing.JsonParser.Delivery) (access : Nat → FileAccess)
      (data measurement : List Measurement) (hdata : DataSource.parse json = .ok data)
      (hm : Replacement data measurement) :
      Acts cfg clock (.add id json access) [(.buffer, .exclusive)]
        (fun s => { s with buffer := (RingBuffer.push cfg.ring clock id measurement s.buffer).state })
  | delete (id : Int) :
      Acts cfg clock (.delete id) [(.buffer, .exclusive)]
        (fun s => { s with buffer := (RingBuffer.delete cfg.ring id s.buffer).1 })
  | reset (reason : ResetReason) :
      Acts cfg clock (.reset reason) [(.buffer, .exclusive), (.resetInformationList, .exclusive)]
        (fun s => { s with buffer := (RingBuffer.reset cfg.ring clock reason s.buffer).2.1 })
  | logReset (reason : ResetReason) (info : ResetInformation) :
      Acts cfg clock (.reset reason) [(.resetInformationList, .exclusive)]
        (fun s => { s with
          resetInformationList := DataSource.logReset cfg info s.resetInformationList })
  | logDeletion (call : Call) (held : List (Mutex × Mode)) (info : DeletionInformation) :
      Acts cfg clock call ((.deletionInformationList, .exclusive) :: held)
        (fun s => { s with
          deletionInformationList := DataSource.logDeletion cfg info s.deletionInformationList })
  | callback (call : Call) (held : List (Mutex × Mode)) (id : Int) (clear : Bool)
      (hbuffer : (.buffer, .exclusive) ∈ held) :
      Acts cfg clock call ((.refMapping, .exclusive) :: held) (DataSource.deleteRefMapping id clear)
  | rollback (id : Int) (json : Parsing.JsonParser.Delivery) (access : Nat → FileAccess) :
      Acts cfg clock (.add id json access) [(.refMapping, .exclusive)]
        (DataSource.deleteRefMapping id false)
  | setReference (ref data dataFormat : Bytes) :
      Acts cfg clock (.setReference ref data dataFormat) [(.refMapping, .exclusive)]
        (fun s => (DataSource.setReference ref data dataFormat s).2)
  | acknowledgeReset :
      Acts cfg clock .acknowledgeReset [(.resetInformationList, .exclusive)]
        (fun s => (DataSource.acknowledgeReset s).2)
  | acknowledgeOverflow :
      Acts cfg clock .acknowledgeOverflow [(.deletionInformationList, .exclusive)]
        (fun s => (DataSource.acknowledgeOverflow s).2)
  | setLocked (mode : Mode) (visits : List Visit) (index : Nat) (locked : Bool)
      (hv : Visit.setLocked index locked ∈ visits) :
      Acts cfg clock (.iterate mode visits) [(.buffer, mode)]
        (fun s => { s with buffer := s.buffer.setLocked index locked })

variable {A : List (Mutex × Mode) → (DataSource → DataSource) → Prop}
  {held : List (Mutex × Mode)}

theorem underLock_every {m : Mutex} {f : DataSource → DataSource} {next : DataSource → Program}
    (hf : A ((m, .exclusive) :: held) f) (hnext : ∀ s, (next s).Every A held) :
    (underLock m f next).Every A held :=
  ⟨hf, fun s => release_every (hnext s)⟩

theorem underSharedLock_every {m : Mutex} {next : Program} (hnext : next.Every A held) :
    (underSharedLock m next).Every A held :=
  release_every hnext

-- What holds of the rest holds of the callbacks before it, if both of their sections keep it.
theorem callbacks_induction {P : Program → Prop} {cfg : DataSource.Config} {calls : List DeleteCall}
    {next : Program}
    (hlog : ∀ info after, P after → P (underLock .deletionInformationList (fun s => { s with
      deletionInformationList := DataSource.logDeletion cfg info s.deletionInformationList })
      (fun _ => after)))
    (hdel : ∀ id clear after, P after → P (deleteRefMapping id clear after)) (hnext : P next) :
    P (callbacks cfg calls next) := by
  induction calls with
  | nil => exact hnext
  | cons call calls ih =>
    change P (onDeleteCallback cfg call (callbacks cfg calls next))
    unfold onDeleteCallback
    cases call.entry with
    | none => exact hdel _ _ _ ih
    | some entry => exact hlog _ _ (hdel _ _ _ ih)

theorem processRefMapping_induction {P : Program → Prop} {id : Int}
    {next : List Measurement → Program} {data : List Measurement}
    (hfail : ∀ d ∈ data, d.type = .ref → P .done)
    (hturn : ∀ d ∈ data, d.type = .ref → ∀ access after, (∀ s, P (after s)) →
      P (underLock .refMapping
        (fun s => { s with refs := (DataSource.processRef id access d s.refs).2 }) after))
    (hnext : ∀ measurement, Replacement data measurement → P (next measurement))
    (access : Nat → FileAccess) {before done todo : List Measurement} (hdata : data = before ++ todo)
    (hdone : Replacement before done) : P (processRefMapping id next access done todo) := by
  induction todo generalizing access before done with
  | nil =>
    rw [List.append_nil] at hdata
    exact hnext done (hdata ▸ hdone)
  | cons d todo ih =>
    have hmore : ∀ d', Replaced d d' → ∀ access',
        P (processRefMapping id next access' (done ++ [d']) todo) := by
      intro d' hd access'
      have hsplit : data = (before ++ [d]) ++ todo := by rw [hdata, List.append_assoc]; rfl
      exact ih access' hsplit (List.rel_append hdone (.cons hd .nil))
    unfold processRefMapping
    split
    · next ht =>
      have hd : d ∈ data := by simp [hdata]
      apply hturn d hd ht
      intro s
      have hc := DataSource.ref_case id (access 0) d s.refs
      generalize DataSource.processRef id (access 0) d s.refs = p at hc
      cases hc with
      | noString => exact hfail d hd ht
      | bound =>
        refine hnext _ ?_
        rw [hdata]
        exact List.rel_append hdone (replaced_refl _)
      | refused => exact hfail d hd ht
      | failed => exact hfail d hd ht
      | loaded => exact hmore _ (.inr ⟨ht, _, rfl⟩) _
    · exact hmore d (.inl rfl) _

theorem callbacks_every {cfg : DataSource.Config} {calls : List DeleteCall} {next : Program}
    (hlog : ∀ info, A ((.deletionInformationList, .exclusive) :: held) (fun s => { s with
      deletionInformationList := DataSource.logDeletion cfg info s.deletionInformationList }))
    (hdel : ∀ id clear, A ((.refMapping, .exclusive) :: held) (DataSource.deleteRefMapping id clear))
    (hnext : next.Every A held) : (callbacks cfg calls next).Every A held :=
  callbacks_induction (P := fun p => p.Every A held)
    (fun info _ hafter => underLock_every (hlog info) (fun _ => hafter))
    (fun id clear _ hafter => underLock_every (hdel id clear) (fun _ => hafter)) hnext

theorem processRefMapping_every {id : Int} {next : List Measurement → Program}
    {data : List Measurement}
    (hturn : ∀ d ∈ data, d.type = .ref → ∀ access, A [(.refMapping, .exclusive)]
      (fun s => { s with refs := (DataSource.processRef id access d s.refs).2 }))
    (hnext : ∀ measurement, Replacement data measurement → (next measurement).Every A [])
    (access : Nat → FileAccess) : (processRefMapping id next access [] data).Every A [] :=
  processRefMapping_induction (P := fun p => p.Every A []) (fun _ _ _ => trivial)
    (fun d hd ht turn _ hafter => underLock_every (hturn d hd ht turn) hafter) hnext access rfl .nil

theorem visits_every {mode : Mode} {visits : List Visit}
    (hset : ∀ index locked, Visit.setLocked index locked ∈ visits → A [(.buffer, mode)]
      (fun s => { s with buffer := s.buffer.setLocked index locked })) :
    (iterate mode visits).Every A [] := by
  change (visits.foldr Visit.program (.release .buffer mode .done)).Every A [(.buffer, mode)]
  induction visits with
  | nil => trivial
  | cons visit visits ih =>
    have hrest := ih (fun index locked hv => hset index locked (List.mem_cons_of_mem visit hv))
    cases visit with
    | read => exact hrest
    | setLocked index locked => exact ⟨hset index locked List.mem_cons_self, fun _ => hrest⟩
    | getReference ref => exact underSharedLock_every hrest

theorem add_acts (cfg : DataSource.Config) (clock : Nat → Nat) (id : Int)
    (json : Parsing.JsonParser.Delivery) (access : Nat → FileAccess) :
    (add cfg clock id json access).Every (Acts cfg clock (.add id json access)) [] := by
  apply release_every
  cases hdata : DataSource.parse json with
  | error e => trivial
  | ok data =>
    apply processRefMapping_every (fun d hd ht turn => .processRef id json access turn data d hdata hd ht)
      _ access
    intro measurement hm
    refine ⟨.push id json access data measurement hdata hm, fun s => ?_⟩
    apply callbacks_every (.logDeletion _ _) (fun _ _ => .callback _ _ _ _ List.mem_cons_self)
    apply release_every
    beta_reduce
    split
    · exact underLock_every (.rollback id json access) (fun _ => trivial)
    · trivial

theorem delete_acts (cfg : DataSource.Config) (clock : Nat → Nat) (id : Int) :
    (delete cfg id).Every (Acts cfg clock (.delete id)) [] := by
  refine ⟨.delete id, fun s => ?_⟩
  exact callbacks_every (.logDeletion _ _) (fun _ _ => .callback _ _ _ _ List.mem_cons_self) trivial

theorem reset_acts (cfg : DataSource.Config) (clock : Nat → Nat) (reason : ResetReason) :
    (reset cfg clock reason).Every (Acts cfg clock (.reset reason)) [] := by
  refine ⟨.reset reason, fun s => ?_⟩
  apply callbacks_every (.logDeletion _ _) (fun _ _ => .callback _ _ _ _ List.mem_cons_self)
  apply release_every
  exact ⟨.logReset reason _, fun _ => trivial⟩

theorem program_acts (cfg : DataSource.Config) (clock : Nat → Nat) (call : Call) :
    (call.program cfg clock).Every (Acts cfg clock call) [] := by
  cases call with
  | add id json access => exact add_acts cfg clock id json access
  | setReference ref data dataFormat =>
    exact underLock_every (.setReference ref data dataFormat) (fun _ => trivial)
  | reset reason => exact reset_acts cfg clock reason
  | delete id => exact delete_acts cfg clock id
  | isReset => exact underSharedLock_every trivial
  | acknowledgeReset => exact underLock_every .acknowledgeReset (fun _ => trivial)
  | isOverflown => exact underSharedLock_every trivial
  | acknowledgeOverflow => exact underLock_every .acknowledgeOverflow (fun _ => trivial)
  | getReference ref => exact underSharedLock_every trivial
  | getSize => exact underSharedLock_every trivial
  | getLastId => exact underSharedLock_every trivial
  | iterate mode visits => exact visits_every (.setLocked mode visits)

def system (cfg : DataSource.Config) (clock : Nat → Nat) (source : DataSource) (calls : List Call)
    (schedule : List Nat) : LockOrder.System Mutex DataSource :=
  Runs.run LockOrder.step (LockOrder.start source (calls.map (·.program cfg clock))) schedule

variable {cfg : DataSource.Config} {clock : Nat → Nat} {source : DataSource} {calls : List Call}

theorem start_acts : ∀ t ∈ (LockOrder.start source (calls.map (·.program cfg clock))).threads,
    t.Every (fun held f => ∃ call ∈ calls, Acts cfg clock call held f) := by
  apply start_every
  intro p hp
  obtain ⟨call, hcall, rfl⟩ := List.mem_map.mp hp
  exact (program_acts cfg clock call).mono (fun _ _ h => ⟨call, hcall, h⟩)

-- What every change by one of the calls keeps holds in every interleaving of them.
theorem system_invariant {I : DataSource → Prop}
    (hkeep : ∀ call ∈ calls, ∀ held f, Acts cfg clock call held f → ∀ s, I s → I (f s))
    (hsource : I source) (schedule : List Nat) :
    I (system cfg clock source calls schedule).state := by
  refine run_state ?_ schedule start_acts hsource
  rintro held f ⟨call, hcall, hf⟩
  exact hkeep call hcall held f hf

end QdsBuffer.Concurrent.Locks
