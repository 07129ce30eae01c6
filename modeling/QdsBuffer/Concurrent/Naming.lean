import QdsBuffer.Library.Budget
import QdsBuffer.Concurrent.Origins
import QdsBuffer.DataSource.Correspondence

namespace QdsBuffer.Concurrent.Locks
open DataSource Bytes

-- The REF measurements that the call may process.
def Call.refMeasurements : Call → Nat
  | .add _ json _ =>
    match parse json with
    | .ok data => refCount data
    | .error _ => 0
  | _ => 0

def counter (s : DataSource) : Nat := s.refs.refCounter

def Raises (n : Nat) (p : Program) : Prop := p.Raises counter n

variable {cfg : DataSource.Config} {clock : Nat → Nat} {calls : List Call} {call : Call}
  {held : List (Mutex × LockOrder.Mode)} {f : DataSource → DataSource}

theorem counter_turn {id : Int} {access : FileAccess} {d : Measurement} {r : References}
    {p : Turn × References} (hc : RefCase id access d r p) : p.2.refCounter ≤ r.refCounter + 1 := by
  cases hc with
  | noString => exact Nat.le_succ _
  | bound => exact Nat.le_succ _
  | refused => exact Nat.le_succ _
  | failed => exact Nat.mod_le _ _
  | loaded => exact Nat.mod_le _ _

theorem underLock_raises {m : Mutex} {f : DataSource → DataSource} {next : DataSource → Program}
    {n : Nat} (hf : ∀ s, counter (f s) = counter s) (hnext : ∀ s, Raises n (next s)) :
    Raises n (underLock m f next) :=
  fun s => ⟨n, by rw [hf s], hnext s⟩

theorem counter_deleteRefMapping (id : Int) (clear : Bool) (s : DataSource) :
    counter (DataSource.deleteRefMapping id clear s) = counter s := rfl

theorem callbacks_raises {deleted : List DeleteCall} {next : Program} {n : Nat}
    (hnext : Raises n next) : Raises n (callbacks cfg deleted next) :=
  callbacks_induction (fun _ _ hafter => underLock_raises (fun _ => rfl) (fun _ => hafter))
    (fun id clear _ hafter =>
      underLock_raises (counter_deleteRefMapping id clear) (fun _ => hafter)) hnext

theorem push_raises (id : Int) (ms : List Measurement) {next : Except Exception Int → Program}
    {n : Nat} (hnext : ∀ result, Raises n (next result)) :
    Raises n (push cfg clock id ms next) :=
  fun _ => ⟨n, Nat.le_refl _, callbacks_raises (hnext _)⟩

theorem processRefMapping_raises {id : Int} {next : List Measurement → Program}
    (hnext : ∀ ms n, Raises n (next ms)) (access : Nat → FileAccess)
    (done todo : List Measurement) :
    Raises (refCount todo) (Locks.processRefMapping id next access done todo) := by
  induction todo generalizing access done with
  | nil => exact hnext done _
  | cons d todo ih =>
    unfold Locks.processRefMapping
    split
    · next ht =>
      have hcount : refCount (d :: todo) = refCount todo + 1 := by
        simp [refCount, ht]
      intro s
      have hc := ref_case id (access 0) d s.refs
      have hle := counter_turn hc
      refine ⟨refCount todo, ?_, ?_⟩
      · simp only [counter] at hle ⊢
        omega
      · beta_reduce
        generalize processRef id (access 0) d s.refs = p at hc
        cases hc with
        | noString => trivial
        | refused => trivial
        | failed => trivial
        | bound => exact hnext _ _
        | loaded => exact ih _ _
    · next ht =>
      have hcount : refCount (d :: todo) = refCount todo := by
        simp [refCount, ht]
      rw [hcount]
      exact ih _ _

theorem add_raises (id : Int) (json : Parsing.JsonParser.Delivery) (access : Nat → FileAccess) :
    Raises (Call.add id json access).refMeasurements (add cfg clock id json access) := by
  simp only [add, Call.refMeasurements]
  cases parse json with
  | error e => trivial
  | ok data =>
    change Raises (refCount data) (Locks.processRefMapping id _ access [] data)
    refine processRefMapping_raises (fun ms n => push_raises id ms ?_) access [] data
    intro result
    split
    · exact underLock_raises (counter_deleteRefMapping id false) (fun _ => trivial)
    · trivial

theorem counter_setReference (ref data dataFormat : Bytes) (s : DataSource) :
    counter (setReference ref data dataFormat s).2 = counter s := by
  unfold setReference
  split
  · rfl
  · rfl

theorem Acts.counter_kept (h : Acts cfg clock call held f)
    (hadd : ∀ id json access, call ≠ .add id json access) (s : DataSource) :
    counter (f s) ≤ counter s := by
  cases h with
  | processRef id json access => exact absurd rfl (hadd id json access)
  | setReference ref data dataFormat => exact Nat.le_of_eq (counter_setReference ref data dataFormat s)
  | _ => exact Nat.le_refl _

theorem program_raises (cfg : DataSource.Config) (clock : Nat → Nat) (call : Call) :
    Raises call.refMeasurements (call.program cfg clock) := by
  cases call with
  | add id json access => exact add_raises id json access
  | _ =>
    exact LockOrder.raises_of_every _
      ((program_acts cfg clock _).mono (fun _ _ h => h.counter_kept nofun))

theorem system_counter (cfg : DataSource.Config) (clock : Nat → Nat) (source : DataSource)
    (calls : List Call) (schedule : List Nat) :
    counter (system cfg clock source calls schedule).state ≤
      counter source + (calls.map (·.refMeasurements)).sum := by
  refine LockOrder.run_budget ?_ schedule
  rw [List.forall₂_map_left_iff, List.forall₂_map_right_iff, List.forall₂_same]
  exact fun call _ => program_raises cfg clock call

theorem namesBelow_turn {id : Int} {access : FileAccess} {d : Measurement} {r : References}
    {p : Turn × References} (hc : RefCase id access d r p) (hcount : r.refCounter + 1 < 2 ^ 64)
    (h : r.NamesBelow) : p.2.NamesBelow := by
  have hnext : r.counted.refCounter = r.refCounter + 1 := Nat.mod_eq_of_lt hcount
  cases hc with
  | noString => exact h
  | refused => exact h
  | bound value it hv hf hid =>
    intro x hx n he
    rcases mem_bind.mp hx with ⟨hm, -⟩ | ⟨y, hy, -, rfl⟩
    · exact h x hm n he
    · exact h y hy n he
  | failed =>
    intro x hx n he
    rw [hnext]
    exact Nat.lt_succ_of_lt (h x hx n he)
  | loaded value buffer files hv hf hl =>
    intro x hx n he
    change n < r.counted.refCounter
    rw [hnext]
    rcases mem_loaded hx with hm | rfl
    · exact Nat.lt_succ_of_lt (h x hm n he)
    · rw [generatedRef_inj he]
      exact Nat.lt_succ_self n

-- No SetReference takes a name that ProcessRefMapping generates.
def NoGeneratedNames (calls : List Call) : Prop :=
  ∀ ref data dataFormat, Call.setReference ref data dataFormat ∈ calls → ∀ n, ref ≠ generatedRef n

theorem namesBelow_register {ref data dataFormat : Bytes} {s : DataSource}
    (href : ∀ n, ref ≠ generatedRef n) (h : s.refs.NamesBelow) :
    (setReference ref data dataFormat s).2.refs.NamesBelow := by
  unfold setReference
  cases hf : s.refs.refMapping.find ref with
  | some it => exact h
  | none =>
    intro x hx n he
    rcases (KeyedTable.mem_emplace (KeyedTable.find_eq_none.mp hf)).mp hx with rfl | hold
    · exact absurd he (href n)
    · exact h x hold n he

theorem Acts.namesBelow (hf : Acts cfg clock call held f) (hcall : call ∈ calls)
    (hnames : NoGeneratedNames calls) {s : DataSource} (hcount : counter s + 1 < 2 ^ 64)
    (h : s.refs.NamesBelow) : (f s).refs.NamesBelow := by
  cases hf with
  | processRef id json access turn data d => exact namesBelow_turn (ref_case id turn d s.refs) hcount h
  | callback => exact NamesBelow_mono h (fun x hx => (mem_rows_deleteRefMapping.mp hx).1) rfl
  | rollback => exact NamesBelow_mono h (fun x hx => (mem_rows_deleteRefMapping.mp hx).1) rfl
  | setReference ref data dataFormat =>
    exact namesBelow_register (hnames ref data dataFormat hcall) h
  | _ => exact h

theorem system_namesBelow (cfg : DataSource.Config) (clock : Nat → Nat) (files : Files)
    (hnames : NoGeneratedNames calls)
    (hcount : (calls.map (·.refMeasurements)).sum + 1 < 2 ^ 64) (schedule : List Nat) :
    (system cfg clock (initial files) calls schedule).state.refs.NamesBelow := by
  refine LockOrder.run_state_along (K := fun s => counter s + 1 < 2 ^ 64)
    (I := fun s => s.refs.NamesBelow) ?_ start_acts ?_ ?_
  · rintro held f ⟨call, hcall, hf⟩ s hs hbelow
    exact hf.namesBelow hcall hnames hs hbelow
  · intro n
    have hle := system_counter cfg clock (initial files) calls (schedule.take n)
    have hzero : counter (initial files) = 0 := rfl
    rw [hzero] at hle
    change counter (system cfg clock (initial files) calls (schedule.take n)).state + 1 < 2 ^ 64
    omega
  · exact List.forall_mem_nil _

end QdsBuffer.Concurrent.Locks
