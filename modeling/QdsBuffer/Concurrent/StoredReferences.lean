import QdsBuffer.Concurrent.Tenancy
import QdsBuffer.DataSource.Resolved

namespace QdsBuffer.Concurrent.Locks
open RingBuffer DataSource

-- The value of a REF measurement that the table may hold.
def IsName (calls : List Call) (value : Bytes) : Prop :=
  (∃ data dataFormat, Call.setReference value data dataFormat ∈ calls) ∨ ∃ n, value = generatedRef n

-- ProcessRefMapping stops at a REF measurement that names a reference: none may follow it.
def RefLast (calls : List Call) (data : List Measurement) : Prop :=
  data.Pairwise (fun d d' => (∃ value, refValue d = some value ∧ IsName calls value) → d'.type ≠ .ref)

-- The references of k are those that the measurements name.
def BoundTo (k : Int) (ms : List Measurement) (s : DataSource) : Prop :=
  ∀ ref, ref ∈ refValues ms ↔ HasPair (rows s) k ref

def Host (cfg : DataSource.Config) (files : Files) (calls : List Call) (k : Int) (p : Program)
    (s : DataSource) : Prop :=
  p.Host (tenure cfg files calls k) s

variable {cfg : DataSource.Config} {clock : Nat → Nat} {files : Files} {calls : List Call} {k : Int}

theorem Accounted.isName {r : References} (h : Accounted files calls r) {d : ReferenceData}
    (hd : d ∈ r.refMapping.rows) : IsName calls d.ref := by
  rcases (h.rows d hd).content with hcall | ⟨id, value, n, -, -, -, href⟩
  · exact .inl ⟨_, _, hcall⟩
  · exact .inr ⟨n, href⟩

theorem refValues_last {done todo : List Measurement} {d : Measurement} {value : Bytes}
    (hv : refValue d = some value) (htodo : ∀ d' ∈ todo, d'.type ≠ .ref) :
    refValues (done ++ d :: todo) = refValues done ++ [value] := by
  have hrest : todo.filterMap refValue = [] :=
    List.filterMap_eq_nil_iff.mpr (fun d' hd' => refValue_of_type (htodo d' hd'))
  rw [refValues, List.filterMap_append, List.filterMap_cons_some hv, hrest]
  rfl

theorem BoundTo.last {done todo : List Measurement} {s s' : DataSource} (h : BoundTo k done s)
    {d : Measurement} {value : Bytes} (hv : refValue d = some value)
    (htodo : ∀ d' ∈ todo, d'.type ≠ .ref)
    (hrows : ∀ ref, HasPair (rows s') k ref ↔ HasPair (rows s) k ref ∨ ref = value) :
    BoundTo k (done ++ d :: todo) s' := by
  intro ref
  rw [refValues_last hv htodo, List.mem_append, List.mem_singleton, h ref, hrows ref]

theorem push_host (clock : Nat → Nat) {ms : List Measurement} {s : DataSource}
    (hms : BoundTo k ms s) {next : Except Exception Int → Program}
    (hfail : ∀ result, NeverStores cfg files calls k (next result))
    (hdone : ∀ n, 0 ≤ n → Guest cfg files calls k (next (.ok n))) :
    Host cfg files calls k (push cfg clock k ms next) s := by
  rintro s' ⟨hwf, -, -⟩ hkeeps habsent
  have hrest : k ∉ ids (remaining cfg.ring (entries s')) :=
    mt (fun hk => ((remaining_sublist cfg.ring (entries s')).map _).subset hk) habsent
  by_cases hr : Refuses cfg.ring (entries s') k
  · obtain ⟨-, hb, -⟩ := push_of_refuses clock ms hwf hr
    refine .inl ⟨?_, LockOrder.Prog.NeverInstalls.host ?_ _⟩
    · change k ∉ ids (RingBuffer.push cfg.ring clock k ms s'.buffer).state.buffer
      rwa [hb]
    · exact callbacks_neverStores (hfail _)
  · obtain ⟨n, t, hn, hp⟩ := push_of_accepts clock ms hwf hr
    beta_reduce
    rw [hp]
    refine .inr ⟨?_, ?_, callbacks_guest ?_ (hdone n hn)⟩
    · exact mem_ids.mpr ⟨_, List.mem_append_right _ List.mem_cons_self, rfl⟩
    · intro ref
      refine Iff.trans ?_ ((hms ref).trans (hkeeps.2.2 ref).symm)
      rw [entries, hasRef_append, hasRef_singleton]
      refine ⟨fun h => h.elim (fun hold => ?_) And.right, fun h => .inr ⟨rfl, h⟩⟩
      exact absurd ((List.eraseP_sublist.map _).subset hold.stored) hrest
    · intro call hcall
      rcases List.mem_append.mp hcall with hcall | hcall
      · refine spared_evictionCalls ?_ call hcall
        rintro v hv rfl
        exact habsent (mem_ids.mpr ⟨v, (victim_mem hv).1, rfl⟩)
      · exact spared_replacementCalls (fun hk => absurd hk hrest) call hcall

theorem processRefMapping_host {next : List Measurement → Program}
    (hnext : ∀ ms s, BoundTo k ms s → Host cfg files calls k (next ms) s) (access : Nat → FileAccess)
    {done todo : List Measurement} (hlast : RefLast calls todo) {s : DataSource}
    (hdone : BoundTo k done s) :
    Host cfg files calls k (Locks.processRefMapping k next access done todo) s := by
  induction todo generalizing access done s with
  | nil => exact hnext done s hdone
  | cons d todo ih =>
    obtain ⟨hd, hrest⟩ := List.pairwise_cons.mp hlast
    unfold Locks.processRefMapping
    split
    · next ht =>
      rintro s' ⟨-, haccounted, hbelow⟩ hkeeps habsent
      have hc := ref_case k (access 0) d s'.refs
      have hnow : BoundTo k done s' := fun ref => (hdone ref).trans (hkeeps.2.2 ref).symm
      refine .inl ⟨habsent, ?_⟩
      beta_reduce
      generalize processRef k (access 0) d s'.refs = p at hc
      cases hc with
      | noString => trivial
      | refused => trivial
      | failed => trivial
      | bound value it hv hf hid =>
        obtain ⟨hit, rfl⟩ := KeyedTable.find_eq_some.mp hf
        have hvalue := refValue_string ht hv
        refine hnext _ _ (hnow.last hvalue ?_ (fun _ => hasPair_bind_iff hf))
        exact fun d' hd' => hd d' hd' ⟨_, hvalue, haccounted.isName hit⟩
      | loaded value buffer now hv hf hl =>
        have hvalue : refValue { d with value := .string (generatedRef s'.refs.refCounter) } =
            some (generatedRef s'.refs.refCounter) := refValue_string ht rfl
        refine ih _ hrest (hnow.last hvalue (List.forall_mem_nil _) (fun ref => ?_))
        refine hasPair_loaded_iff.trans (or_congr_right ⟨And.left, ?_⟩)
        rintro rfl
        exact ⟨rfl, fresh_iff.mp hbelow.fresh⟩
    · next ht =>
      refine ih _ hrest ?_
      intro ref
      rw [← hdone ref, refValues, List.filterMap_append, List.filterMap_cons_none (refValue_of_type ht)]
      simp [refValues]

theorem add_host (clock : Nat → Nat) {json : Parsing.JsonParser.Delivery}
    (hlast : ∀ data, parse json = .ok data → RefLast calls data) (access : Nat → FileAccess)
    {s : DataSource} (hs : BoundTo k [] s) :
    Host cfg files calls k (Locks.add cfg clock k json access) s := by
  unfold Locks.add
  cases hdata : parse json with
  | error e => trivial
  | ok data =>
    change Host cfg files calls k (Locks.processRefMapping k _ access [] data) s
    refine processRefMapping_host ?_ access (hlast data hdata) hs
    intro ms s' hms
    refine push_host clock hms ?_ ?_
    · intro result
      split
      · exact underLock_neverStores (fun _ => rfl) (fun _ => trivial)
      · trivial
    · intro n hn
      have hok : failed (.ok n) = false := decide_eq_false (Int.not_lt.mpr hn)
      rw [hok]
      trivial

def addedIds (calls : List Call) : List Int := calls.filterMap Call.addId

theorem only_add (hdistinct : (addedIds calls).Nodup) (k : Int) :
    ∃ i, ∀ (j : Nat) (call : Call), j ≠ i → calls[j]? = some call → call.addId ≠ some k := by
  by_cases h : ∃ (i : Nat) (call : Call), calls[i]? = some call ∧ call.addId = some k
  · obtain ⟨i, call, hi, hk⟩ := h
    refine ⟨i, fun j call' hj hcall hk' => ?_⟩
    obtain ⟨hlt, rfl⟩ := List.getElem?_eq_some_iff.mp hi
    obtain ⟨hlt', rfl⟩ := List.getElem?_eq_some_iff.mp hcall
    have hpair := List.pairwise_filterMap.mp hdistinct
    rw [List.pairwise_iff_getElem] at hpair
    rcases Nat.lt_or_gt_of_ne hj with hlt'' | hgt
    · exact hpair j i hlt' hlt hlt'' k hk' k hk rfl
    · exact hpair i j hlt hlt' hgt k hk k hk' rfl
  · refine ⟨0, fun j call _ hcall hk => h ⟨j, call, hcall, hk⟩⟩

-- What callers observe that share the data source and want its references kept.
structure Orderly (calls : List Call) : Prop where
  nonzero : ∀ id ∈ addedIds calls, id ≠ 0
  distinct : (addedIds calls).Nodup
  noReset : ∀ reason, Call.reset reason ∉ calls
  names : NoGeneratedNames calls
  last : ∀ id json access data, Call.add id json access ∈ calls → parse json = .ok data →
    RefLast calls data
  count : (calls.map (·.refMeasurements)).sum + 1 < 2 ^ 64

theorem Orderly.guest (h : Orderly calls) (cfg : DataSource.Config) (clock : Nat → Nat)
    (files : Files) (h0 : k ≠ 0) {call : Call} (hcall : call ∈ calls) (hk : call.addId ≠ some k) :
    Guest cfg files calls k (call.program cfg clock) := by
  refine program_guest clock h0 hk ?_
  rintro reason rfl
  exact h.noReset reason hcall

theorem Orderly.host (h : Orderly calls) (cfg : DataSource.Config) (clock : Nat → Nat)
    (files : Files) (h0 : k ≠ 0) {call : Call} (hcall : call ∈ calls) :
    Host cfg files calls k (call.program cfg clock) (initial files) := by
  by_cases hk : call.addId = some k
  · cases call with
    | add id json access =>
      cases hk
      refine add_host clock (fun data => h.last k json access data hcall) access ?_
      simp [BoundTo, refValues, HasPair]
    | _ => cases hk
  · exact (h.guest cfg clock files h0 hcall hk).neverInstalls.host _

theorem system_phase (cfg : DataSource.Config) (clock : Nat → Nat) (files : Files)
    (h : Orderly calls) (h0 : k ≠ 0) {i : Nat}
    (honly : ∀ (j : Nat) (call : Call), j ≠ i → calls[j]? = some call → call.addId ≠ some k)
    (schedule : List Nat) :
    LockOrder.Phase (tenure cfg files calls k) i
      (system cfg clock (initial files) calls schedule) := by
  apply LockOrder.run_phase
  · intro n
    exact ⟨system_wellFormed initial_wellFormed calls (schedule.take n),
      system_accounted cfg clock files calls (schedule.take n),
      system_namesBelow cfg clock files h.names h.count (schedule.take n)⟩
  · apply LockOrder.start_phase
    · exact List.not_mem_nil
    · intro p hp
      rw [List.getElem?_map, Option.map_eq_some_iff] at hp
      obtain ⟨call, hi, rfl⟩ := hp
      exact h.host cfg clock files h0 (List.mem_of_getElem? hi)
    · intro j p hj hp
      rw [List.getElem?_map, Option.map_eq_some_iff] at hp
      obtain ⟨call, hi, rfl⟩ := hp
      exact h.guest cfg clock files h0 (List.mem_of_getElem? hi) (honly j call hj hi)

theorem system_nonzero (cfg : DataSource.Config) (clock : Nat → Nat) (files : Files)
    (h : Orderly calls) (schedule : List Nat) :
    ∀ k ∈ ids (entries (system cfg clock (initial files) calls schedule).state), k ≠ 0 := by
  intro k hk
  obtain ⟨e, he, rfl⟩ := mem_ids.mp hk
  obtain ⟨json, access, -, hcall, -, -⟩ := system_delivered cfg clock files calls schedule e he
  exact h.nonzero e.id (List.mem_filterMap.mpr ⟨_, hcall, rfl⟩)

theorem system_good (cfg : DataSource.Config) (clock : Nat → Nat) (files : Files)
    (h : Orderly calls) (schedule : List Nat) :
    let s := (system cfg clock (initial files) calls schedule).state
    ∀ k ∈ ids (entries s), ∀ ref, HasRef (entries s) k ref ↔ HasPair (rows s) k ref := by
  intro s k hk
  obtain ⟨i, honly⟩ := only_add h.distinct k
  have h0 := system_nonzero cfg clock files h schedule k hk
  exact (system_phase cfg clock files h h0 honly schedule).good hk

theorem stored_references_exact (cfg : DataSource.Config) (clock : Nat → Nat) (files : Files)
    (calls : List Call) (h : Orderly calls) (schedule : List Nat) :
    let s := (system cfg clock (initial files) calls schedule).state
    ∀ e ∈ entries s, ∀ ref,
      ref ∈ refValues e.measurements ↔ ∃ d, getReference ref s = .ok d ∧ d.id = e.id := by
  intro s e he ref
  have hgood := system_good cfg clock files h schedule e.id (mem_ids.mpr ⟨e, he, rfl⟩) ref
  constructor
  · intro href
    obtain ⟨d, hd, hid, hkey⟩ := hgood.mp ⟨e, he, rfl, href⟩
    exact ⟨d, getReference_iff.mpr ⟨hd, hkey⟩, hid⟩
  · rintro ⟨d, hget, hid⟩
    obtain ⟨hd, hkey⟩ := getReference_iff.mp hget
    obtain ⟨e', he', hid', href⟩ := hgood.mpr ⟨d, hd, hid, hkey⟩
    have hwf : WellFormed cfg.ring s.buffer := system_wellFormed initial_wellFormed calls schedule
    rwa [measurements_of_id hwf.order.nodup he he' hid'.symm]

-- A registered reference and a file, and a Delete beside them.
def registerAndLoad : List Call :=
  let access : Nat → FileAccess := fun _ => ⟨true, true, true, true⟩
  [.setReference (Bytes.ascii "r") [] [], .add 1 (refDocument (Bytes.ascii "r")) access,
    .add 2 (refDocument (Bytes.ascii "f")) access, .delete 7]

theorem registerAndLoad_json {id : Int} {json : Parsing.JsonParser.Delivery}
    {access : Nat → FileAccess} (h : Call.add id json access ∈ registerAndLoad) :
    ∃ ref, json = refDocument ref := by
  simp only [registerAndLoad, List.mem_cons, List.not_mem_nil, reduceCtorEq, false_or, or_false,
    Call.add.injEq] at h
  rcases h with ⟨-, hjson, -⟩ | ⟨-, hjson, -⟩
  · exact ⟨_, hjson⟩
  · exact ⟨_, hjson⟩

theorem registerAndLoad_orderly : Orderly registerAndLoad where
  nonzero := by decide
  distinct := by decide
  noReset := by simp [registerAndLoad]
  names := by
    intro ref data dataFormat hcall n hname
    simp only [registerAndLoad, List.mem_cons, List.not_mem_nil, reduceCtorEq, or_false,
      Call.setReference.injEq] at hcall
    have hgenerated : GeneratedName (Bytes.ascii "r") := by
      rw [← hcall.1, hname]
      exact generatedName_generatedRef n
    exact absurd hgenerated (by decide)
  last := by
    intro id json access data hcall hdata
    obtain ⟨ref, rfl⟩ := registerAndLoad_json hcall
    rw [parse_refDocument] at hdata
    cases hdata
    exact List.pairwise_singleton _ _
  count := by decide +kernel

theorem stored_references_exact_loaded :
    let files : Files := fun path => if path = Bytes.ascii "f" then some [65] else none
    let schedule := [0, 1, 0, 1, 0, 2, 2, 1, 2, 1, 1, 2, 2, 1, 2, 2, 1, 3, 1, 2, 2, 2, 3]
    ∃ d, getReference (generatedRef 0)
      (system ⟨2, 0, true, 1, 1⟩ id (initial files) registerAndLoad schedule).state = .ok d ∧
      d.id = 2 := by
  intro files schedule
  let measurement : Measurement := ⟨Bytes.ascii "a", .ref, [], .string (generatedRef 0)⟩
  have hstored : ⟨2, [measurement], 1, false⟩ ∈
      entries (system ⟨2, 0, true, 1, 1⟩ id (initial files) registerAndLoad schedule).state := by
    decide +kernel
  exact (stored_references_exact ⟨2, 0, true, 1, 1⟩ id files registerAndLoad registerAndLoad_orderly
    schedule ⟨2, [measurement], 1, false⟩ hstored (generatedRef 0)).mp List.mem_cons_self

-- At rest nothing of the table is left over and nothing is missing.
theorem table_matches_buffer_at_rest (cfg : DataSource.Config) (clock : Nat → Nat) (files : Files)
    (calls : List Call) (h : Orderly calls) (hone : ∀ id, ¬ManyRefs calls id) (schedule : List Nat)
    (hrest : ∀ t ∈ (system cfg clock (initial files) calls schedule).threads, t.rest = .done) :
    tablePairs (system cfg clock (initial files) calls schedule).state =
      bufferPairs (system cfg clock (initial files) calls schedule).state := by
  ext ⟨k, ref⟩
  constructor
  · rintro ⟨h0, d, hd, hid, hkey⟩
    have hstored : k ∈ ids (entries (system cfg clock (initial files) calls schedule).state) := by
      by_contra hnone
      obtain ⟨t, ht, hsettles⟩ := (system_owed cfg clock files calls schedule).owed k
        ⟨h0, hone k, ⟨d, hd, hid⟩, hnone⟩
      rwa [hrest t ht] at hsettles
    exact (system_good cfg clock files h schedule k hstored ref).mpr ⟨d, hd, hid, hkey⟩
  · intro href
    have hstored := HasRef.stored href
    exact ⟨system_nonzero cfg clock files h schedule k hstored,
      (system_good cfg clock files h schedule k hstored ref).mp href⟩

theorem table_matches_buffer_at_rest_loaded :
    let files : Files := fun path => if path = Bytes.ascii "f" then some [65] else none
    let schedule := [0, 1, 0, 1, 0, 2, 2, 1, 2, 1, 1, 2, 2, 1, 2, 2, 1, 3, 1, 2, 2, 2, 3, 3, 3, 3]
    tablePairs (system ⟨2, 0, true, 1, 1⟩ id (initial files) registerAndLoad schedule).state =
      bufferPairs (system ⟨2, 0, true, 1, 1⟩ id (initial files) registerAndLoad schedule).state := by
  intro files schedule
  have hone : ∀ id, ¬ManyRefs registerAndLoad id := by
    rintro id ⟨json, access, data, hcall, hdata, hmany⟩
    obtain ⟨ref, rfl⟩ := registerAndLoad_json hcall
    rw [parse_refDocument] at hdata
    cases hdata
    simp [refCount] at hmany
  exact table_matches_buffer_at_rest ⟨2, 0, true, 1, 1⟩ id files registerAndLoad
    registerAndLoad_orderly hone schedule (by decide +kernel)

end QdsBuffer.Concurrent.Locks
