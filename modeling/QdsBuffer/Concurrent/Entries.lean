import QdsBuffer.Concurrent.Stability
import QdsBuffer.DataSource.Accepted
import QdsBuffer.RingBuffer.Locked
import QdsBuffer.RingBuffer.Times

namespace QdsBuffer.Concurrent.Locks
open RingBuffer DataSource

variable {cfg : DataSource.Config} {clock : Nat → Nat} {call : Call}
  {held : List (Mutex × LockOrder.Mode)} {f : DataSource → DataSource}

theorem Acts.buffer_step (h : Acts cfg clock call held f) :
    (∀ s, (f s).buffer = s.buffer) ∨
      ∃ op, ∀ s, (f s).buffer = RingBuffer.step cfg.ring clock s.buffer op := by
  cases h with
  | push id _ _ _ measurement => exact .inr ⟨.push id measurement, fun _ => rfl⟩
  | delete id => exact .inr ⟨.delete id, fun _ => rfl⟩
  | reset reason => exact .inr ⟨.reset reason, fun _ => rfl⟩
  | setLocked _ _ index locked => exact .inr ⟨.setLocked index locked, fun _ => rfl⟩
  | setReference ref data dataFormat =>
    exact .inl (fun s => (setReference_frame ref data dataFormat s).1)
  | _ => exact .inl (fun _ => rfl)

-- What every operation of the ring buffer keeps holds in every interleaving of the calls.
theorem system_buffer {I : RingBuffer → Prop}
    (hstep : ∀ rb op, I rb → I (RingBuffer.step cfg.ring clock rb op)) {source : DataSource}
    (hsource : I source.buffer) (calls : List Call) (schedule : List Nat) :
    I (system cfg clock source calls schedule).state.buffer := by
  refine system_invariant (I := fun s => I s.buffer) ?_ hsource schedule
  intro call _ held f hf s hs
  rcases hf.buffer_step with hsame | ⟨op, hop⟩
  · rwa [hsame s]
  · rw [hop s]
    exact hstep s.buffer op hs

theorem system_wellFormed {source : DataSource} (hsource : WellFormed cfg.ring source.buffer)
    (calls : List Call) (schedule : List Nat) :
    WellFormed cfg.ring (system cfg clock source calls schedule).state.buffer :=
  system_buffer step_wellFormed hsource calls schedule

theorem system_invariant_wellFormed {I : DataSource → Prop} {source : DataSource}
    {calls : List Call}
    (hkeep : ∀ call ∈ calls, ∀ held f, Acts cfg clock call held f →
      ∀ s, WellFormed cfg.ring s.buffer → I s → I (f s))
    (hwf : WellFormed cfg.ring source.buffer) (hsource : I source) (schedule : List Nat) :
    I (system cfg clock source calls schedule).state := by
  refine (system_invariant (I := fun s => WellFormed cfg.ring s.buffer ∧ I s) ?_ ⟨hwf, hsource⟩
    schedule).2
  rintro call hcall held f hf s ⟨hs, hi⟩
  refine ⟨?_, hkeep call hcall held f hf s hs hi⟩
  rcases hf.buffer_step with hsame | ⟨op, hop⟩
  · rwa [hsame s]
  · rw [hop s]
    exact step_wellFormed s.buffer op hs

theorem buffer_invariant_interleaved (cfg : DataSource.Config) (clock : Nat → Nat) (files : Files)
    (calls : List Call) (schedule : List Nat) :
    let b := (system cfg clock (initial files) calls schedule).state.buffer.buffer
    b.length ≤ cfg.bufferSize ∧ (cfg.counterMode = 0 → (ids b).Pairwise (· < ·)) ∧
      (cfg.counterMode ≠ 0 → (ids b).Nodup) ∧
      (Monotone clock → (times b).Pairwise (· ≤ ·)) := by
  intro b
  have hwf : WellFormed cfg.ring (system cfg clock (initial files) calls schedule).state.buffer :=
    system_wellFormed initial_wellFormed calls schedule
  have horder := hwf.order
  unfold IdOrder at horder
  refine ⟨hwf.size, ?_, ?_, ?_⟩
  · intro hm
    rwa [if_pos (show cfg.ring.counterMode = 0 from hm)] at horder
  · intro hm
    rwa [if_neg (show ¬cfg.ring.counterMode = 0 from hm)] at horder
  · intro hclock
    have hstart : WellFormed cfg.ring RingBuffer.initial ∧
        Timed clock RingBuffer.initial.buffer RingBuffer.initial.ticks :=
      ⟨initial_wellFormed, List.Pairwise.nil, by simp [RingBuffer.initial]⟩
    exact (system_buffer (I := fun rb => WellFormed cfg.ring rb ∧ Timed clock rb.buffer rb.ticks)
      (step_timed hclock) hstart calls schedule).2.sorted

-- The call deletes none of the kept entries, unlocks none and resets nothing.
def Call.Spares (kept : List BufferEntry) : Call → Prop
  | .delete id => ∀ e ∈ kept, e.id ≠ id
  | .reset _ => False
  | .iterate _ visits => ∀ index, Visit.setLocked index false ∉ visits
  | _ => True

theorem Acts.keeps {kept : List BufferEntry} (h : Acts cfg clock call held f)
    (hspares : call.Spares kept) (hlocked : ∀ e ∈ kept, e.locked = true) {s : DataSource}
    (hwf : WellFormed cfg.ring s.buffer) (hkept : kept.Sublist s.buffer.buffer) :
    kept.Sublist (f s).buffer.buffer := by
  cases h with
  | push id _ _ _ measurement => exact push_keeps_locked id measurement hwf hkept hlocked
  | delete id =>
    change kept.Sublist (deleteLoop cfg.ring id s.buffer.buffer).1
    rw [deleteLoop_eq id hwf.order]
    refine sublist_eraseP hkept ?_
    intro e he
    simpa [hasId] using hspares e he
  | reset => exact hspares.elim
  | setLocked mode visits index locked hv =>
    refine sublist_modify hkept ?_
    intro e he _
    cases locked with
    | false => exact absurd hv (hspares index)
    | true => rw [← hlocked e he]
  | setReference ref data dataFormat =>
    rwa [(setReference_frame ref data dataFormat s).1]
  | _ => exact hkept

theorem locked_kept_interleaved (cfg : DataSource.Config) (clock : Nat → Nat) (files : Files)
    (ops : List DataSource.Op) (calls : List Call) (kept : List BufferEntry)
    (hkept : kept.Sublist (run cfg clock files ops).buffer.buffer)
    (hlocked : ∀ e ∈ kept, e.locked = true) (hcalls : ∀ call ∈ calls, call.Spares kept)
    (schedule : List Nat) :
    kept.Sublist (system cfg clock (run cfg clock files ops) calls schedule).state.buffer.buffer := by
  refine system_invariant_wellFormed (I := fun s => kept.Sublist s.buffer.buffer) ?_
    (run_wellFormed cfg clock files ops) hkept schedule
  intro call hcall held f hf s hwf hs
  exact hf.keeps (hcalls call hcall) hlocked hwf hs

-- Both calls return; the Push of the Add finds the only place locked.
theorem locked_kept_interleaved_full :
    let calls : List Call := [.add 6 emptyDocument (fun _ => ⟨true, true, true, true⟩), .delete 4]
    let sys := system ⟨1, 0, true, 1, 1⟩ id (run ⟨1, 0, true, 1, 1⟩ id (fun _ => none)
      [.add 5 emptyDocument (fun _ => ⟨true, true, true, true⟩), .setLocked 0 true]) calls
      [0, 1, 0, 1, 0, 1, 0, 0, 0, 0, 0, 0]
    (∀ t ∈ sys.threads, t.rest = .done) ∧ [⟨5, [], 0, true⟩].Sublist sys.state.buffer.buffer := by
  have hcalls : ∀ call ∈ [Call.add 6 emptyDocument (fun _ => ⟨true, true, true, true⟩), .delete 4],
      call.Spares [⟨5, [], 0, true⟩] := by
    intro call hcall
    rcases List.mem_pair.mp hcall with rfl | rfl
    · trivial
    · simp [Call.Spares]
  refine ⟨by decide +kernel, ?_⟩
  exact locked_kept_interleaved ⟨1, 0, true, 1, 1⟩ id (fun _ => none) _ _ [⟨5, [], 0, true⟩]
    (List.Sublist.refl _) (by decide) hcalls _

-- The entry holds the data set of one of the Adds, whole.
def Delivered (calls : List Call) (e : BufferEntry) : Prop :=
  ∃ json access data, Call.add e.id json access ∈ calls ∧ parse json = .ok data ∧
    Replacement data e.measurements

theorem Delivered.of_same {calls : List Call} {e e' : BufferEntry} (h : Delivered calls e)
    (hid : e.id = e'.id) (hms : e.measurements = e'.measurements) : Delivered calls e' := by
  rw [Delivered, ← hid, ← hms]
  exact h

theorem Acts.delivered {calls : List Call} (h : Acts cfg clock call held f) (hcall : call ∈ calls)
    {s : DataSource} (hwf : WellFormed cfg.ring s.buffer)
    (hs : ∀ e ∈ s.buffer.buffer, Delivered calls e) : ∀ e ∈ (f s).buffer.buffer, Delivered calls e := by
  intro e he
  cases h with
  | push id json access data measurement hdata hm =>
    rcases mem_push hwf he with he | ⟨rfl, rfl⟩
    · exact hs e he
    · exact ⟨json, access, data, hcall, hdata, hm⟩
  | delete id => exact hs e ((deleteLoop_sublist cfg.ring id s.buffer.buffer).subset he)
  | reset reason =>
    rw [show _ = [] from reset_buffer cfg.ring clock reason s.buffer] at he
    cases he
  | setLocked mode visits index locked =>
    obtain ⟨e', he', hid, hms⟩ := exists_of_mem_modify_locked he
    exact (hs e' he').of_same hid hms
  | setReference ref data dataFormat =>
    rw [(setReference_frame ref data dataFormat s).1] at he
    exact hs e he
  | _ => exact hs e he

theorem system_delivered (cfg : DataSource.Config) (clock : Nat → Nat) (files : Files)
    (calls : List Call) (schedule : List Nat) :
    ∀ e ∈ (system cfg clock (initial files) calls schedule).state.buffer.buffer,
      Delivered calls e :=
  system_invariant_wellFormed (I := fun s => ∀ e ∈ s.buffer.buffer, Delivered calls e)
    (fun _ hcall _ _ hf _ hwf hs => hf.delivered hcall hwf hs) initial_wellFormed
    (List.forall_mem_nil _) schedule

theorem replacement_valid {data data' : List Measurement} (h : Replacement data data')
    (hv : ∀ d ∈ data, Parsing.DataValidator.Valid d) : ∀ d ∈ data', Parsing.DataValidator.Valid d := by
  induction h with
  | nil => exact hv
  | @cons d d' data data' hd hrest ih =>
    have hvalid := hv d List.mem_cons_self
    have hall := ih (fun x hx => hv x (List.mem_cons_of_mem d hx))
    refine List.forall_mem_cons.mpr ⟨?_, hall⟩
    rcases hd with rfl | ⟨ht, n, rfl⟩
    · exact hvalid
    · refine ⟨hvalid.name, hvalid.type, ?_⟩
      simp only [ht]
      trivial

theorem stored_whole_interleaved (cfg : DataSource.Config) (clock : Nat → Nat) (files : Files)
    (calls : List Call) (schedule : List Nat) :
    ∀ e ∈ (system cfg clock (initial files) calls schedule).state.buffer.buffer,
      ∃ json access data, Call.add e.id json access ∈ calls ∧ parse json = .ok data ∧
        Replacement data e.measurements ∧
        (Parsing.Balanced (json.calls.filterMap Parsing.HandlerCall.event) →
          ∀ d ∈ e.measurements, Parsing.DataValidator.Valid d) := by
  intro e he
  obtain ⟨json, access, data, hcall, hdata, hm⟩ :=
    system_delivered cfg clock files calls schedule e he
  exact ⟨json, access, data, hcall, hdata, hm,
    fun hb => replacement_valid hm (parse_valid hb hdata)⟩

theorem stored_whole_interleaved_reference :
    let ref := Bytes.ascii "r"
    let access : Nat → FileAccess := fun _ => ⟨true, true, true, true⟩
    let calls : List Call := [.setReference ref [] [], .add 5 (refDocument ref) access]
    let measurement : Measurement := ⟨Bytes.ascii "a", .ref, [], .string ref⟩
    ∃ json access' data, Call.add 5 json access' ∈ calls ∧ parse json = .ok data ∧
      Replacement data [measurement] ∧
      (Parsing.Balanced (json.calls.filterMap Parsing.HandlerCall.event) →
        ∀ d ∈ [measurement], Parsing.DataValidator.Valid d) := by
  intro ref access calls measurement
  let schedule := [0, 0, 0, 1, 1, 1, 1, 1, 1, 1, 1, 1]
  have hstored : ⟨5, [measurement], 0, false⟩ ∈ (system ⟨1, 0, true, 1, 1⟩ id
      (initial (fun _ => none)) calls schedule).state.buffer.buffer := by decide +kernel
  exact stored_whole_interleaved ⟨1, 0, true, 1, 1⟩ id (fun _ => none) calls schedule
    ⟨5, [measurement], 0, false⟩ hstored

end QdsBuffer.Concurrent.Locks
