import QdsBuffer.Concurrent.Acts
import QdsBuffer.DataSource.Invariant

namespace QdsBuffer.Concurrent.Locks
open LockOrder

-- What a consumer sees of the data sets, whether they are locked or not.
def contents (s : DataSource) : List (Int × List Measurement × Nat) :=
  s.buffer.buffer.map (fun e => (e.id, e.measurements, e.timestampMs))

-- The two states agree in what the lock protects.
def Same : Mutex × Mode → DataSource → DataSource → Prop
  | (.parser, _), _, _ => True
  | (.buffer, .exclusive), s, s' => s'.buffer = s.buffer
  | (.buffer, .shared), s, s' => contents s' = contents s
  | (.refMapping, _), s, s' => s'.refs = s.refs
  | (.resetInformationList, _), s, s' => s'.resetInformationList = s.resetInformationList
  | (.deletionInformationList, _), s, s' => s'.deletionInformationList = s.deletionInformationList

theorem setReference_frame (ref data dataFormat : Bytes) (s : DataSource) :
    let s' := (DataSource.setReference ref data dataFormat s).2
    s'.buffer = s.buffer ∧ s'.resetInformationList = s.resetInformationList ∧
      s'.deletionInformationList = s.deletionInformationList := by
  unfold DataSource.setReference
  split
  · exact ⟨rfl, rfl, rfl⟩
  · exact ⟨rfl, rfl, rfl⟩

theorem contents_setLocked (s : DataSource) (index : Nat) (locked : Bool) :
    contents { s with buffer := s.buffer.setLocked index locked } = contents s :=
  RingBuffer.map_modify_locked _ (fun _ _ => rfl) s.buffer.buffer index locked

variable {cfg : DataSource.Config} {clock : Nat → Nat} {call : Call} {held : List (Mutex × Mode)}
  {f : DataSource → DataSource}

theorem Acts.buffer_guarded (h : Acts cfg clock call held f) :
    Guarded (Agree (·.buffer)) [(.buffer, .exclusive), (.buffer, .shared)] held f := by
  cases h with
  | push => exact .inr ⟨_, List.mem_cons_self, List.mem_cons_self⟩
  | delete => exact .inr ⟨_, List.mem_cons_self, List.mem_cons_self⟩
  | reset => exact .inr ⟨_, List.mem_cons_self, List.mem_cons_self⟩
  | setLocked mode =>
    refine .inr ⟨_, List.mem_cons_self, ?_⟩
    cases mode with
    | exclusive => exact List.mem_cons_self
    | shared => exact List.mem_cons_of_mem _ List.mem_cons_self
  | setReference ref data dataFormat =>
    exact .inl (fun s => (setReference_frame ref data dataFormat s).1)
  | _ => exact .inl (fun _ => rfl)

theorem Acts.contents_guarded (h : Acts cfg clock call held f) :
    Guarded (Agree contents) [(.buffer, .exclusive)] held f := by
  cases h with
  | push => exact .inr ⟨_, List.mem_cons_self, List.mem_cons_self⟩
  | delete => exact .inr ⟨_, List.mem_cons_self, List.mem_cons_self⟩
  | reset => exact .inr ⟨_, List.mem_cons_self, List.mem_cons_self⟩
  | setLocked mode visits index locked => exact .inl (fun s => contents_setLocked s index locked)
  | setReference ref data dataFormat =>
    refine .inl (fun s => ?_)
    unfold Agree contents
    rw [(setReference_frame ref data dataFormat s).1]
  | _ => exact .inl (fun _ => rfl)

theorem Acts.refs_guarded (h : Acts cfg clock call held f) :
    Guarded (Agree (·.refs)) [(.refMapping, .exclusive)] held f := by
  cases h with
  | processRef => exact .inr ⟨_, List.mem_cons_self, List.mem_cons_self⟩
  | callback => exact .inr ⟨_, List.mem_cons_self, List.mem_cons_self⟩
  | rollback => exact .inr ⟨_, List.mem_cons_self, List.mem_cons_self⟩
  | setReference => exact .inr ⟨_, List.mem_cons_self, List.mem_cons_self⟩
  | _ => exact .inl (fun _ => rfl)

theorem Acts.resetList_guarded (h : Acts cfg clock call held f) :
    Guarded (Agree (·.resetInformationList)) [(.resetInformationList, .exclusive)] held f := by
  cases h with
  | logReset => exact .inr ⟨_, List.mem_cons_self, List.mem_cons_self⟩
  | acknowledgeReset => exact .inr ⟨_, List.mem_cons_self, List.mem_cons_self⟩
  | setReference ref data dataFormat =>
    exact .inl (fun s => (setReference_frame ref data dataFormat s).2.1)
  | _ => exact .inl (fun _ => rfl)

theorem Acts.deletionList_guarded (h : Acts cfg clock call held f) :
    Guarded (Agree (·.deletionInformationList)) [(.deletionInformationList, .exclusive)] held f := by
  cases h with
  | logDeletion => exact .inr ⟨_, List.mem_cons_self, List.mem_cons_self⟩
  | acknowledgeOverflow => exact .inr ⟨_, List.mem_cons_self, List.mem_cons_self⟩
  | setReference ref data dataFormat =>
    exact .inl (fun s => (setReference_frame ref data dataFormat s).2.2)
  | _ => exact .inl (fun _ => rfl)

variable {source : DataSource} {calls : List Call}

theorem system_append (schedule schedule' : List Nat) :
    system cfg clock source calls (schedule ++ schedule') =
      Runs.run LockOrder.step (system cfg clock source calls schedule) schedule' :=
  Runs.run_append _ _ _

theorem system_every {A : List (Mutex × Mode) → (DataSource → DataSource) → Prop}
    (hA : ∀ call ∈ calls, ∀ held f, Acts cfg clock call held f → A held f) (schedule : List Nat) :
    ∀ t ∈ (system cfg clock source calls schedule).threads, t.Every A := by
  apply run_every schedule
  intro t ht
  apply (start_acts t ht).mono
  rintro held f ⟨call, hcall, hf⟩
  exact hA call hcall held f hf

theorem system_every_at {A : List (Mutex × Mode) → (DataSource → DataSource) → Prop} {i : Nat}
    (hcall : calls[i]? = some call) (hA : (call.program cfg clock).Every A []) (schedule : List Nat) :
    ∀ t, (system cfg clock source calls schedule).threads[i]? = some t → t.Every A := by
  apply run_every_at schedule
  intro t ht
  have hprog : t = ⟨[], call.program cfg clock⟩ := by
    simpa [LockOrder.start, hcall] using ht.symm
  rw [hprog]
  exact hA

theorem system_exclusion (cfg : DataSource.Config) (clock : Nat → Nat) (source : DataSource)
    (calls : List Call) (schedule : List Nat) :
    Exclusion (system cfg clock source calls schedule).threads :=
  run_exclusion source _ schedule

theorem system_stable {R : DataSource → DataSource → Prop} {guards : List (Mutex × Mode)}
    (hrefl : ∀ s, R s s) (htrans : ∀ a b c, R a b → R b c → R a c)
    (hA : ∀ call held f, Acts cfg clock call held f → Guarded R guards held f)
    {schedule schedule' : List Nat} {i : Nat} {lock : Mutex × Mode}
    (hheld : Holds (system cfg clock source calls schedule) i lock)
    (hlock : ∀ guard ∈ guards, Conflict lock guard) (hi : i ∉ schedule') :
    R (system cfg clock source calls schedule).state
      (system cfg clock source calls (schedule ++ schedule')).state := by
  rw [system_append]
  exact stable_under_lock hrefl htrans (system_exclusion cfg clock source calls schedule)
    (system_every (fun call _ => hA call) schedule) hheld hlock hi

theorem system_agrees {τ : Type} {view : DataSource → τ} {guards : List (Mutex × Mode)}
    (hA : ∀ call held f, Acts cfg clock call held f → Guarded (Agree view) guards held f)
    {schedule schedule' : List Nat} {i : Nat} {lock : Mutex × Mode}
    (hheld : Holds (system cfg clock source calls schedule) i lock)
    (hlock : ∀ guard ∈ guards, Conflict lock guard) (hi : i ∉ schedule') :
    view (system cfg clock source calls (schedule ++ schedule')).state =
      view (system cfg clock source calls schedule).state :=
  system_stable (agree_refl view) (agree_trans view) hA hheld hlock hi

theorem conflict_exclusive (m : Mutex) (mode : Mode) :
    ∀ guard ∈ [(m, Mode.exclusive)], Conflict (m, mode) guard := by
  intro guard hg
  rw [List.mem_singleton.mp hg]
  exact ⟨rfl, .inr rfl⟩

theorem conflict_of_exclusive (m : Mutex) :
    ∀ guard ∈ [(m, Mode.exclusive), (m, Mode.shared)], Conflict (m, .exclusive) guard := by
  intro guard hg
  refine ⟨?_, .inl rfl⟩
  rcases List.mem_pair.mp hg with rfl | rfl
  · rfl
  · rfl

theorem locked_state_stable (cfg : DataSource.Config) (clock : Nat → Nat) (source : DataSource)
    (calls : List Call) (schedule schedule' : List Nat) (i : Nat) (lock : Mutex × Mode)
    (hheld : Holds (system cfg clock source calls schedule) i lock) (hi : i ∉ schedule') :
    Same lock (system cfg clock source calls schedule).state
      (system cfg clock source calls (schedule ++ schedule')).state := by
  obtain ⟨m, mode⟩ := lock
  cases m with
  | parser => trivial
  | buffer =>
    cases mode with
    | exclusive =>
      exact system_agrees (fun _ _ _ h => h.buffer_guarded) hheld (conflict_of_exclusive _) hi
    | shared =>
      exact system_agrees (fun _ _ _ h => h.contents_guarded) hheld (conflict_exclusive _ _) hi
  | refMapping =>
    exact system_agrees (fun _ _ _ h => h.refs_guarded) hheld (conflict_exclusive _ _) hi
  | resetInformationList =>
    exact system_agrees (fun _ _ _ h => h.resetList_guarded) hheld (conflict_exclusive _ _) hi
  | deletionInformationList =>
    exact system_agrees (fun _ _ _ h => h.deletionList_guarded) hheld (conflict_exclusive _ _) hi

theorem locked_state_stable_delete :
    let cfg : DataSource.Config := ⟨2, 0, true, 1, 1⟩
    let source : DataSource := { DataSource.initial (fun _ => none) with
      buffer := ⟨[⟨5, [], 0, false⟩], 1⟩ }
    let calls : List Call := [.iterate .shared [.read], .delete 5]
    contents (system cfg id source calls ([0] ++ [1, 1])).state =
      contents (system cfg id source calls [0]).state :=
  locked_state_stable ⟨2, 0, true, 1, 1⟩ id _ _ [0] [1, 1] 0 (.buffer, .shared)
    ⟨⟨[(.buffer, .shared)], .release .buffer .shared .done⟩, rfl, List.mem_cons_self⟩ (by decide)

theorem iterate_contents (mode : Mode) (visits : List Visit) :
    (iterate mode visits).Every (fun _ f => ∀ s, Agree contents s (f s)) [] :=
  visits_every (fun index locked _ s => contents_setLocked s index locked)

-- The consumer's own changes of locked_ count here: they are no changes of the contents.
theorem iteration_sees_one_buffer (cfg : DataSource.Config) (clock : Nat → Nat)
    (source : DataSource) (calls : List Call) (schedule schedule' : List Nat) (i : Nat) (mode : Mode)
    (visits : List Visit) (hcall : calls[i]? = some (.iterate mode visits))
    (hheld : ∀ n, Holds (system cfg clock source calls (schedule ++ schedule'.take n)) i
      (.buffer, mode)) :
    contents (system cfg clock source calls (schedule ++ schedule')).state =
      contents (system cfg clock source calls schedule).state := by
  simp only [system_append] at hheld ⊢
  exact stable_along (agree_refl contents) (agree_trans contents)
    (system_exclusion cfg clock source calls schedule)
    (system_every (fun _ _ _ _ h => h.contents_guarded) schedule)
    (system_every_at hcall (iterate_contents mode visits) schedule)
    (conflict_exclusive .buffer mode) (Runs.along_of_take hheld)

theorem iteration_sees_one_buffer_locking :
    let cfg : DataSource.Config := ⟨2, 0, true, 1, 1⟩
    let source : DataSource := { DataSource.initial (fun _ => none) with
      buffer := ⟨[⟨5, [], 0, false⟩], 1⟩ }
    let calls : List Call := [.iterate .shared [.setLocked 0 true], .delete 5]
    contents (system cfg id source calls ([0] ++ [1, 0])).state =
      contents (system cfg id source calls [0]).state := by
  intro cfg source calls
  refine iteration_sees_one_buffer cfg id source calls [0] [1, 0] 0 .shared [.setLocked 0 true] rfl ?_
  intro n
  match n with
  | 0 => exact ⟨_, rfl, List.mem_cons_self⟩
  | 1 => exact ⟨_, rfl, List.mem_cons_self⟩
  | n + 2 =>
    rw [List.take_of_length_le (by simp)]
    exact ⟨_, rfl, List.mem_cons_self⟩

end QdsBuffer.Concurrent.Locks
