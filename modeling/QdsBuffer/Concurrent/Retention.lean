import QdsBuffer.Concurrent.Entries

namespace QdsBuffer.Concurrent.Locks
open RingBuffer DataSource

variable {cfg : DataSource.Config} {clock : Nat → Nat} {call : Call}
  {held : List (Mutex × LockOrder.Mode)} {f : DataSource → DataSource}

-- The call asks for none of the kept data sets to go.
def Call.Retains (cfg : DataSource.Config) (kept : List (Int × List Measurement × Nat)) : Call → Prop
  | .add id _ _ => cfg.counterMode ≠ 0 → ∀ x ∈ kept, x.1 ≠ id
  | .delete id => ∀ x ∈ kept, x.1 ≠ id
  | .reset _ => False
  | _ => True

theorem Acts.retains {kept : List (Int × List Measurement × Nat)} (h : Acts cfg clock call held f)
    (hno : cfg.allowOverflow = false) (hcall : call.Retains cfg kept) {s : DataSource}
    (hwf : WellFormed cfg.ring s.buffer) (hs : kept.Sublist (contents s)) :
    kept.Sublist (contents (f s)) := by
  cases h with
  | push id json access data measurement =>
    exact push_keeps_content hno id measurement hwf hs hcall
  | delete id =>
    change kept.Sublist ((deleteLoop cfg.ring id s.buffer.buffer).1.map content)
    rw [deleteLoop_eq id hwf.order]
    exact eraseP_keeps_content hs hcall
  | reset => exact hcall.elim
  | setLocked mode visits index locked => rwa [contents_setLocked]
  | setReference ref data dataFormat =>
    unfold contents at hs ⊢
    rwa [(setReference_frame ref data dataFormat s).1]
  | _ => exact hs

theorem stored_kept_without_overflow (cfg : DataSource.Config) (clock : Nat → Nat) (files : Files)
    (ops : List DataSource.Op) (calls : List Call) (kept : List (Int × List Measurement × Nat))
    (hno : cfg.allowOverflow = false) (hkept : kept.Sublist (contents (run cfg clock files ops)))
    (hcalls : ∀ call ∈ calls, call.Retains cfg kept) (schedule : List Nat) :
    kept.Sublist (contents (system cfg clock (run cfg clock files ops) calls schedule).state) := by
  refine system_invariant_wellFormed (I := fun s => kept.Sublist (contents s)) ?_
    (run_wellFormed cfg clock files ops) hkept schedule
  intro call hcall held f hf s hwf hs
  exact hf.retains hno (hcalls call hcall) hwf hs

-- Both calls return; the Push of the Add finds the buffer full.
theorem stored_kept_without_overflow_full :
    let cfg : DataSource.Config := ⟨1, 1, false, 1, 1⟩
    let access : Nat → FileAccess := fun _ => ⟨true, true, true, true⟩
    let source := run cfg id (fun _ => none) [.add 5 emptyDocument access]
    let calls : List Call := [.add 6 emptyDocument access, .delete 4]
    let schedule := [0, 1, 0, 1, 0, 1, 0, 0, 0, 0, 0, 0]
    (∀ t ∈ (system cfg id source calls schedule).threads, t.rest = .done) ∧
      [(5, [], 0)].Sublist (contents (system cfg id source calls schedule).state) := by
  intro cfg access source calls schedule
  refine ⟨by decide +kernel, ?_⟩
  refine stored_kept_without_overflow cfg id (fun _ => none) [.add 5 emptyDocument access] calls
    [(5, [], 0)] rfl (List.Sublist.refl _) ?_ schedule
  intro call hcall
  rcases List.mem_pair.mp hcall with rfl | rfl
  · simp [Call.Retains]
  · simp [Call.Retains]

end QdsBuffer.Concurrent.Locks
