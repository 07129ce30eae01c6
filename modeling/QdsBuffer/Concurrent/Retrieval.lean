import QdsBuffer.Concurrent.Stability
import QdsBuffer.DataSource.Unused

namespace QdsBuffer.Concurrent.Locks
open LockOrder (Mode Guarded Holds stable_along)
open DataSource

-- The reference is still in the table, unchanged.
def KeepsRow (d : ReferenceData) (s s' : DataSource) : Prop := d ∈ rows s → d ∈ rows s'

variable {cfg : DataSource.Config} {clock : Nat → Nat} {calls : List Call} {call : Call}
  {held : List (Mutex × Mode)} {f : DataSource → DataSource} {d : ReferenceData}

theorem setReference_keeps (ref data dataFormat : Bytes) (s : DataSource) :
    KeepsRow d s (setReference ref data dataFormat s).2 := by
  intro hd
  unfold setReference
  cases hf : s.refs.refMapping.find ref with
  | some _ => exact hd
  | none => exact (KeyedTable.mem_emplace (KeyedTable.find_eq_none.mp hf)).mpr (.inr hd)

-- Only the callbacks of the buffer and the rollback of an Add of its id take an assigned reference.
theorem Acts.row_guarded (h : Acts cfg clock call held f) (hcall : call ∈ calls) (h0 : d.id ≠ 0)
    (hadd : ∀ json access, Call.add d.id json access ∉ calls) :
    Guarded (KeepsRow d) [(.buffer, .exclusive)] held f := by
  cases h with
  | processRef id json access turn data m hdata hm ht =>
    exact .inl (fun s hd => (ref_case id turn m s.refs).keeps ht hd (.inl h0))
  | callback call held id clear hbuffer =>
    exact .inr ⟨_, List.mem_cons_of_mem _ hbuffer, List.mem_cons_self⟩
  | rollback id json access =>
    refine .inl (fun s hd => mem_rows_deleteRefMapping.mpr ⟨hd, ?_⟩)
    rintro (hclear | rfl)
    · cases hclear
    · exact hadd json access hcall
  | setReference ref data dataFormat => exact .inl (setReference_keeps ref data dataFormat)
  | _ => exact .inl (fun _ hd => hd)

theorem keepsRow_refl (d : ReferenceData) (s : DataSource) : KeepsRow d s s := fun hd => hd

theorem keepsRow_trans (d : ReferenceData) (a b c : DataSource) (hab : KeepsRow d a b)
    (hbc : KeepsRow d b c) : KeepsRow d a c :=
  fun hd => hbc (hab hd)

theorem iterate_row (d : ReferenceData) (mode : Mode) (visits : List Visit) :
    (iterate mode visits).Every (fun _ f => ∀ s, KeepsRow d s (f s)) [] :=
  visits_every (fun _ _ _ _ hd => hd)

-- GetReference hands out a reference into the table after it has released the mutex of the table.
theorem reference_kept_while_iterating (cfg : DataSource.Config) (clock : Nat → Nat)
    (source : DataSource) (calls : List Call) (schedule schedule' : List Nat) (i : Nat) (mode : Mode)
    (visits : List Visit) (hcall : calls[i]? = some (.iterate mode visits))
    (hheld : ∀ n, Holds (system cfg clock source calls (schedule ++ schedule'.take n)) i
      (.buffer, mode))
    (ref : Bytes) (d : ReferenceData)
    (hd : getReference ref (system cfg clock source calls schedule).state = .ok d) (h0 : d.id ≠ 0)
    (hadd : ∀ json access, Call.add d.id json access ∉ calls) :
    getReference ref (system cfg clock source calls (schedule ++ schedule')).state = .ok d := by
  obtain ⟨hrow, href⟩ := getReference_iff.mp hd
  refine getReference_iff.mpr ⟨?_, href⟩
  simp only [system_append] at hheld ⊢
  have hkeeps := stable_along (keepsRow_refl d) (keepsRow_trans d)
    (system_exclusion cfg clock source calls schedule)
    (system_every (fun call hin _ _ h => h.row_guarded hin h0 hadd) schedule)
    (system_every_at hcall (iterate_row d mode visits) schedule)
    (conflict_exclusive .buffer mode) (Runs.along_of_take hheld)
  exact hkeeps hrow

theorem reference_kept_while_iterating_delete :
    let cfg : DataSource.Config := ⟨2, 0, true, 1, 1⟩
    let source : DataSource := { DataSource.initial (fun _ => none) with
      buffer := ⟨[⟨5, [], 0, false⟩], 1⟩,
      refs := ⟨⟨[⟨5, [97], [98], [99]⟩], by decide⟩, 0, fun _ => none⟩ }
    let calls : List Call := [.iterate .shared [.getReference [97], .read], .delete 5]
    getReference [97] (system cfg id source calls ([0] ++ [1, 0, 0, 1])).state =
      .ok ⟨5, [97], [98], [99]⟩ := by
  intro cfg source calls
  refine reference_kept_while_iterating cfg id source calls [0] [1, 0, 0, 1] 0 .shared
    [.getReference [97], .read] rfl ?_ [97] ⟨5, [97], [98], [99]⟩ rfl (by decide) ?_
  · intro n
    match n with
    | 0 => exact ⟨_, rfl, List.mem_cons_self⟩
    | 1 => exact ⟨_, rfl, List.mem_cons_self⟩
    | 2 => exact ⟨_, rfl, List.mem_cons_of_mem _ List.mem_cons_self⟩
    | 3 => exact ⟨_, rfl, List.mem_cons_self⟩
    | n + 4 =>
      rw [List.take_of_length_le (by simp)]
      exact ⟨_, rfl, List.mem_cons_self⟩
  · intro json access h
    simp [calls] at h

end QdsBuffer.Concurrent.Locks
