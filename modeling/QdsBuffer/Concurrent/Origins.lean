import QdsBuffer.Concurrent.Stability
import QdsBuffer.DataSource.Unused

namespace QdsBuffer.Concurrent.Locks
open DataSource Bytes

variable {cfg : DataSource.Config} {clock : Nat → Nat} {calls : List Call} {files : Files}

-- An Add of the id names the value in a REF measurement.
def Names (calls : List Call) (id : Int) (value : Bytes) : Prop :=
  ∃ json access data, Call.add id json access ∈ calls ∧ parse json = .ok data ∧ value ∈ refValues data

def LoadedBy (files : Files) (calls : List Call) (id : Int) (d : ReferenceData) : Prop :=
  ∃ value n, Names calls id value ∧ files (cString value) = some d.content ∧
    d.format = formatOf value ∧ d.ref = generatedRef n

-- Where a reference of the table comes from, and to whom it belongs.
structure Origin (files : Files) (calls : List Call) (d : ReferenceData) : Prop where
  content : Call.setReference d.ref d.content d.format ∈ calls ∨ ∃ id, LoadedBy files calls id d
  owner : d.id = 0 ∨ Names calls d.id d.ref ∨ LoadedBy files calls d.id d

-- A file is as at the start, or a REF measurement has named it and it is gone.
def OnlyNamedRemoved (files : Files) (calls : List Call) (now : Files) : Prop :=
  ∀ path, now path = files path ∨
    now path = none ∧ ∃ id value, Names calls id value ∧ cString value = path

structure Accounted (files : Files) (calls : List Call) (r : References) : Prop where
  rows : ∀ d ∈ r.refMapping.rows, Origin files calls d
  removed : OnlyNamedRemoved files calls r.files

theorem loadFile_ok {access : FileAccess} {now now' : Files} {path buffer : Bytes}
    (h : loadFile access now path = .ok (buffer, now')) :
    now (cString path) = some buffer ∧ now' = fun p => if p = cString path then none else now p := by
  unfold loadFile at h
  cases hi : access.ifstream with
  | false => simp [hi] at h
  | true =>
    cases hn : now (cString path) with
    | none => simp [hi, hn] at h
    | some content =>
      simp only [hi, hn, ↓reduceIte] at h
      split at h
      · cases h
      · split at h
        · cases h
        · split at h
          · cases h
          · cases h
            exact ⟨rfl, rfl⟩

theorem Accounted.turn {r : References} (h : Accounted files calls r) {id : Int}
    {access : FileAccess} {d : Measurement} {p : Turn × References}
    (hc : RefCase id access d r p) (hnames : ∀ value, d.value = .string value → Names calls id value) :
    Accounted files calls p.2 := by
  cases hc with
  | noString => exact h
  | refused => exact h
  | failed => exact ⟨h.rows, h.removed⟩
  | bound value it hv =>
    refine ⟨?_, h.removed⟩
    intro x hx
    rcases mem_bind.mp hx with ⟨hold, -⟩ | ⟨y, hy, rfl, rfl⟩
    · exact h.rows x hold
    · exact ⟨(h.rows y hy).content, .inr (.inl (hnames y.ref hv))⟩
  | loaded value buffer now hv hf hl =>
    obtain ⟨hcontent, rfl⟩ := loadFile_ok hl
    have hfile : files (cString value) = some buffer := by
      rcases h.removed (cString value) with hsame | ⟨hnone, -⟩
      · exact hsame.symm.trans hcontent
      · rw [hnone] at hcontent
        cases hcontent
    refine ⟨?_, ?_⟩
    · intro x hx
      rcases mem_loaded hx with hold | rfl
      · exact h.rows x hold
      · have hby : LoadedBy files calls id
            ⟨id, generatedRef r.refCounter, formatOf value, buffer⟩ :=
          ⟨value, r.refCounter, hnames value hv, hfile, rfl, rfl⟩
        exact ⟨.inr ⟨id, hby⟩, .inr (.inr hby)⟩
    · intro path
      by_cases hpath : path = cString value
      · exact .inr ⟨if_pos hpath, id, value, hnames value hv, hpath.symm⟩
      · refine (h.removed path).imp (fun hsame => ?_) (fun hgone => ⟨?_, hgone.2⟩)
        · exact (if_neg hpath).trans hsame
        · exact (if_neg hpath).trans hgone.1

theorem Accounted.register {s : DataSource} (h : Accounted files calls s.refs)
    {ref data dataFormat : Bytes} (hcall : Call.setReference ref data dataFormat ∈ calls) :
    Accounted files calls (setReference ref data dataFormat s).2.refs := by
  unfold setReference
  cases hf : s.refs.refMapping.find ref with
  | some _ => exact h
  | none =>
    refine ⟨?_, h.removed⟩
    intro x hx
    rcases (KeyedTable.mem_emplace (KeyedTable.find_eq_none.mp hf)).mp hx with rfl | hold
    · exact ⟨.inl hcall, .inl rfl⟩
    · exact h.rows x hold

theorem Acts.accounted {call : Call} {held : List (Mutex × LockOrder.Mode)}
    {f : DataSource → DataSource} (hf : Acts cfg clock call held f) (hcall : call ∈ calls)
    {s : DataSource} (h : Accounted files calls s.refs) : Accounted files calls (f s).refs := by
  cases hf with
  | processRef id json access turn data d hdata hd ht =>
    refine h.turn (ref_case id turn d s.refs) ?_
    intro value hv
    exact ⟨json, access, data, hcall, hdata, List.mem_filterMap.mpr ⟨d, hd, refValue_string ht hv⟩⟩
  | callback => exact ⟨fun x hx => h.rows x (mem_rows_deleteRefMapping.mp hx).1, h.removed⟩
  | rollback => exact ⟨fun x hx => h.rows x (mem_rows_deleteRefMapping.mp hx).1, h.removed⟩
  | setReference => exact h.register hcall
  | _ => exact h

theorem system_accounted (cfg : DataSource.Config) (clock : Nat → Nat) (files : Files)
    (calls : List Call) (schedule : List Nat) :
    Accounted files calls (system cfg clock (initial files) calls schedule).state.refs :=
  system_invariant (I := fun s => Accounted files calls s.refs)
    (fun _ hcall _ _ hf _ hs => hf.accounted hcall hs) ⟨List.forall_mem_nil _, fun _ => .inl rfl⟩
    schedule

theorem references_accounted (cfg : DataSource.Config) (clock : Nat → Nat) (files : Files)
    (calls : List Call) (schedule : List Nat) :
    let s := (system cfg clock (initial files) calls schedule).state
    (∀ ref d, getReference ref s = .ok d → d.ref = ref ∧ Origin files calls d) ∧
      OnlyNamedRemoved files calls s.refs.files := by
  intro s
  have h := system_accounted cfg clock files calls schedule
  refine ⟨?_, h.removed⟩
  intro ref d hget
  obtain ⟨hd, hkey⟩ := getReference_iff.mp hget
  exact ⟨hkey, h.rows d hd⟩

end QdsBuffer.Concurrent.Locks
