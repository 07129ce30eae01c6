import QdsBuffer.DataSource.References

namespace QdsBuffer.DataSource
open Bytes

inductive SingleCase (id : Int) (data : List Measurement) (r : References) :
    Except Exception (List Measurement) × References → Prop
  | noRef : refValues data = [] → SingleCase id data r (.ok data, r)
  | bound (value : Bytes) (it : ReferenceData) : refValues data = [value] →
      r.refMapping.find value = some it → it.id = 0 →
      SingleCase id data r (.ok data, r.bind id value)
  | loaded (value buffer : Bytes) (files : Files) (data' : List Measurement) :
      refValues data = [value] → r.refMapping.find value = none →
      refValues data' = [generatedRef r.refCounter] →
      SingleCase id data r (.ok data', r.loaded id value buffer files)
  | failed (e : Exception) (r' : References) : r'.refMapping = r.refMapping →
      (r' = r ∨ r' = r.counted) → SingleCase id data r (.error e, r')

theorem refValue_of_type {d : Measurement} (ht : d.type ≠ .ref) : refValue d = none := by
  simp [refValue, ht]

theorem refValues_of_count {data : List Measurement} (h : refCount data = 0) :
    refValues data = [] := by
  have hn : ∀ d ∈ data, d.type ≠ .ref := by simpa [refCount, List.countP_eq_zero] using h
  exact List.filterMap_eq_nil_iff.mpr (fun d hd => refValue_of_type (hn d hd))

theorem processRefMapping_of_count {id : Int} {access : Nat → FileAccess} {data : List Measurement}
    {r : References} (h : refCount data = 0) : processRefMapping id access data r = (.ok data, r) := by
  induction data generalizing access with
  | nil => rfl
  | cons d data ih =>
    have hd : d.type ≠ .ref ∧ refCount data = 0 := by
      simpa [refCount, List.countP_eq_zero] using h
    rw [processRefMapping_cons_other hd.1, ih hd.2]
    rfl

theorem refCount_cons_ref {d : Measurement} {data : List Measurement} (ht : d.type = .ref)
    (h : refCount (d :: data) ≤ 1) : refCount data = 0 := by
  simp only [refCount, List.countP_cons, ht, decide_true, ↓reduceIte] at h ⊢
  omega

theorem single_case (id : Int) (access : Nat → FileAccess) {data : List Measurement}
    (r : References) (h : refCount data ≤ 1) :
    SingleCase id data r (processRefMapping id access data r) := by
  induction data generalizing access with
  | nil => exact .noRef rfl
  | cons d data ih =>
    by_cases ht : d.type = .ref
    · have h0 := refCount_cons_ref ht h
      have hv := refValues_of_count h0
      rw [processRefMapping_cons_ref ht]
      have hc := ref_case id (access 0) d r
      generalize processRef id (access 0) d r = p at hc
      cases hc with
      | noString => exact .failed _ _ rfl (.inl rfl)
      | refused => exact .failed _ _ rfl (.inl rfl)
      | failed => exact .failed _ _ rfl (.inr rfl)
      | bound value it hs hf hid =>
        refine .bound value it ?_ hf hid
        simp only [refValues, List.filterMap_cons, refValue_string ht hs]
        exact congrArg (value :: ·) hv
      | loaded value buffer files hs hf hl =>
        simp only [processRefMapping_of_count h0, Except.map]
        refine .loaded value buffer files _ ?_ hf ?_
        · simp only [refValues, List.filterMap_cons, refValue_string ht hs]
          exact congrArg (value :: ·) hv
        · simp only [refValues, List.filterMap_cons, refValue, ht, ↓reduceIte]
          exact congrArg (_ :: ·) hv
    · have hle : refCount data ≤ 1 := by
        simpa [refCount, List.countP_cons, ht] using h
      have hd : ∀ l, refValues (d :: l) = refValues l := by
        intro l
        simp [refValues, refValue_of_type ht]
      rw [processRefMapping_cons_other ht]
      have hc := ih (fun n => access (n + 1)) hle
      generalize processRefMapping id (fun n => access (n + 1)) data r = p at hc
      cases hc with
      | noRef hn => exact .noRef ((hd data).trans hn)
      | bound value it hs hf hid => exact .bound value it ((hd data).trans hs) hf hid
      | loaded value buffer files data' hs hf hs' =>
        exact .loaded value buffer files (d :: data') ((hd data).trans hs) hf ((hd data').trans hs')
      | failed e r' hm hr => exact .failed e r' hm hr

def HasPair (rows : List ReferenceData) (i : Int) (ref : Bytes) : Prop :=
  ∃ x ∈ rows, x.id = i ∧ x.ref = ref

instance (rows : List ReferenceData) (i : Int) (ref : Bytes) : Decidable (HasPair rows i ref) :=
  inferInstanceAs (Decidable (∃ x ∈ rows, x.id = i ∧ x.ref = ref))

theorem hasPair_filter {rows rows' : List ReferenceData} {P : Int → Prop}
    (h : ∀ d, d ∈ rows' ↔ d ∈ rows ∧ P d.id) (i : Int) (ref : Bytes) :
    HasPair rows' i ref ↔ HasPair rows i ref ∧ P i := by
  constructor
  · rintro ⟨x, hx, rfl, rfl⟩
    exact ⟨⟨x, ((h x).mp hx).1, rfl, rfl⟩, ((h x).mp hx).2⟩
  · rintro ⟨⟨x, hx, rfl, rfl⟩, hp⟩
    exact ⟨x, (h x).mpr ⟨hx, hp⟩, rfl, rfl⟩

theorem hasPair_bind {id : Int} {value : Bytes} {r : References} {it : ReferenceData}
    (hf : r.refMapping.find value = some it) :
    HasPair (r.bind id value).refMapping.rows id value := by
  obtain ⟨hit, hv⟩ := KeyedTable.find_eq_some.mp hf
  exact ⟨{ it with id := id }, mem_bind.mpr (.inr ⟨it, hit, hv, rfl⟩), rfl, hv⟩

theorem hasPair_loaded {id : Int} {value buffer : Bytes} {files : Files} {r : References}
    (hfresh : r.Fresh) :
    HasPair (r.loaded id value buffer files).refMapping.rows id (generatedRef r.refCounter) :=
  ⟨_, (mem_loaded_of_fresh hfresh).mpr (.inl rfl), rfl, rfl⟩

theorem SingleCase.newPair {id : Int} {data data' : List Measurement} {r r' : References}
    (hc : SingleCase id data r (.ok data', r'))
    (hfresh : ∀ value ∈ refValues data, r.refMapping.find value = none → r.Fresh) :
    ∀ ref ∈ refValues data', refValues data ≠ [] ∧ HasPair r'.refMapping.rows id ref := by
  intro ref hm
  cases hc with
  | noRef hn =>
    rw [hn] at hm
    cases hm
  | bound value it hs hf hid =>
    rw [hs, List.mem_singleton] at hm
    subst hm
    exact ⟨by simp [hs], hasPair_bind hf⟩
  | loaded value buffer files _ hs hf hs' =>
    rw [hs', List.mem_singleton] at hm
    subst hm
    exact ⟨by simp [hs], hasPair_loaded (hfresh value (by simp [hs]) hf)⟩

theorem SingleCase.pairs {id : Int} {data data' : List Measurement} {r r' : References}
    (hc : SingleCase id data r (.ok data', r')) (hfresh : r.Fresh) (i : Int) (ref : Bytes)
    (hi : i ≠ 0) :
    HasPair r'.refMapping.rows i ref ↔
      HasPair r.refMapping.rows i ref ∨ (i = id ∧ ref ∈ refValues data') := by
  cases hc with
  | noRef hn => simp [hn]
  | bound value it hs hf hid =>
    rw [hs, List.mem_singleton]
    have hit := KeyedTable.find_eq_some.mp hf
    constructor
    · rintro ⟨x, hx, rfl, rfl⟩
      rcases mem_bind.mp hx with ⟨hm, -⟩ | ⟨y, hy, hv, rfl⟩
      · exact .inl ⟨x, hm, rfl, rfl⟩
      · exact .inr ⟨rfl, hv⟩
    · rintro (⟨x, hx, rfl, rfl⟩ | ⟨rfl, rfl⟩)
      · refine ⟨x, mem_bind.mpr (.inl ⟨hx, ?_⟩), rfl, rfl⟩
        rintro rfl
        exact hi (KeyedTable.eq_of_key hx hit.1 hit.2.symm ▸ hid)
      · exact hasPair_bind hf
  | loaded value buffer files _ hs hf hs' =>
    rw [hs', List.mem_singleton]
    constructor
    · rintro ⟨x, hx, rfl, rfl⟩
      rcases (mem_loaded_of_fresh hfresh).mp hx with rfl | hm
      · exact .inr ⟨rfl, rfl⟩
      · exact .inl ⟨x, hm, rfl, rfl⟩
    · rintro (⟨x, hx, rfl, rfl⟩ | ⟨rfl, rfl⟩)
      · exact ⟨x, mem_loaded_of_mem hx, rfl, rfl⟩
      · exact hasPair_loaded hfresh

theorem generatedRef_inj {m n : Nat} (h : generatedRef m = generatedRef n) : m = n :=
  decimal_inj (List.append_cancel_left h)

end QdsBuffer.DataSource
