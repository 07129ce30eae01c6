import QdsBuffer.DataSource.Loaded
import QdsBuffer.DataSource.Rollback

namespace QdsBuffer.DataSource
open Bytes

-- A ProcessRefMapping that returns: every REF measurement before the first bound one is loaded.
inductive Processed (id : Int) :
    References → List Measurement → List Measurement → References → Prop
  | nil (r : References) : Processed id r [] [] r
  | other {d : Measurement} {data ms : List Measurement} {r r' : References} : d.type ≠ .ref →
      Processed id r data ms r' → Processed id r (d :: data) (d :: ms) r'
  | bound {d : Measurement} {value : Bytes} {it : ReferenceData} {r : References}
      (data : List Measurement) : refValue d = some value → r.refMapping.find value = some it →
      it.id = 0 → Processed id r (d :: data) (d :: data) (r.bind id value)
  | loaded {d : Measurement} {value : Bytes} {data ms : List Measurement} {r r' : References}
      (buffer : Bytes) (files : Files) : refValue d = some value →
      r.refMapping.find value = none → Processed id (r.loaded id value buffer files) data ms r' →
      Processed id r (d :: data) ({ d with value := .string (generatedRef r.refCounter) } :: ms) r'

theorem processed_of_ok {id : Int} {access : Nat → FileAccess} {data ms : List Measurement}
    {r r' : References} (h : processRefMapping id access data r = (.ok ms, r')) :
    Processed id r data ms r' := by
  induction data generalizing access ms r with
  | nil =>
    cases h
    exact .nil _
  | cons d data ih =>
    by_cases ht : d.type = .ref
    · rw [processRefMapping_cons_ref ht] at h
      have hc := ref_case id (access 0) d r
      generalize processRef id (access 0) d r = p at hc h
      cases hc with
      | noString => cases h
      | refused => cases h
      | failed => cases h
      | bound value it hv hf h0 =>
        cases h
        exact .bound data (refValue_string ht hv) hf h0
      | loaded value buffer files hv hf hl =>
        obtain ⟨ms', hp, rfl⟩ := map_ok h
        exact .loaded buffer files (refValue_string ht hv) hf (ih hp)
    · rw [processRefMapping_cons_other ht] at h
      obtain ⟨ms', hp, rfl⟩ := map_ok h
      exact .other ht (ih hp)

def Resolves (P : Bytes → Prop) (data : List Measurement) : Prop :=
  ∀ d ∈ data, d.type = .ref → ∃ value, d.value = .string value ∧ P value

def passes (r : References) (d : Measurement) : Bool :=
  match refValue d with
  | some value => !registered r value
  | none => true

def loadedPart (r : References) (data : List Measurement) : List Measurement :=
  data.takeWhile (passes r)

def restPart (r : References) (data : List Measurement) : List Measurement :=
  data.dropWhile (passes r)

-- The names that a call gives to the files it loads, from a value of the counter on.
def newRef : Nat → Nat → Bytes
  | counter, 0 => generatedRef counter
  | counter, n + 1 => newRef ((counter + 1) % 2 ^ 64) n

def HeldBy (id : Int) (r : References) (pre tail : List Measurement) (name : Bytes) : Prop :=
  HasPair r.refMapping.rows id name ∨ tail.head?.bind refValue = some name ∨
    ∃ n < refCount pre, name = newRef r.refCounter n ∧ registered r name = false

def Held (id : Int) (r : References) (data : List Measurement) : Bytes → Prop :=
  HeldBy id r (loadedPart r data) (restPart r data)

def ResolvesAll (id : Int) (r : References) (data : List Measurement) : Prop :=
  (∀ n < refCount (loadedPart r data), Held id r data (newRef r.refCounter n)) ∧
    Resolves (Held id r data) (restPart r data).tail

theorem fresh_iff {r : References} :
    r.Fresh ↔ registered r (generatedRef r.refCounter) = false := by
  rw [← Bool.not_eq_true, registered_iff]
  simp [References.Fresh]

theorem hasPair_loaded_iff {id : Int} {value buffer name : Bytes} {files : Files} {r : References} :
    HasPair (r.loaded id value buffer files).refMapping.rows id name ↔
      HasPair r.refMapping.rows id name ∨
        (name = generatedRef r.refCounter ∧ registered r name = false) := by
  constructor
  · rintro ⟨x, hx, hid, rfl⟩
    by_cases hfresh : r.Fresh
    · rcases (mem_loaded_of_fresh hfresh).mp hx with rfl | hold
      · exact .inr ⟨rfl, fresh_iff.mp hfresh⟩
      · exact .inl ⟨x, hold, hid, rfl⟩
    · rw [loaded_of_not_fresh hfresh] at hx
      exact .inl ⟨x, hx, hid, rfl⟩
  · rintro (⟨x, hx, hid, rfl⟩ | ⟨rfl, hreg⟩)
    · exact ⟨x, mem_loaded_of_mem hx, hid, rfl⟩
    · exact hasPair_loaded (fresh_iff.mpr hreg)

theorem hasPair_bind_iff {id : Int} {value name : Bytes} {r : References} {it : ReferenceData}
    (hf : r.refMapping.find value = some it) :
    HasPair (r.bind id value).refMapping.rows id name ↔
      HasPair r.refMapping.rows id name ∨ name = value := by
  constructor
  · rintro ⟨x, hx, hid, rfl⟩
    rcases mem_bind.mp hx with ⟨hold, -⟩ | ⟨y, -, hy, rfl⟩
    · exact .inl ⟨x, hold, hid, rfl⟩
    · exact .inr hy
  · rintro (⟨x, hx, hid, rfl⟩ | rfl)
    · by_cases hx' : x.ref = value
      · rw [hx']
        exact hasPair_bind hf
      · exact ⟨x, mem_bind.mpr (.inl ⟨hx, hx'⟩), hid, rfl⟩
    · exact hasPair_bind hf

theorem registered_of_loaded {id : Int} {value buffer name : Bytes} {files : Files} {r : References}
    (h : registered r name = true) : registered (r.loaded id value buffer files) name = true := by
  obtain ⟨x, hx, rfl⟩ := registered_iff.mp h
  exact registered_iff.mpr ⟨x, mem_loaded_of_mem hx, rfl⟩

theorem registered_loaded {id : Int} {value buffer name : Bytes} {files : Files} {r : References}
    (h : registered (r.loaded id value buffer files) name = true) :
    registered r name = true ∨ name = generatedRef r.refCounter := by
  obtain ⟨x, hx, rfl⟩ := registered_iff.mp h
  rcases mem_loaded hx with hold | rfl
  · exact .inl (registered_iff.mpr ⟨x, hold, rfl⟩)
  · exact .inr rfl

theorem passes_of_loaded {id : Int} {value buffer : Bytes} {files : Files} {r : References}
    {d : Measurement} (h : passes (r.loaded id value buffer files) d = true) :
    passes r d = true := by
  unfold passes at h ⊢
  cases hv : refValue d with
  | none => rfl
  | some w =>
    simp only [hv, Bool.not_eq_true', ← Bool.not_eq_true] at h ⊢
    exact fun hreg => h (registered_of_loaded hreg)

theorem refCount_ref {d : Measurement} (ht : d.type = .ref) (pre : List Measurement) :
    refCount (d :: pre) = refCount pre + 1 := by
  simp [refCount, ht]

theorem heldBy_loaded {id : Int} {value buffer : Bytes} {files : Files} {r : References}
    {d : Measurement} {pre tail : List Measurement} (ht : d.type = .ref) (name : Bytes) :
    HeldBy id (r.loaded id value buffer files) pre tail name ↔ HeldBy id r (d :: pre) tail name := by
  simp only [HeldBy, hasPair_loaded_iff, refCount_ref ht]
  constructor
  · rintro ((hp | ⟨hn, hreg⟩) | hstop | ⟨n, hlt, hn, hreg⟩)
    · exact .inl hp
    · exact .inr (.inr ⟨0, Nat.succ_pos _, hn, hreg⟩)
    · exact .inr (.inl hstop)
    · refine .inr (.inr ⟨n + 1, Nat.succ_lt_succ hlt, hn, ?_⟩)
      rw [← Bool.not_eq_true] at hreg ⊢
      exact fun h => hreg (registered_of_loaded h)
  · rintro (hp | hstop | ⟨n, hlt, hn, hreg⟩)
    · exact .inl (.inl hp)
    · exact .inr (.inl hstop)
    · cases n with
      | zero => exact .inl (.inr ⟨hn, hreg⟩)
      | succ n =>
        by_cases hl : registered (r.loaded id value buffer files) name = true
        · rcases registered_loaded hl with h | h
          · rw [hreg] at h
            cases h
          · exact .inl (.inr ⟨h, hreg⟩)
        · exact .inr (.inr ⟨n, Nat.lt_of_succ_lt_succ hlt, hn, Bool.not_eq_true _ ▸ hl⟩)

structure Split (id : Int) (r : References) (data ms : List Measurement) (r' : References)
    (pre tail pre' : List Measurement) : Prop where
  dataEq : data = pre ++ tail
  msEq : ms = pre' ++ tail
  passed : ∀ d ∈ pre, passes r d = true
  stops : ∀ d ∈ tail.head?, ∃ value it, refValue d = some value ∧
    r.refMapping.find value = some it ∧ it.id = 0
  names : ∀ P, Resolves P pre' ↔ ∀ n < refCount pre, P (newRef r.refCounter n)
  pairs : ∀ name, HasPair r'.refMapping.rows id name ↔ HeldBy id r pre tail name

theorem resolves_cons {P : Bytes → Prop} {d : Measurement} {data : List Measurement} :
    Resolves P (d :: data) ↔
      (d.type = .ref → ∃ value, d.value = .string value ∧ P value) ∧ Resolves P data :=
  List.forall_mem_cons

theorem Split.other {id : Int} {r r' : References} {d : Measurement}
    {data ms pre tail pre' : List Measurement} (ht : d.type ≠ .ref)
    (h : Split id r data ms r' pre tail pre') :
    Split id r (d :: data) (d :: ms) r' (d :: pre) tail (d :: pre') where
  dataEq := by rw [h.dataEq, List.cons_append]
  msEq := by rw [h.msEq, List.cons_append]
  passed := by
    refine List.forall_mem_cons.mpr ⟨?_, h.passed⟩
    simp [passes, refValue_of_type ht]
  stops := h.stops
  names := by
    intro P
    rw [resolves_cons, h.names]
    simp [ht, refCount]
  pairs := by
    intro name
    rw [h.pairs]
    simp [HeldBy, refCount, ht]

theorem Split.loaded {id : Int} (h0 : id ≠ 0) {r r' : References} {d : Measurement}
    {value buffer : Bytes} {files : Files} {data ms pre tail pre' : List Measurement}
    (hv : refValue d = some value) (hf : r.refMapping.find value = none)
    (h : Split id (r.loaded id value buffer files) data ms r' pre tail pre') :
    Split id r (d :: data) ({ d with value := .string (generatedRef r.refCounter) } :: ms) r'
      (d :: pre) tail ({ d with value := .string (generatedRef r.refCounter) } :: pre') where
  dataEq := by rw [h.dataEq, List.cons_append]
  msEq := by rw [h.msEq, List.cons_append]
  passed := by
    refine List.forall_mem_cons.mpr ⟨?_, fun x hx => passes_of_loaded (h.passed x hx)⟩
    simp [passes, hv, registered, hf]
  stops := by
    intro x hx
    obtain ⟨w, it, hw, hfind, hid⟩ := h.stops x hx
    obtain ⟨hit, hiw⟩ := KeyedTable.find_eq_some.mp hfind
    refine ⟨w, it, hw, KeyedTable.find_eq_some.mpr ⟨?_, hiw⟩, hid⟩
    rcases mem_loaded hit with hold | rfl
    · exact hold
    · exact absurd hid h0
  names := by
    intro P
    have ht := type_of_refValue hv
    rw [resolves_cons, h.names, refCount_ref ht]
    constructor
    · rintro ⟨hfirst, hrest⟩ n hn
      cases n with
      | zero =>
        obtain ⟨w, hw, hp⟩ := hfirst ht
        cases hw
        exact hp
      | succ n => exact hrest n (Nat.lt_of_succ_lt_succ hn)
    · intro hall
      refine ⟨fun _ => ⟨_, rfl, hall 0 (Nat.succ_pos _)⟩, ?_⟩
      intro n hn
      exact hall (n + 1) (Nat.succ_lt_succ hn)
  pairs := by
    intro name
    rw [h.pairs, heldBy_loaded (type_of_refValue hv)]

theorem Processed.split {id : Int} (h0 : id ≠ 0) {r r' : References} {data ms : List Measurement}
    (h : Processed id r data ms r') : ∃ pre tail pre', Split id r data ms r' pre tail pre' := by
  induction h with
  | nil r =>
    refine ⟨[], [], [], rfl, rfl, by simp, by simp, ?_, ?_⟩
    · simp [Resolves, refCount]
    · simp [HeldBy, refCount]
  | other ht h ih =>
    obtain ⟨pre, tail, pre', hs⟩ := ih
    exact ⟨_, _, _, hs.other ht⟩
  | @bound d value it r data hv hf hid =>
    refine ⟨[], d :: data, [], rfl, rfl, by simp, ?_, ?_, ?_⟩
    · simpa using ⟨value, hv, it, hf, hid⟩
    · simp [Resolves, refCount]
    · intro name
      have hstop : (d :: data).head?.bind refValue = some name ↔ name = value := by
        simp [hv, eq_comm]
      rw [hasPair_bind_iff hf, HeldBy, hstop]
      simp [refCount]
  | loaded buffer files hv hf h ih =>
    obtain ⟨pre, tail, pre', hs⟩ := ih
    exact ⟨_, _, _, hs.loaded h0 hv hf⟩

theorem Split.parts {id : Int} {r r' : References} {data ms pre tail pre' : List Measurement}
    (h : Split id r data ms r' pre tail pre') : loadedPart r data = pre ∧ restPart r data = tail := by
  have hstop : ∀ d ∈ tail.head?, passes r d = false := by
    intro d hd
    obtain ⟨value, it, hv, hf, -⟩ := h.stops d hd
    simp [passes, hv, registered, hf]
  rw [loadedPart, restPart, h.dataEq, List.takeWhile_append_of_pos h.passed,
    List.dropWhile_append_of_pos h.passed]
  cases tail with
  | nil => simp
  | cons d tail =>
    have hd : passes r d = false := hstop d rfl
    simp [hd]

theorem references_resolved_iff (id : Int) (access : Nat → FileAccess) (data ms : List Measurement)
    (r r' : References) (h0 : id ≠ 0) (h : processRefMapping id access data r = (.ok ms, r')) :
    Resolves (HasPair r'.refMapping.rows id) ms ↔ ResolvesAll id r data := by
  obtain ⟨pre, tail, pre', hs⟩ := (processed_of_ok h).split h0
  obtain ⟨hpre, htail⟩ := hs.parts
  have hp : HasPair r'.refMapping.rows id = HeldBy id r pre tail := by
    funext name
    exact propext (hs.pairs name)
  have happ : Resolves (HeldBy id r pre tail) ms ↔
      Resolves (HeldBy id r pre tail) pre' ∧ Resolves (HeldBy id r pre tail) tail := by
    rw [hs.msEq]
    exact List.forall_mem_append
  rw [hp, happ, hs.names, ResolvesAll, Held, hpre, htail]
  refine and_congr_right (fun _ => ?_)
  cases tail with
  | nil => rfl
  | cons d tail =>
    obtain ⟨value, it, hv, -, -⟩ := hs.stops d rfl
    rw [resolves_cons, List.tail_cons]
    refine and_iff_right ?_
    intro _
    exact ⟨value, string_of_refValue hv, .inr (.inl hv)⟩

theorem second_reference_unresolved :
    let access : Nat → FileAccess := fun _ => ⟨true, true, true, true⟩
    let r := (run ⟨2, 0, true, 0, 1⟩ id (fun _ => none)
      [.setReference (ascii "r") [] [], .setReference (ascii "q") [] []]).refs
    let data : List Measurement :=
      [⟨ascii "a", .ref, [], .string (ascii "r")⟩, ⟨ascii "b", .ref, [], .string (ascii "q")⟩]
    let p := processRefMapping 1 access data r
    p.1 = .ok data ∧ ¬ Resolves (HasPair p.2.refMapping.rows 1) data := by
  intro access r data p
  refine ⟨rfl, ?_⟩
  intro h
  obtain ⟨value, hv, hp⟩ := h ⟨ascii "b", .ref, [], .string (ascii "q")⟩ (by decide) rfl
  cases hv
  exact absurd hp (by decide)

-- A file is loaded and a registered reference is assigned in one list.
theorem references_resolved_iff_loaded_bound :
    let access : Nat → FileAccess := fun _ => ⟨true, true, true, true⟩
    let r : References := ⟨KeyedTable.empty.emplace ⟨0, ascii "r", [], []⟩, 0,
      fun path => if path = ascii "f" then some [65] else none⟩
    let data (first : Bytes) : List Measurement := [⟨ascii "a", .ref, [], .string first⟩,
      ⟨ascii "b", .string, [], .string (ascii "c")⟩, ⟨ascii "d", .ref, [], .string (ascii "r")⟩]
    let p := processRefMapping 1 access (data (ascii "f")) r
    Resolves (HasPair p.2.refMapping.rows 1) (data (ascii "ref-0")) ↔
      ResolvesAll 1 r (data (ascii "f")) :=
  references_resolved_iff 1 (fun _ => ⟨true, true, true, true⟩) _ _ _ _ (by decide) rfl

end QdsBuffer.DataSource
