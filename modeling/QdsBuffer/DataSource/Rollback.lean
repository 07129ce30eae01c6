import QdsBuffer.DataSource.Invariant
import QdsBuffer.DataSource.SingleRef

namespace QdsBuffer.DataSource
open RingBuffer Bytes

variable {cfg : Config} {clock : Nat → Nat}

def RestoresReferences (s s' : DataSource) : Prop :=
  ∀ ref, (∀ e ∈ entries s, e ∉ entries s' → ref ∉ refValues e.measurements) →
    s'.refs.refMapping.find ref = s.refs.refMapping.find ref

def registered (r : References) (value : Bytes) : Bool := (r.refMapping.find value).isSome

def assigned (r : References) (data : List Measurement) : Option Bytes :=
  (refValues data).find? (registered r)

def RollbackErases (cfg : Config) (s : DataSource) (id : Int) (data : List Measurement)
    (d : ReferenceData) : Prop :=
  d.id = id ∨ (∃ v ∈ victim cfg.ring (entries s), d.id = v.id) ∨
    (d.id = 0 ∧ assigned s.refs data = some d.ref)

def Extends (id : Int) (r r' : References) : Prop :=
  (∀ x ∈ r.refMapping.rows, x ∈ r'.refMapping.rows) ∧
    ∀ x ∈ r'.refMapping.rows, x ∈ r.refMapping.rows ∨ x.id = id

theorem Extends.refl (id : Int) (r : References) : Extends id r r :=
  ⟨fun _ hx => hx, fun _ hx => .inl hx⟩

theorem Extends.loaded {id : Int} {r r' : References} (h : Extends id r r')
    (value buffer : Bytes) (files : Files) : Extends id r (r'.loaded id value buffer files) := by
  refine ⟨fun x hx => mem_loaded_of_mem (h.1 x hx), ?_⟩
  intro x hx
  rcases mem_loaded hx with hm | rfl
  · exact h.2 x hm
  · exact .inr rfl

theorem registered_iff {r : References} {value : Bytes} :
    registered r value = true ↔ ∃ x ∈ r.refMapping.rows, x.ref = value := by
  rw [registered, Option.isSome_iff_exists]
  simp only [KeyedTable.find_eq_some]

theorem assigned_cons_ref {r : References} {d : Measurement} {data : List Measurement}
    {value : Bytes} (hv : refValue d = some value) :
    assigned r (d :: data) = if registered r value then some value else assigned r data := by
  simp only [assigned, refValues, List.filterMap_cons, hv, List.find?_cons]
  cases registered r value <;> rfl

theorem assigned_cons_other {r : References} {d : Measurement} {data : List Measurement}
    (hv : refValue d = none) : assigned r (d :: data) = assigned r data := by
  simp only [assigned, refValues, List.filterMap_cons, hv]

theorem map_ok {p : Except Exception (List Measurement) × References} {r' : References}
    {f : List Measurement → List Measurement} {ms : List Measurement}
    (h : (p.1.map f, p.2) = (.ok ms, r')) : ∃ ms', p = (.ok ms', r') ∧ f ms' = ms := by
  obtain ⟨res, r⟩ := p
  cases res with
  | error e => cases (Prod.mk.inj h).1
  | ok ms' =>
    cases h
    exact ⟨ms', rfl, rfl⟩

-- r is the table of the Add's start and r₁ that of the turn: loaded files have only added rows of id.
theorem processRefMapping_assigns {id : Int} {access : Nat → FileAccess} {data ms : List Measurement}
    {r r₁ r' : References} (h : processRefMapping id access data r₁ = (.ok ms, r'))
    (h0 : id ≠ 0) (he : Extends id r r₁) {x : ReferenceData} (hx : x ∈ r.refMapping.rows) :
    (assigned r data = some x.ref → { x with id := id } ∈ r'.refMapping.rows) ∧
    (assigned r data ≠ some x.ref → x ∈ r'.refMapping.rows) := by
  induction data generalizing access r₁ ms with
  | nil =>
    obtain ⟨-, rfl⟩ := Prod.mk.inj h
    exact ⟨fun ha => by simp [assigned, refValues] at ha, fun _ => he.1 x hx⟩
  | cons d data ih =>
    by_cases ht : d.type = .ref
    · rw [processRefMapping_cons_ref ht] at h
      have hc := ref_case id (access 0) d r₁
      generalize processRef id (access 0) d r₁ = p at h hc
      cases hc with
      | noString => cases (Prod.mk.inj h).1
      | refused => cases (Prod.mk.inj h).1
      | failed => cases (Prod.mk.inj h).1
      | bound value it hv hf hid =>
        obtain ⟨-, rfl⟩ := Prod.mk.inj h
        have hit := KeyedTable.find_eq_some.mp hf
        have hold : it ∈ r.refMapping.rows :=
          (he.2 it hit.1).resolve_right (fun heq => h0 (heq.symm.trans hid))
        rw [assigned_cons_ref (refValue_string ht hv),
          if_pos (registered_iff.mpr ⟨it, hold, hit.2⟩)]
        constructor
        · intro ha
          exact mem_bind.mpr (.inr ⟨x, he.1 x hx, (Option.some.inj ha).symm, rfl⟩)
        · intro ha
          exact mem_bind.mpr (.inl ⟨he.1 x hx, fun heq => ha (congrArg some heq.symm)⟩)
      | loaded value buffer files hv hf hl =>
        have hnot : ¬ registered r value = true := by
          rintro hreg
          obtain ⟨y, hy, rfl⟩ := registered_iff.mp hreg
          exact KeyedTable.find_eq_none.mp hf y (he.1 y hy) rfl
        rw [assigned_cons_ref (refValue_string ht hv), if_neg hnot]
        obtain ⟨ms', hp, -⟩ := map_ok h
        exact ih hp (he.loaded value buffer files)
    · rw [processRefMapping_cons_other ht] at h
      rw [assigned_cons_other (refValue_of_type ht)]
      obtain ⟨ms', hp, -⟩ := map_ok h
      exact ih hp he

theorem mem_rows_rollback (clock : Nat → Nat) {s : DataSource} {id : Int} {access : Nat → FileAccess}
    {data ms : List Measurement} {refs : References} (hwf : WellFormed cfg.ring s.buffer)
    (hp : processRefMapping id access data s.refs = (.ok ms, refs))
    (hr : Refuses cfg.ring (entries s) id) (d : ReferenceData) :
    d ∈ rows (pushMeasurements cfg clock id ms { s with refs := refs }).2 ↔
      d ∈ rows s ∧ ¬ RollbackErases cfg s id data d := by
  have hrows := (push_refused_effect (s := { s with refs := refs }) clock ms hwf hr).2.2 d
  rw [hrows]
  constructor
  · rintro ⟨hd, hid, hv⟩
    have hold : d ∈ rows s := (processRefMapping_origin hp hd).resolve_right hid
    refine ⟨hold, ?_⟩
    rintro (heq | ⟨v, hm, heq⟩ | ⟨hz, ha⟩)
    · exact hid heq
    · exact hv v hm heq
    · have h0 : id ≠ 0 := fun heq => hid (hz.trans heq.symm)
      have hnew := (processRefMapping_assigns hp h0 (Extends.refl id s.refs) hold).1 ha
      have heq : d = { d with id := id } := KeyedTable.eq_of_key hd hnew rfl
      exact hid (congrArg ReferenceData.id heq)
  · rintro ⟨hold, hn⟩
    simp only [RollbackErases, not_or, not_exists, not_and] at hn
    obtain ⟨hid, hv, ha⟩ := hn
    refine ⟨?_, hid, hv⟩
    by_cases h0 : d.id = 0
    · have hne : id ≠ 0 := fun heq => hid (h0.trans heq.symm)
      exact (processRefMapping_assigns hp hne (Extends.refl id s.refs) hold).2 (ha h0)
    · exact processRefMapping_keeps hp hold (.inl h0)

theorem evicted_iff {b : List BufferEntry} (hn : (ids b).Nodup) {e : BufferEntry} :
    (e ∈ b ∧ e ∉ remaining cfg.ring b) ↔ e ∈ victim cfg.ring b := by
  rw [mem_remaining hn]
  constructor
  · rintro ⟨he, hm⟩
    simp only [he, true_and, not_forall, not_not] at hm
    obtain ⟨v, hv, heq⟩ := hm
    rwa [eq_of_id hn he (victim_mem hv).1 heq]
  · intro he
    exact ⟨(victim_mem he).1, fun hm => hm.2 e he rfl⟩

theorem restores_iff {s s' : DataSource} {P : ReferenceData → Prop} (hn : (ids (entries s)).Nodup)
    (hent : entries s' = remaining cfg.ring (entries s))
    (hrows : ∀ d, d ∈ rows s' ↔ d ∈ rows s ∧ ¬ P d) :
    RestoresReferences s s' ↔
      ∀ d ∈ rows s, P d → ∃ v ∈ victim cfg.ring (entries s), d.ref ∈ refValues v.measurements := by
  constructor
  · intro h d hds hl
    by_contra hnone
    have hfind := h d.ref (by
      intro e he hout hm
      rw [hent] at hout
      exact hnone ⟨e, (evicted_iff hn).mp ⟨he, hout⟩, hm⟩)
    rw [KeyedTable.find_eq_some.mpr ⟨hds, rfl⟩] at hfind
    exact ((hrows d).mp (KeyedTable.find_eq_some.mp hfind).1).2 hl
  · intro h ref hout
    apply KeyedTable.find_congr
    rintro d rfl
    refine ⟨fun hm => ((hrows d).mp hm).1, ?_⟩
    intro hds
    refine (hrows d).mpr ⟨hds, ?_⟩
    intro hl
    obtain ⟨v, hv, hm⟩ := h d hds hl
    obtain ⟨he, hgone⟩ := (evicted_iff hn).mpr hv
    exact hout v he (hent ▸ hgone) hm

theorem rollback_restores_iff (cfg : Config) (clock : Nat → Nat) (files : Files) (ops : List Op)
    (id : Int) (json : Parsing.JsonParser.Delivery) (access : Nat → FileAccess)
    (data ms : List Measurement) (refs : References)
    (hd : parse json = .ok data)
    (hp : processRefMapping id access data (run cfg clock files ops).refs = (.ok ms, refs))
    (hr : refused (add cfg clock id json access (run cfg clock files ops)).1 = true) :
    let s := run cfg clock files ops
    RestoresReferences s (add cfg clock id json access s).2 ↔
      ∀ d ∈ rows s, RollbackErases cfg s id data d →
        ∃ v ∈ victim cfg.ring (entries s), d.ref ∈ refValues v.measurements := by
  intro s
  have hwf := run_wellFormed cfg clock files ops
  have hadd : add cfg clock id json access s =
      pushMeasurements cfg clock id ms { s with refs := refs } := by
    simp only [add, hd, s, hp]
  rw [hadd] at hr ⊢
  have href : Refuses cfg.ring (entries s) id := by
    by_contra hn
    have hacc := (push_accepted_effect (s := { s with refs := refs }) clock ms hwf hn).1
    simp only [failed_of_refused hr, Bool.true_eq_false] at hacc
  exact restores_iff hwf.order.nodup
    (push_refused_effect (s := { s with refs := refs }) clock ms hwf href).2.1
    (mem_rows_rollback clock hwf hp href)

theorem rollback_loses_reference :
    let access : Nat → FileAccess := fun _ => ⟨true, true, true, true⟩
    let s := run ⟨2, 0, true, 0, 1⟩ id (fun _ => none)
      [.setReference (ascii "r") [] [], .setReference (ascii "q") [] [],
        .add 1 (refDocument (ascii "r")) access]
    let p := add ⟨2, 0, true, 0, 1⟩ id 1 (refDocument (ascii "q")) access s
    (processRefMapping 1 access [⟨ascii "a", .ref, [], .string (ascii "q")⟩] s.refs).1 =
      .ok [⟨ascii "a", .ref, [], .string (ascii "q")⟩] ∧
    refused p.1 = true ∧ entries p.2 = entries s ∧ ¬ RestoresReferences s p.2 := by
  refine ⟨rfl, rfl, rfl, ?_⟩
  intro h
  have hr := h (ascii "r") (fun e he hout => absurd he hout)
  exact absurd hr (by decide)

theorem rollback_restores_iff_repeated_id :
    let access : Nat → FileAccess := fun _ => ⟨true, true, true, true⟩
    let ops := [.add 1 emptyDocument access, .setReference (ascii "q") [] []]
    let s := run ⟨2, 0, true, 0, 1⟩ id (fun _ => none) ops
    RestoresReferences s (add ⟨2, 0, true, 0, 1⟩ id 1 (refDocument (ascii "q")) access s).2 ↔
      ∀ d ∈ rows s, RollbackErases ⟨2, 0, true, 0, 1⟩ s 1
          [⟨ascii "a", .ref, [], .string (ascii "q")⟩] d →
        ∃ v ∈ victim (Config.ring ⟨2, 0, true, 0, 1⟩) (entries s), d.ref ∈ refValues v.measurements :=
  rollback_restores_iff _ _ _ _ _ _ _ _ _ _ (parse_refDocument (ascii "q")) rfl rfl

end QdsBuffer.DataSource
