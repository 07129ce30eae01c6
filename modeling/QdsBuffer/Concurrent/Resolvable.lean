import QdsBuffer.Concurrent.Basic
import QdsBuffer.DataSource.Assigned
import QdsBuffer.DataSource.Loaded

namespace QdsBuffer.Concurrent
open DataSource RingBuffer Bytes

variable {cfg : DataSource.Config} {clock : Nat → Nat}

def addId : DataSource.Op → Option Int
  | .add id _ _ => some id
  | _ => none

def Thread.pending : Thread → Option Int
  | .ready op => addId op
  | .processing id _ _ _ => some id
  | .pushing id _ => some id
  | .rollback id => some id
  | .finished => none

def Thread.bound : Thread → List Bytes
  | .processing _ _ done _ => refValues done
  | .pushing _ measurement => refValues measurement
  | _ => []

def Resolvable (s : DataSource) : Prop :=
  ∀ e ∈ entries s, ∀ ref ∈ refValues e.measurements, HasPair (rows s) e.id ref

-- A Reset that clears the table comes at no moment at which an Add holds a reference, a file is
-- loaded under a new name, and no REF measurement that is left unprocessed names a foreign element.
def Undisturbed (sys : System) (i : Nat) : Prop :=
  match sys.threads[i]? with
  | some (.ready (.reset _)) =>
    entries sys.source = [] ∨ ∀ t ∈ sys.threads, t.bound = []
  | some (.processing id access _ (d :: todo)) =>
    ∀ value, refValue d = some value →
      match sys.source.refs.refMapping.find value with
      | none =>
        (access 0).fopen = true → (loadFile (access 0) sys.source.refs.files value).isOk = true →
          sys.source.refs.Fresh
      | some it => it.id = 0 → ∀ ref ∈ refValues todo, ref = value ∨ HasPair (rows sys.source) id ref
  | _ => True

structure InFlight (cfg : DataSource.Config) (sys : System) : Prop where
  wellFormed : WellFormed cfg.ring sys.source.buffer
  assigned : Assigned (entries sys.source) (rows sys.source)
  pending : ∀ (i : Nat) (t : Thread), sys.threads[i]? = some t → ∀ id ∈ t.pending,
    id ≠ 0 ∧ id ∉ ids (entries sys.source)
  distinct : ∀ (i j : Nat) (t u : Thread), sys.threads[i]? = some t → sys.threads[j]? = some u → i ≠ j →
    ∀ id ∈ t.pending, id ∉ u.pending
  bound : ∀ (i : Nat) (t : Thread), sys.threads[i]? = some t → ∀ ref ∈ t.bound,
    ∃ id ∈ t.pending, HasPair (rows sys.source) id ref

theorem InFlight.held {sys : System} {i : Nat} {t : Thread} {id : Int} (h : InFlight cfg sys)
    (hi : sys.threads[i]? = some t) (hp : t.pending = some id) :
    ∀ ref ∈ t.bound, HasPair (rows sys.source) id ref := by
  intro ref href
  obtain ⟨id', hid', hpair⟩ := h.bound i t hi ref href
  rw [hp] at hid'
  cases hid'
  exact hpair

theorem InFlight.set {sys : System} {i : Nat} {t t' : Thread} {s' : DataSource}
    (h : InFlight cfg sys) (hi : sys.threads[i]? = some t)
    (hwf : WellFormed cfg.ring s'.buffer) (ha : Assigned (entries s') (rows s'))
    (hown : ∀ id ∈ t'.pending, id ∈ t.pending ∧ id ∉ ids (entries s'))
    (hids : ∀ id ∈ ids (entries s'), id ∈ ids (entries sys.source) ∨ id ∈ t.pending)
    (hrows : ∀ j u, j ≠ i → sys.threads[j]? = some u → ∀ ref ∈ u.bound, ∀ id ∈ u.pending,
      HasPair (rows sys.source) id ref → HasPair (rows s') id ref)
    (hbound : ∀ ref ∈ t'.bound, ∃ id ∈ t'.pending, HasPair (rows s') id ref) :
    InFlight cfg ⟨s', sys.threads.set i t'⟩ where
  wellFormed := hwf
  assigned := ha
  pending := by
    intro j u hj id hid
    rcases LockOrder.getElem?_set_cases hj with ⟨rfl, rfl⟩ | ⟨hne, hu⟩
    · obtain ⟨hmem, hnot⟩ := hown id hid
      exact ⟨(h.pending j t hi id hmem).1, hnot⟩
    · obtain ⟨h0, hnot⟩ := h.pending j u hu id hid
      refine ⟨h0, ?_⟩
      intro hin
      rcases hids id hin with hold | hmine
      · exact hnot hold
      · exact h.distinct j i u t hu hi hne id hid hmine
  distinct := by
    intro j k u v hj hk hjk id hid hid'
    rcases LockOrder.getElem?_set_cases hj with ⟨rfl, rfl⟩ | ⟨hne, hu⟩
    · rcases LockOrder.getElem?_set_cases hk with ⟨rfl, rfl⟩ | ⟨hne', hv⟩
      · exact hjk rfl
      · exact h.distinct j k t v hi hv hjk id (hown id hid).1 hid'
    · rcases LockOrder.getElem?_set_cases hk with ⟨rfl, rfl⟩ | ⟨hne', hv⟩
      · exact h.distinct j k u t hu hi hjk id hid (hown id hid').1
      · exact h.distinct j k u v hu hv hjk id hid hid'
  bound := by
    intro j u hj ref href
    rcases LockOrder.getElem?_set_cases hj with ⟨rfl, rfl⟩ | ⟨hne, hu⟩
    · exact hbound ref href
    · obtain ⟨id, hid, hp⟩ := h.bound j u hu ref href
      exact ⟨id, hid, hrows j u hne hu ref href id hid hp⟩

theorem hasPair_mono {rows rows' : List ReferenceData} {id : Int} {ref : Bytes}
    (h : ∀ d ∈ rows, d.id = id → d ∈ rows') (hp : HasPair rows id ref) : HasPair rows' id ref := by
  obtain ⟨x, hx, hid, href⟩ := hp
  exact ⟨x, h x hx hid, hid, href⟩

theorem other_ids {s : DataSource} {op : DataSource.Op} (hop : ¬ IsAdd op)
    (hwf : WellFormed cfg.ring s.buffer) :
    ∀ id ∈ ids (entries (DataSource.step cfg clock s op)), id ∈ ids (entries s) := by
  intro id hid
  cases op with
  | add => exact absurd trivial hop
  | setReference ref data dataFormat =>
    rwa [DataSource.step, entries, setReference_buffer] at hid
  | delete id' =>
    rw [DataSource.step, (delete_effect id' hwf).1] at hid
    exact (List.eraseP_sublist.map _).subset hid
  | reset reason =>
    rw [DataSource.step, (reset_effect cfg clock reason s).1] at hid
    cases hid
  | setLocked index locked =>
    rw [← ids_modify (entries s) index locked]
    exact hid
  | acknowledgeReset => exact hid
  | acknowledgeOverflow => exact hid
  | changeFiles files => exact hid

theorem other_rows {s : DataSource} {op : DataSource.Op} (hop : ¬ IsAdd op)
    (hreset : ∀ reason, op = .reset reason → entries s = [])
    (hwf : WellFormed cfg.ring s.buffer) {d : ReferenceData} (hd : d ∈ rows s)
    (hid : d.id ∉ ids (entries s)) : d ∈ rows (DataSource.step cfg clock s op) := by
  cases op with
  | add => exact absurd trivial hop
  | setReference ref data dataFormat =>
    simp only [DataSource.step, setReference]
    cases hf : s.refs.refMapping.find ref with
    | some it => exact hd
    | none => exact (KeyedTable.mem_emplace (KeyedTable.find_eq_none.mp hf)).mpr (.inr hd)
  | delete id' =>
    exact ((delete_effect id' hwf).2 d).mpr ⟨hd, fun hin heq => hid (heq ▸ hin)⟩
  | reset reason =>
    exact ((reset_effect cfg clock reason s).2 d).mpr ⟨hd, hreset reason rfl⟩
  | setLocked index locked => exact hd
  | acknowledgeReset => exact hd
  | acknowledgeOverflow => exact hd
  | changeFiles files => exact hd

theorem InFlight.other {sys : System} {i : Nat} {op : DataSource.Op} (h : InFlight cfg sys)
    (clock : Nat → Nat) (hi : sys.threads[i]? = some (.ready op)) (hop : ¬ IsAdd op)
    (hok : Undisturbed sys i) :
    InFlight cfg ⟨DataSource.step cfg clock sys.source op, sys.threads.set i .finished⟩ := by
  refine h.set hi (ring_invariant clock sys.source op h.wellFormed)
    (step_assigned_of_not_add clock hop h.wellFormed h.assigned) (by simp [Thread.pending])
    (fun id hid => .inl (other_ids hop h.wellFormed id hid)) ?_ (by simp [Thread.bound])
  intro j u _ hu ref href id hid hp
  obtain ⟨-, hnot⟩ := h.pending j u hu id hid
  refine hasPair_mono ?_ hp
  rintro d hd rfl
  refine other_rows hop ?_ h.wellFormed hd hnot
  rintro reason rfl
  simp only [Undisturbed, hi] at hok
  rcases hok with hempty | hnone
  · exact hempty
  · rw [hnone u (List.mem_of_getElem? hu)] at href
    cases href

theorem InFlight.pass {sys : System} {i : Nat} {t t' : Thread} (h : InFlight cfg sys)
    (hi : sys.threads[i]? = some t) (hown : ∀ id ∈ t'.pending, id ∈ t.pending)
    (hbound : ∀ ref ∈ t'.bound, ref ∈ t.bound) (hsame : t'.bound ≠ [] → t'.pending = t.pending) :
    InFlight cfg ⟨sys.source, sys.threads.set i t'⟩ := by
  refine h.set hi h.wellFormed h.assigned ?_ (fun id hid => .inl hid)
    (fun j u _ _ ref _ id _ hp => hp) ?_
  · intro id hid
    exact ⟨hown id hid, (h.pending i t hi id (hown id hid)).2⟩
  · intro ref href
    rw [hsame (List.ne_nil_of_mem href)]
    exact h.bound i t hi ref (hbound ref href)

theorem InFlight.refs {sys : System} {i : Nat} {t t' : Thread} {r' : References}
    (h : InFlight cfg sys) (hi : sys.threads[i]? = some t)
    (hkeep : ∀ d ∈ rows sys.source, d.id ≠ 0 → d ∈ r'.refMapping.rows)
    (hown : ∀ id ∈ t'.pending, id ∈ t.pending)
    (hbound : ∀ ref ∈ t'.bound, ∃ id ∈ t'.pending, HasPair r'.refMapping.rows id ref) :
    InFlight cfg ⟨{ sys.source with refs := r' }, sys.threads.set i t'⟩ := by
  refine h.set hi h.wellFormed ?_ ?_ (fun id hid => .inl hid) ?_ hbound
  · exact assigned_mono h.assigned (fun _ he => he) (fun _ _ d hd _ h0 => hkeep d hd h0)
  · intro id hid
    exact ⟨hown id hid, (h.pending i t hi id (hown id hid)).2⟩
  · intro j u _ hu ref _ id hid hp
    refine hasPair_mono ?_ hp
    rintro d hd rfl
    exact hkeep d hd (h.pending j u hu d.id hid).1

theorem refValues_append (a b : List Measurement) :
    refValues (a ++ b) = refValues a ++ refValues b := List.filterMap_append

theorem refValues_cons_string {d : Measurement} {value : Bytes} (h : refValue d = some value)
    (data : List Measurement) : refValues (d :: data) = value :: refValues data := by
  simp [refValues, h]

theorem InFlight.refBound {sys : System} {i : Nat} {id : Int} {access : Nat → FileAccess}
    {done todo : List Measurement} {d : Measurement} {value : Bytes} {it : ReferenceData}
    (h : InFlight cfg sys)
    (hi : sys.threads[i]? = some (.processing id access done (d :: todo)))
    (hv : refValue d = some value) (hf : sys.source.refs.refMapping.find value = some it)
    (hkeep : ∀ x ∈ rows sys.source, x.id ≠ 0 → x ∈ (sys.source.refs.bind id value).refMapping.rows)
    (hlast : ∀ ref ∈ refValues todo, ref = value ∨ HasPair (rows sys.source) id ref) :
    InFlight cfg ⟨{ sys.source with refs := sys.source.refs.bind id value },
      sys.threads.set i (.pushing id (done ++ d :: todo))⟩ := by
  have h0 : id ≠ 0 := (h.pending i _ hi id rfl).1
  have hold : ∀ ref, HasPair (rows sys.source) id ref →
      HasPair (sys.source.refs.bind id value).refMapping.rows id ref := fun ref hp =>
    hasPair_mono (fun x hx hid => hkeep x hx (hid ▸ h0)) hp
  refine h.refs hi hkeep (fun _ hid => hid) ?_
  intro ref href
  refine ⟨id, rfl, ?_⟩
  simp only [Thread.bound] at href
  rw [refValues_append, refValues_cons_string hv] at href
  rcases List.mem_append.mp href with hm | hm
  · exact hold ref (h.held hi rfl ref hm)
  · rcases List.mem_cons.mp hm with rfl | hm
    · exact hasPair_bind hf
    · rcases hlast ref hm with rfl | hp
      · exact hasPair_bind hf
      · exact hold ref hp

theorem InFlight.refLoaded {sys : System} {i : Nat} {id : Int} {access : Nat → FileAccess}
    {done todo : List Measurement} {d : Measurement} {value buffer : Bytes} {files : Files}
    (h : InFlight cfg sys)
    (hi : sys.threads[i]? = some (.processing id access done (d :: todo))) (ht : d.type = .ref)
    (hfresh : sys.source.refs.Fresh) :
    InFlight cfg ⟨{ sys.source with refs := sys.source.refs.loaded id value buffer files },
      sys.threads.set i (.processing id (fun n => access (n + 1))
        (done ++ [{ d with value := .string (generatedRef sys.source.refs.refCounter) }]) todo)⟩ := by
  have hv : refValue { d with value := .string (generatedRef sys.source.refs.refCounter) } =
      some (generatedRef sys.source.refs.refCounter) := refValue_string ht rfl
  refine h.refs hi (fun x hx _ => mem_loaded_of_mem hx) (fun _ hid => hid) ?_
  intro ref href
  refine ⟨id, rfl, ?_⟩
  simp only [Thread.bound] at href
  rw [refValues_append, refValues_cons_string hv] at href
  rcases List.mem_append.mp href with hm | hm
  · exact hasPair_mono (fun x hx _ => mem_loaded_of_mem hx) (h.held hi rfl ref hm)
  · rw [List.mem_singleton.mp hm]
    exact hasPair_loaded hfresh

theorem InFlight.refTurn {sys : System} {i : Nat} {id : Int} {access : Nat → FileAccess}
    {done todo : List Measurement} {d : Measurement} (h : InFlight cfg sys)
    (hi : sys.threads[i]? = some (.processing id access done (d :: todo))) (ht : d.type = .ref)
    (hok : Undisturbed sys i) : InFlight cfg (advance cfg clock sys i) := by
  have hc := ref_case id (access 0) d sys.source.refs
  have hkeep : ∀ x ∈ rows sys.source, x.id ≠ 0 →
      x ∈ (processRef id (access 0) d sys.source.refs).2.refMapping.rows :=
    fun x hx hz => hc.keeps ht hx (.inl hz)
  have hthrow : ∀ r' : References, (∀ x ∈ rows sys.source, x.id ≠ 0 → x ∈ r'.refMapping.rows) →
      InFlight cfg ⟨{ sys.source with refs := r' }, sys.threads.set i .finished⟩ :=
    fun r' hr' => h.refs hi hr' (by simp [Thread.pending]) (by simp [Thread.bound])
  simp only [Undisturbed, hi] at hok
  rw [advance_of_thread hi]
  simp only [turn, ht, ↓reduceIte]
  generalize hp : processRef id (access 0) d sys.source.refs = p at hc hkeep
  cases hc with
  | noString => exact hthrow _ hkeep
  | refused => exact hthrow _ hkeep
  | failed => exact hthrow _ hkeep
  | bound value it hv hf hit =>
    have hlast := hok value (refValue_string ht hv)
    rw [hf] at hlast
    exact h.refBound hi (refValue_string ht hv) hf hkeep (hlast hit)
  | loaded value buffer files hv hf hl =>
    have hfresh := hok value (refValue_string ht hv)
    obtain ⟨_, _, _, hload⟩ := loadable_of_next hp
    rw [hf] at hfresh
    exact h.refLoaded hi ht (hfresh hload.fopen (by rw [hl]; rfl))

theorem InFlight.push {sys : System} {i : Nat} {id : Int} {ms : List Measurement}
    (h : InFlight cfg sys) (hi : sys.threads[i]? = some (.pushing id ms)) :
    InFlight cfg (advance cfg clock sys i) := by
  obtain ⟨h0, hnot⟩ := h.pending i _ hi id rfl
  have hsub := remaining_sublist cfg.ring (entries sys.source)
  have hmine : ∀ ref ∈ refValues ms, HasPair (rows sys.source) id ref := h.held hi rfl
  have hwf : WellFormed cfg.ring (pushSection cfg clock id ms sys.source).2.buffer := by
    rw [(pushSection_frame cfg clock id ms sys.source).1]
    exact push_wellFormed h.wellFormed
  have ha := pushSection_assigned clock h.wellFormed h.assigned
    (fun _ ref href => ⟨h0, hnot, hmine ref href⟩)
  have hvictim : ∀ (j : Nat) (u : Thread), sys.threads[j]? = some u → ∀ k ∈ u.pending,
      ∀ v ∈ victim cfg.ring (entries sys.source), k ≠ v.id := by
    rintro j u hu k hk v hv rfl
    exact (h.pending j u hu v.id hk).2 (mem_ids.mpr ⟨v, (victim_mem hv).1, rfl⟩)
  rw [advance_of_thread hi]
  simp only [turn]
  by_cases hr : Refuses cfg.ring (entries sys.source) id
  · obtain ⟨href, he, hrows⟩ := pushSection_refused_effect clock ms h.wellFormed hr
    simp only [failed_of_refused href, ↓reduceIte]
    refine h.set hi hwf ha ?_ ?_ ?_ (by simp [Thread.bound])
    · rintro k ⟨⟩
      rw [he]
      exact ⟨rfl, fun hin => hnot ((hsub.map _).subset hin)⟩
    · intro k hk
      rw [he] at hk
      exact .inl ((hsub.map _).subset hk)
    · intro j u _ hu ref _ k hk hp
      refine hasPair_mono ?_ hp
      rintro d hd rfl
      exact (hrows d).mpr ⟨hd, hvictim j u hu d.id hk⟩
  · obtain ⟨hacc, ⟨t, he⟩, hrows⟩ := pushSection_accepted_effect clock ms h.wellFormed hr
    simp only [hacc, Bool.false_eq_true, ↓reduceIte]
    refine h.set hi hwf ha (by simp [Thread.pending]) ?_ ?_ (by simp [Thread.bound])
    · intro k hk
      rw [he, ids_append] at hk
      rcases List.mem_append.mp hk with hk | hk
      · exact .inl (((List.eraseP_sublist.trans hsub).map _).subset hk)
      · exact .inr (List.mem_singleton.mp hk ▸ rfl)
    · intro j u hne hu ref _ k hk hp
      refine hasPair_mono ?_ hp
      rintro d hd rfl
      refine (hrows d).mpr ⟨hd, fun hin => ?_, hvictim j u hu d.id hk⟩
      exact absurd ((hsub.map _).subset hin) hnot

theorem InFlight.undo {sys : System} {i : Nat} {id : Int} (h : InFlight cfg sys)
    (hi : sys.threads[i]? = some (.rollback id)) :
    InFlight cfg ⟨deleteRefMapping id false sys.source, sys.threads.set i .finished⟩ := by
  obtain ⟨-, hnot⟩ := h.pending i _ hi id rfl
  refine h.set hi h.wellFormed ?_ (by simp [Thread.pending]) (fun k hk => .inl hk) ?_
    (by simp [Thread.bound])
  · exact deleteRefMapping_assigned h.assigned
      (fun e he heq => absurd (mem_ids.mpr ⟨e, he, heq⟩) hnot)
  · intro j u hne hu ref _ k hk hp
    refine hasPair_mono ?_ hp
    rintro d hd rfl
    refine mem_rows_deleteRefMapping.mpr ⟨hd, ?_⟩
    rintro (hfalse | heq)
    · cases hfalse
    · exact h.distinct j i u _ hu hi hne d.id hk (heq ▸ rfl)

theorem InFlight.begin {sys : System} {i : Nat} {op : DataSource.Op} (h : InFlight cfg sys)
    (hi : sys.threads[i]? = some (.ready op)) (hok : Undisturbed sys i) :
    InFlight cfg (advance cfg clock sys i) := by
  rw [advance_of_thread hi]
  cases op with
  | add id json access =>
    simp only [turn]
    cases parse json with
    | error e =>
      exact h.pass hi (by simp [Thread.pending]) (by simp [Thread.bound]) (by simp [Thread.bound])
    | ok data => exact h.pass hi (fun _ hid => hid) (by simp [Thread.bound, refValues]) (fun _ => rfl)
  | _ => exact h.other clock hi not_false hok

theorem InFlight.advance {sys : System} {i : Nat} (h : InFlight cfg sys) (hok : Undisturbed sys i) :
    InFlight cfg (advance cfg clock sys i) := by
  cases hi : sys.threads[i]? with
  | none => simpa only [Concurrent.advance, hi] using h
  | some t =>
    cases t with
    | ready op => exact h.begin hi hok
    | pushing id ms => exact h.push hi
    | processing id access done todo =>
      cases todo with
      | nil =>
        rw [advance_of_thread hi]
        exact h.pass hi (fun _ hid => hid) (fun _ href => href) (fun _ => rfl)
      | cons d todo =>
        by_cases ht : d.type = .ref
        · exact h.refTurn hi ht hok
        · rw [advance_of_thread hi]
          simp only [turn, ht, ↓reduceIte]
          refine h.pass hi (fun _ hid => hid) ?_ (fun _ => rfl)
          intro ref href
          simp only [Thread.bound] at href ⊢
          rw [refValues_append] at href
          simpa [refValues, refValue_of_type ht] using href
    | rollback id =>
      rw [advance_of_thread hi]
      exact h.undo hi
    | finished =>
      rw [advance_of_thread hi]
      exact h.pass hi (fun _ hid => hid) (fun _ href => href) (fun _ => rfl)

def addIds (ops : List DataSource.Op) : List Int := ops.filterMap addId

theorem InFlight.start {files : Files} {ops : List DataSource.Op} (hzero : ∀ id ∈ addIds ops, id ≠ 0)
    (hdistinct : (addIds ops).Nodup) : InFlight cfg (start files ops) where
  wellFormed := initial_wellFormed
  assigned := by simp [Concurrent.start, Assigned]
  pending := by
    intro i t hi id hid
    simp only [Concurrent.start, List.getElem?_map, Option.map_eq_some_iff] at hi
    obtain ⟨op, hop, rfl⟩ := hi
    exact ⟨hzero id (List.mem_filterMap.mpr ⟨op, List.mem_of_getElem? hop, hid⟩), List.not_mem_nil⟩
  distinct := by
    intro i j t u hi hj hij id hid hid'
    simp only [Concurrent.start, List.getElem?_map, Option.map_eq_some_iff] at hi hj
    obtain ⟨op, hop, rfl⟩ := hi
    obtain ⟨op', hop', rfl⟩ := hj
    obtain ⟨hlt, rfl⟩ := List.getElem?_eq_some_iff.mp hop
    obtain ⟨hlt', rfl⟩ := List.getElem?_eq_some_iff.mp hop'
    have hpair := List.pairwise_filterMap.mp hdistinct
    rw [List.pairwise_iff_getElem] at hpair
    rcases Nat.lt_or_gt_of_ne hij with h | h
    · exact hpair i j hlt hlt' h id hid id hid' rfl
    · exact hpair j i hlt' hlt h id hid' id hid rfl
  bound := by
    intro i t hi ref href
    simp only [Concurrent.start, List.getElem?_map, Option.map_eq_some_iff] at hi
    obtain ⟨op, -, rfl⟩ := hi
    cases href

theorem references_resolvable (cfg : DataSource.Config) (clock : Nat → Nat) (files : Files)
    (ops : List DataSource.Op) (schedule : List Nat)
    (hzero : ∀ id ∈ addIds ops, id ≠ 0) (hdistinct : (addIds ops).Nodup)
    (hok : Runs.Along (advance cfg clock) Undisturbed (start files ops) schedule) :
    Resolvable (Runs.run (advance cfg clock) (start files ops) schedule).source := by
  have h : InFlight cfg (Runs.run (advance cfg clock) (Concurrent.start files ops) schedule) :=
    Runs.run_invariant_along (fun sys i hi h => InFlight.advance h hi) hok
      (InFlight.start hzero hdistinct)
  exact fun e he ref href => (h.assigned e he ref href).2

theorem reset_loses_held_reference :
    let ops : List DataSource.Op := [.setReference (ascii "r") [] [],
      .add 1 emptyDocument (fun _ => ⟨true, true, true, true⟩),
      .add 2 (refDocument (ascii "r")) (fun _ => ⟨true, true, true, true⟩), .reset .user]
    (∀ id ∈ addIds ops, id ≠ 0) ∧ (addIds ops).Nodup ∧
      ¬ Resolvable (Runs.run (advance ⟨2, 0, true, 1, 1⟩ id) (start (fun _ => none) ops)
        [0, 1, 1, 1, 2, 2, 3, 2]).source := by
  refine ⟨by decide, by decide, ?_⟩
  intro h
  obtain ⟨x, hx, -⟩ := h ⟨2, [⟨ascii "a", .ref, [], .string (ascii "r")⟩], 2, false⟩ (by decide)
    (ascii "r") (by decide)
  cases hx

-- Between the turn and the Push of the first Add come a Reset of the empty buffer, the other Add and
-- a Delete.
theorem references_resolvable_interleaved :
    let access : Nat → FileAccess := fun _ => ⟨true, true, true, true⟩
    let ops : List DataSource.Op := [.setReference (ascii "r") [] [],
      .add 2 (refDocument (ascii "r")) access, .setReference (ascii "s") [] [], .reset .user,
      .add 1 (refDocument (ascii "s")) access, .delete 5]
    Resolvable (Runs.run (advance ⟨2, 0, true, 1, 1⟩ id) (start (fun _ => none) ops)
      [0, 1, 1, 2, 3, 4, 4, 4, 5, 1]).source := by
  refine references_resolvable _ _ _ _ _ (by decide) (by decide)
    ⟨trivial, trivial, ?_, trivial, .inl rfl, trivial, ?_, trivial, trivial, trivial, trivial⟩
  · intro value hv
    cases hv
    exact fun _ ref href => absurd href List.not_mem_nil
  · intro value hv
    cases hv
    exact fun _ ref href => absurd href List.not_mem_nil

end QdsBuffer.Concurrent
