import QdsBuffer.DataSource.Invariant
import QdsBuffer.DataSource.SingleRef

namespace QdsBuffer.DataSource
open RingBuffer Bytes

variable {cfg : Config} {clock : Nat → Nat}

def Assigned (b : List BufferEntry) (rows : List ReferenceData) : Prop :=
  ∀ e ∈ b, ∀ ref ∈ refValues e.measurements, e.id ≠ 0 ∧ HasPair rows e.id ref

def Exclusive (b : List BufferEntry) : Prop :=
  ∀ e ∈ b, ∀ e' ∈ b, e ≠ e' → ∀ ref ∈ refValues e.measurements, ref ∉ refValues e'.measurements

theorem assigned_mono {b b' : List BufferEntry} {rows rows' : List ReferenceData}
    (h : Assigned b rows) (hb : ∀ e ∈ b', e ∈ b)
    (hr : ∀ e ∈ b', ∀ d ∈ rows, d.id = e.id → d.id ≠ 0 → d ∈ rows') : Assigned b' rows' := by
  intro e he ref hm
  obtain ⟨h0, x, hx, hid, href⟩ := h e (hb e he) ref hm
  exact ⟨h0, x, hr e he x hx hid (hid ▸ h0), hid, href⟩

theorem assigned_append {b c : List BufferEntry} {rows : List ReferenceData}
    (hb : Assigned b rows) (hc : Assigned c rows) : Assigned (b ++ c) rows := by
  intro e he
  rcases List.mem_append.mp he with he | he
  · exact hb e he
  · exact hc e he

theorem assigned_modify_locked {b : List BufferEntry} {rows : List ReferenceData} (index : Nat)
    (locked : Bool) (h : Assigned b rows) :
    Assigned (b.modify index (fun e => { e with locked := locked })) rows := by
  intro e he
  obtain ⟨e', he', hid, hms⟩ := exists_of_mem_modify_locked he
  rw [← hid, ← hms]
  exact h e' he'

theorem Assigned.exclusive {b : List BufferEntry} {t : ReferenceContainer}
    (h : Assigned b t.rows) (hn : (ids b).Nodup) : Exclusive b := by
  intro e he e' he' hne ref hm hm'
  obtain ⟨-, x, hx, hid, href⟩ := h e he ref hm
  obtain ⟨-, y, hy, hid', href'⟩ := h e' he' ref hm'
  have hxy : x = y := KeyedTable.eq_of_key hx hy (href.trans href'.symm)
  have hids : e.id = e'.id := by rw [← hid, ← hid', hxy]
  exact hne (eq_of_id hn he he' hids)

theorem pushSection_assigned (clock : Nat → Nat) {s : DataSource} {id : Int}
    {ms : List Measurement} (hwf : WellFormed cfg.ring s.buffer) (h : Assigned (entries s) (rows s))
    (haccepted : ¬ Refuses cfg.ring (entries s) id → ∀ ref ∈ refValues ms,
      id ≠ 0 ∧ id ∉ ids (entries s) ∧ HasPair (rows s) id ref) :
    Assigned (entries (pushSection cfg clock id ms s).2) (rows (pushSection cfg clock id ms s).2) := by
  have hsub := remaining_sublist cfg.ring (entries s)
  by_cases hr : Refuses cfg.ring (entries s) id
  · obtain ⟨-, he, hrows⟩ := pushSection_refused_effect clock ms hwf hr
    rw [he]
    refine assigned_mono h (fun e hm => hsub.subset hm) ?_
    intro e hm d hd hid _
    exact (hrows d).mpr ⟨hd, hid ▸ ((mem_remaining hwf.order.nodup).mp hm).2⟩
  · obtain ⟨-, ⟨t, he⟩, hrows⟩ := pushSection_accepted_effect clock ms hwf hr
    rw [he]
    apply assigned_append
    · refine assigned_mono h (fun e hm => hsub.subset (List.mem_of_mem_eraseP hm)) ?_
      intro e hm d hd hid _
      obtain ⟨hrem, hne⟩ := (mem_eraseP_hasId (hwf.order.sublist hsub).nodup).mp hm
      exact (hrows d).mpr ⟨hd, fun _ => hid ▸ hne, hid ▸ ((mem_remaining hwf.order.nodup).mp hrem).2⟩
    · intro e hm ref href
      rw [List.mem_singleton.mp hm] at href ⊢
      obtain ⟨h0, hnot, x, hx, rfl, hxref⟩ := haccepted hr ref href
      refine ⟨h0, x, (hrows x).mpr ⟨hx, ?_, ?_⟩, rfl, hxref⟩
      · exact fun hin => absurd ((hsub.map _).subset hin) hnot
      · exact fun v hv heq => hnot (mem_ids.mpr ⟨v, (victim_mem hv).1, heq.symm⟩)

theorem deleteRefMapping_assigned {s : DataSource} {id : Int} (h : Assigned (entries s) (rows s))
    (hnone : ∀ e ∈ entries s, e.id = id → refValues e.measurements = []) :
    Assigned (entries (deleteRefMapping id false s)) (rows (deleteRefMapping id false s)) := by
  intro e he ref href
  obtain ⟨h0, x, hx, hid, hxref⟩ := h e he ref href
  refine ⟨h0, x, mem_rows_deleteRefMapping.mpr ⟨hx, ?_⟩, hid, hxref⟩
  rintro (hfalse | heq)
  · cases hfalse
  · rw [hnone e he (hid.symm.trans heq)] at href
    cases href

theorem push_assigned (clock : Nat → Nat) {s : DataSource} {id : Int} {ms : List Measurement}
    (hwf : WellFormed cfg.ring s.buffer) (h : Assigned (entries s) (rows s))
    (hrefused : Refuses cfg.ring (entries s) id →
      ∀ e ∈ remaining cfg.ring (entries s), e.id = id → refValues e.measurements = [])
    (haccepted : ¬ Refuses cfg.ring (entries s) id → ∀ ref ∈ refValues ms,
      id ≠ 0 ∧ id ∉ ids (entries s) ∧ HasPair (rows s) id ref) :
    Assigned (entries (pushMeasurements cfg clock id ms s).2)
      (rows (pushMeasurements cfg clock id ms s).2) := by
  have hsection := pushSection_assigned clock hwf h haccepted
  by_cases hr : Refuses cfg.ring (entries s) id
  · obtain ⟨href, he, -⟩ := pushSection_refused_effect clock ms hwf hr
    simp only [pushMeasurements, failed_of_refused href, ↓reduceIte]
    exact deleteRefMapping_assigned hsection (he ▸ hrefused hr)
  · simp only [pushMeasurements, (pushSection_accepted_effect clock ms hwf hr).1,
      Bool.false_eq_true, ↓reduceIte]
    exact hsection

theorem setReference_assigned {s : DataSource} {ref data dataFormat : Bytes}
    (h : Assigned (entries s) (rows s)) :
    Assigned (entries (setReference ref data dataFormat s).2)
      (rows (setReference ref data dataFormat s).2) := by
  unfold setReference
  cases hf : s.refs.refMapping.find ref with
  | some it => exact h
  | none =>
    refine assigned_mono h (fun e he => he) ?_
    intro e _ d hd _ _
    exact (KeyedTable.mem_emplace (KeyedTable.find_eq_none.mp hf)).mpr (.inr hd)

theorem delete_assigned {s : DataSource} {id : Int} (hwf : WellFormed cfg.ring s.buffer)
    (h : Assigned (entries s) (rows s)) :
    Assigned (entries (delete cfg id s)) (rows (delete cfg id s)) := by
  obtain ⟨he, hr⟩ := delete_effect id hwf
  have hmem : ∀ e ∈ entries (delete cfg id s), e ∈ entries s ∧ e.id ≠ id := by
    intro e hm
    rw [he] at hm
    exact (mem_eraseP_hasId hwf.order.nodup).mp hm
  refine assigned_mono h (fun e hm => (hmem e hm).1) ?_
  intro e hm d hd hid _
  exact (hr d).mpr ⟨hd, fun _ => hid ▸ (hmem e hm).2⟩

theorem reset_assigned (cfg : Config) (clock : Nat → Nat) (reason : ResetReason) (s : DataSource) :
    Assigned (entries (reset cfg clock reason s)) (rows (reset cfg clock reason s)) := by
  rw [(reset_effect cfg clock reason s).1]
  intro e he
  cases he

def IsAdd : Op → Prop
  | .add _ _ _ => True
  | _ => False

theorem step_assigned_of_not_add (clock : Nat → Nat) {s : DataSource} {op : Op} (hop : ¬ IsAdd op)
    (hwf : WellFormed cfg.ring s.buffer) (h : Assigned (entries s) (rows s)) :
    Assigned (entries (step cfg clock s op)) (rows (step cfg clock s op)) := by
  cases op with
  | setReference ref data dataFormat => exact setReference_assigned h
  | add id json access => exact absurd trivial hop
  | delete id => exact delete_assigned hwf h
  | reset reason => exact reset_assigned cfg clock reason s
  | acknowledgeReset => exact h
  | acknowledgeOverflow => exact h
  | setLocked index locked => exact assigned_modify_locked index locked h
  | changeFiles files => exact h

end QdsBuffer.DataSource
