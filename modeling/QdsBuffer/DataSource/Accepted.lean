import QdsBuffer.DataSource.References
import QdsBuffer.Parsing.Accepted

namespace QdsBuffer.DataSource
open Bytes Parsing

theorem parse_process {json : JsonParser.Delivery} {data : List Measurement}
    (h : parse json = .ok data) :
    ∃ st, DataValidator.process ParsingState.initial (json.calls.filterMap HandlerCall.event) =
      .ok st ∧ st.data = data := by
  unfold parse at h
  split at h
  · cases h
  · rename_i ok errorMsg st hp
    cases ok with
    | true => exact ⟨st, JsonParser.parse_process hp, Except.ok.inj h⟩
    | false => cases h

theorem parse_valid {json : JsonParser.Delivery} {data : List Measurement}
    (hb : Balanced (json.calls.filterMap HandlerCall.event)) (h : parse json = .ok data) :
    ∀ d ∈ data, DataValidator.Valid d := by
  obtain ⟨st, hp, rfl⟩ := parse_process h
  exact DataValidator.accepted_valid hb hp

theorem Valid_ref {d : Measurement} (h : DataValidator.Valid d) (ht : d.type = .ref) :
    ∃ value, d.value = .string value := by
  have hv := h.value
  rw [ht] at hv
  cases hval : d.value with
  | string value => exact ⟨value, rfl⟩
  | blank => rw [hval] at hv; exact hv.elim
  | int64 i => rw [hval] at hv; exact hv.elim
  | double x => rw [hval] at hv; exact hv.elim
  | bool b => rw [hval] at hv; exact hv.elim

theorem processRefMapping_no_badGet {id : Int} {access : Nat → FileAccess}
    {data : List Measurement} {r : References}
    (h : ∀ d ∈ data, d.type = .ref → ∃ value, d.value = .string value) :
    (processRefMapping id access data r).1 ≠ .error badGet := by
  induction data generalizing access r with
  | nil => simp [processRefMapping]
  | cons d data ih =>
    have hrest : ∀ access r, (processRefMapping id access data r).1 ≠ .error badGet :=
      fun access r => ih (fun x hx => h x (List.mem_cons_of_mem d hx))
    have hmap : ∀ (d' : Measurement) (res : Except Exception (List Measurement)),
        res ≠ .error badGet → res.map (d' :: ·) ≠ .error badGet := by
      intro d' res hres
      cases res with
      | error e => simpa [Except.map] using hres
      | ok l => simp [Except.map]
    by_cases ht : d.type = .ref
    · rw [processRefMapping_cons_ref ht]
      have hc := ref_case id (access 0) d r
      generalize processRef id (access 0) d r = p at hc
      cases hc with
      | noString hn =>
        obtain ⟨value, hv⟩ := h d List.mem_cons_self ht
        exact absurd hv (hn value)
      | bound => simp
      | refused => simp [processError, refException, badGet]
      | failed => simp [fileError, fileIoException, badGet]
      | loaded => exact hmap _ _ (hrest _ _)
    · rw [processRefMapping_cons_other ht]
      exact hmap _ _ (hrest _ _)

theorem accepted_measurements_valid (events : List Event) (st : ParsingState)
    (hb : Balanced events)
    (h : DataValidator.process ParsingState.initial events = .ok st) :
    (∀ d ∈ st.data, DataValidator.Valid d) ∧
      ∀ id access r, (processRefMapping id access st.data r).1 ≠ .error badGet := by
  have hv := DataValidator.accepted_valid hb h
  exact ⟨hv, fun id access r => processRefMapping_no_badGet (fun d hd => Valid_ref (hv d hd))⟩

theorem accepted_measurements_valid_word :
    let d : Measurement := ⟨ascii "a", .word, [], .string (ascii "00ff")⟩
    (∀ d' ∈ [d], DataValidator.Valid d') ∧
      ∀ id access r, (processRefMapping id access [d] r).1 ≠ .error badGet := by
  intro d
  let value : Bytes → Event := fun s => .onValue (.string s (some s))
  exact accepted_measurements_valid
    [.onObjectBegin, .onKey (ascii "NAME"), value (ascii "a"), .onKey (ascii "TYPE"),
      value (ascii "WORD"), .onKey (ascii "VALUE"), value (ascii "00ff"), .onObjectEnd]
    ⟨[d], none, false, true⟩ (by decide) rfl

end QdsBuffer.DataSource
