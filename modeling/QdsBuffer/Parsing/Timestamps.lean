import QdsBuffer.Parsing.Calendar

namespace QdsBuffer.Parsing
open Bytes Regex

-- The date sets the captures 1 and 2 and the rest asks for 3 alone, so the two match independently.
def TimeAndOffset (suffix : Bytes) : Prop :=
  ∃ c, Match (seq iso8601Time iso8601Offset) [] suffix c

theorem date_groups : 3 ∉ (alt commonDate leapDate).groups := by decide

theorem timeAndOffset_refs : ∀ i ∈ (seq iso8601Time iso8601Offset).refs, i = 3 := by decide

theorem timeAndOffset_iff {date suffix : Bytes} {c : Captures}
    (hdate : Match (alt commonDate leapDate) [] date c) :
    (∃ c', Match (seq iso8601Time iso8601Offset) c suffix c') ↔ TimeAndOffset suffix := by
  have hkeeps := hdate.keeps date_groups
  constructor
  · rintro ⟨c', h⟩
    obtain ⟨d, hd, -⟩ := h.transfer (d := []) (fun i hi => timeAndOffset_refs i hi ▸ hkeeps)
    exact ⟨d, hd⟩
  · rintro ⟨c', h⟩
    obtain ⟨d, hd, -⟩ := h.transfer (d := c) (fun i hi => timeAndOffset_refs i hi ▸ hkeeps.symm)
    exact ⟨d, hd⟩

theorem isTimestamp_iff {s : Bytes} :
    isTimestamp s = true ↔ ∃ date suffix, s = date ++ (ascii "T" ++ suffix) ∧
      ExistingDate date ∧ TimeAndOffset suffix := by
  have hsplit : iso8601Regex =
      seq (alt commonDate leapDate) (seq (text "T") (seq iso8601Time iso8601Offset)) := rfl
  rw [isTimestamp, fullMatch_iff, hsplit]
  constructor
  · rintro ⟨c, h⟩
    obtain ⟨date, c₁, _, rfl, hdate, hrest⟩ := match_seq_iff.mp h
    obtain ⟨_, _, suffix, rfl, ht, hsuffix⟩ := match_seq_iff.mp hrest
    obtain ⟨rfl, rfl⟩ := match_text_iff.mp ht
    exact ⟨date, suffix, rfl, match_date_iff.mp ⟨_, hdate⟩, (timeAndOffset_iff hdate).mp ⟨c, hsuffix⟩⟩
  · rintro ⟨date, suffix, rfl, hdate, hsuffix⟩
    obtain ⟨c₁, hc₁⟩ := match_date_iff.mpr hdate
    obtain ⟨c, hc⟩ := (timeAndOffset_iff hc₁).mpr hsuffix
    exact ⟨c, .seq hc₁ (.seq (match_text_iff.mpr ⟨rfl, rfl⟩) hc)⟩

theorem Separator.without_T {sep : Bytes} (h : Separator sep) : 'T'.toUInt8 ∉ sep := by
  rcases h with rfl | rfl <;> decide

theorem padded_without_T (k n : Nat) : 'T'.toUInt8 ∉ padded k n := by
  intro h
  have hdigit := padded_isDigit k n 'T'.toUInt8 h
  exact absurd hdigit (by decide)

theorem ExistingDate.without_T {date : Bytes} (h : ExistingDate date) : 'T'.toUInt8 ∉ date := by
  cases h with
  | calendar _ _ hsep _ =>
    simp only [List.mem_append, padded_without_T, hsep.without_T, or_self, not_false_eq_true]
  | ordinal _ _ hsep _ =>
    simp only [List.mem_append, padded_without_T, hsep.without_T, or_self, not_false_eq_true]

theorem timestamp_suffix {date suffix : Bytes} (hdate : ExistingDate date)
    (h : isTimestamp (date ++ (ascii "T" ++ suffix)) = true) : TimeAndOffset suffix := by
  obtain ⟨date', suffix', heq, hdate', hsuffix⟩ := isTimestamp_iff.mp h
  obtain ⟨-, rfl⟩ := split_at_first hdate.without_T hdate'.without_T heq
  exact hsuffix

theorem timestamp_dates_gregorian :
    (∀ s, isTimestamp s = true → ∃ date suffix, s = date ++ (ascii "T" ++ suffix) ∧
      'T'.toUInt8 ∉ date ∧ ExistingDate date) ∧
    ∀ date suffix, ExistingDate date →
      (∃ date', ExistingDate date' ∧ isTimestamp (date' ++ (ascii "T" ++ suffix)) = true) →
      isTimestamp (date ++ (ascii "T" ++ suffix)) = true := by
  refine ⟨?_, ?_⟩
  · intro s hs
    obtain ⟨date, suffix, heq, hdate, -⟩ := isTimestamp_iff.mp hs
    exact ⟨date, suffix, heq, hdate.without_T, hdate⟩
  · rintro date suffix hdate ⟨date', hdate', h⟩
    exact isTimestamp_iff.mpr ⟨date, suffix, rfl, hdate, timestamp_suffix hdate' h⟩

end QdsBuffer.Parsing
