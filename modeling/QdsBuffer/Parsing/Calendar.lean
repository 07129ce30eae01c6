import QdsBuffer.Parsing.Iso8601
import QdsBuffer.Library.Numerals
import QdsBuffer.Library.Gregorian

namespace QdsBuffer.Parsing
open Bytes Regex Gregorian

theorem nonzero_numeral : Numeral (cls [range '1' '9']) 1 (1 ≤ ·) :=
  (Numeral.cls (by decide)).congr (by decide)

theorem digit_numeral : Numeral digit 1 (fun _ => True) :=
  (Numeral.cls (by decide)).congr (by decide)

theorem upTo2_numeral : Numeral (cls [range '0' '2']) 1 (· ≤ 2) :=
  (Numeral.cls (by decide)).congr (by decide)

theorem upTo5_numeral : Numeral (cls [range '0' '5']) 1 (· ≤ 5) :=
  (Numeral.cls (by decide)).congr (by decide)

theorem upTo8_numeral : Numeral (cls [range '0' '8']) 1 (· ≤ 8) :=
  (Numeral.cls (by decide)).congr (by decide)

theorem fours_numeral : Numeral (set "048") 1 (fun n => n % 4 = 0) :=
  (Numeral.cls (by decide)).congr (by decide)

theorem sixes_numeral : Numeral (set "26") 1 (fun n => n % 4 = 2) :=
  (Numeral.cls (by decide)).congr (by decide)

theorem evens_numeral : Numeral (set "2468") 1 (fun n => n % 2 = 0 ∧ n ≠ 0) :=
  (Numeral.cls (by decide)).congr (by decide)

theorem odds_numeral : Numeral (set "13579") 1 (fun n => n % 2 = 1) :=
  (Numeral.cls (by decide)).congr (by decide)

theorem months13_numeral : Numeral (cls [range '1' '1', range '3' '9']) 1 (fun n => 1 ≤ n ∧ n ≠ 2) :=
  (Numeral.cls (by decide)).congr (by decide)

theorem months31_numeral :
    Numeral (set "13578") 1 (fun n => n = 1 ∨ n = 3 ∨ n = 5 ∨ n = 7 ∨ n = 8) :=
  (Numeral.cls (by decide)).congr (by decide)

theorem text0_numeral : Numeral (text "0") 1 (· = 0) := Numeral.text rfl (by decide)

theorem text1_numeral : Numeral (text "1") 1 (· = 1) := Numeral.text rfl (by decide)

theorem text2_numeral : Numeral (text "2") 1 (· = 2) := Numeral.text rfl (by decide)

theorem text3_numeral : Numeral (text "3") 1 (· = 3) := Numeral.text rfl (by decide)

theorem text6_numeral : Numeral (text "6") 1 (· = 6) := Numeral.text rfl (by decide)

theorem text00_numeral : Numeral (text "00") 2 (· = 0) := Numeral.text rfl (by decide)

theorem month_numeral : Numeral month 2 (fun n => 1 ≤ n ∧ n ≤ 12) := by
  refine ((text0_numeral.seq nonzero_numeral).alt (text1_numeral.seq upTo2_numeral)).congr ?_
  intro n hn
  omega

theorem day28_numeral : Numeral day28 2 (fun n => 1 ≤ n ∧ n ≤ 28) := by
  refine ((text0_numeral.seq nonzero_numeral).alt ((text1_numeral.seq digit_numeral).alt
    (text2_numeral.seq upTo8_numeral))).congr ?_
  intro n hn
  simp only [Nat.reducePow, and_true]
  omega

theorem monthWith30_numeral : Numeral monthWith30 2 (fun n => 1 ≤ n ∧ n ≤ 12 ∧ n ≠ 2) := by
  refine ((text0_numeral.seq months13_numeral).alt (text1_numeral.seq upTo2_numeral)).congr ?_
  intro n hn
  omega

theorem monthWith31_numeral : Numeral monthWith31 2
    (fun n => 1 ≤ n ∧ n ≤ 12 ∧ n ≠ 2 ∧ n ≠ 4 ∧ n ≠ 6 ∧ n ≠ 9 ∧ n ≠ 11) := by
  have h02 : Numeral (set "02") 1 (fun n => n = 0 ∨ n = 2) :=
    (Numeral.cls (by decide)).congr (by decide)
  refine ((text0_numeral.seq months31_numeral).alt (text1_numeral.seq h02)).congr ?_
  intro n hn
  omega

theorem dayOfYear365_numeral : Numeral dayOfYear365 3 (fun n => 1 ≤ n ∧ n ≤ 365) := by
  have h12 : Numeral (set "12") 1 (fun n => n = 1 ∨ n = 2) :=
    (Numeral.cls (by decide)).congr (by decide)
  have h99 := digit_numeral.seq (digit_numeral.seq Numeral.empty)
  have h65 := (upTo5_numeral.seq digit_numeral).alt (text6_numeral.seq upTo5_numeral)
  refine ((text00_numeral.seq nonzero_numeral).alt
    ((text0_numeral.seq (nonzero_numeral.seq digit_numeral)).alt
      ((h12.seq h99).alt (text3_numeral.seq h65)))).congr ?_
  intro n hn
  simp only [Nat.reducePow, and_true]
  omega

theorem year_numeral : Numeral (seq (cls [range '1' '9']) (times 3 digit)) 4 (1000 ≤ ·) := by
  refine (nonzero_numeral.seq (digit_numeral.seq
    (digit_numeral.seq (digit_numeral.seq Numeral.empty)))).congr ?_
  intro n hn
  simp only [and_true]
  omega

theorem fourth_numeral : Numeral (alt (seq (set "2468") (set "048")) (seq (set "13579") (set "26"))) 2
    (fun n => 10 ≤ n ∧ n % 4 = 0) := by
  refine ((evens_numeral.seq fours_numeral).alt (odds_numeral.seq sixes_numeral)).congr ?_
  intro n hn
  omega

theorem leapYear_numeral : Numeral leapYear 4 (fun n => 1000 ≤ n ∧ IsLeap n) := by
  have h48 : Numeral (set "48") 1 (fun n => n % 4 = 0 ∧ n ≠ 0) :=
    (Numeral.cls (by decide)).congr (by decide)
  have hinCentury := (text0_numeral.seq h48).alt fourth_numeral
  refine ((nonzero_numeral.seq (digit_numeral.seq hinCentury)).alt
    (fourth_numeral.seq text00_numeral)).congr ?_
  intro n hn
  simp only [Nat.reducePow, true_and, IsLeap]
  omega

def Separator (sep : Bytes) : Prop := sep = [] ∨ sep = ascii "-"

inductive ExistingDate : Bytes → Prop
  | calendar {y m d : Nat} {sep : Bytes} : 1000 ≤ y → y ≤ 9999 → Separator sep → IsDay y m d →
      ExistingDate (padded 4 y ++ (sep ++ (padded 2 m ++ (sep ++ padded 2 d))))
  | ordinal {y n : Nat} {sep : Bytes} : 1000 ≤ y → y ≤ 9999 → Separator sep → IsDayOfYear y n →
      ExistingDate (padded 4 y ++ (sep ++ padded 3 n))

theorem separator_takes : Takes (opt (text "-")) Separator := (takes_text "-").opt

theorem match_day_iff {a b : Regex} {P Q : Nat → Prop} (ha : Numeral a 2 P) (hb : Numeral b 2 Q)
    {index : Nat} {c c' : Captures} {sep w : Bytes} (hc : c.lookup index = some sep) :
    Match (seqs [a, backref index, b]) c w c' ↔ c' = c ∧ ∃ m d, (m < 10 ^ 2 ∧ P m) ∧
      (d < 10 ^ 2 ∧ Q d) ∧ w = padded 2 m ++ (sep ++ padded 2 d) := by
  change Match (seq a (seq (backref index) b)) c w c' ↔ _
  rw [ha.match_seq]
  constructor
  · rintro ⟨m, _, hm, hP, rfl, h⟩
    obtain ⟨_, _, v, rfl, hsep, hday⟩ := match_seq_iff.mp h
    obtain ⟨rfl, rfl⟩ := match_backref_iff.mp hsep
    obtain ⟨rfl, d, hd, hQ, rfl⟩ := (hb _ _ _).mp hday
    exact ⟨rfl, m, d, ⟨hm, hP⟩, ⟨hd, hQ⟩, by rw [hc, Option.getD_some]⟩
  · rintro ⟨rfl, m, d, ⟨hm, hP⟩, ⟨hd, hQ⟩, rfl⟩
    refine ⟨m, _, hm, hP, rfl, ?_⟩
    exact .seq (match_backref_iff.mpr ⟨rfl, by rw [hc, Option.getD_some]⟩)
      ((hb _ _ _).mpr ⟨rfl, d, hd, hQ, rfl⟩)

def commonDays : Regex :=
  alts [seqs [month, backref 1, day28], seqs [monthWith30, backref 1, alt (text "29") (text "30")],
    seqs [monthWith31, backref 1, text "31"], dayOfYear365]

theorem match_commonDays_iff {sep w : Bytes} {c' : Captures} :
    Match commonDays [(1, sep)] w c' ↔ c' = [(1, sep)] ∧
      ((∃ m d, IsCommonDay m d ∧ w = padded 2 m ++ (sep ++ padded 2 d)) ∨
        ∃ n, (1 ≤ n ∧ n ≤ 365) ∧ w = padded 3 n) := by
  have hc : List.lookup 1 [(1, sep)] = some sep := rfl
  have h2930 : Numeral (alt (text "29") (text "30")) 2 (fun n => n = 29 ∨ n = 30) :=
    (Numeral.text rfl (by decide)).alt (Numeral.text rfl (by decide))
  have h31 : Numeral (text "31") 2 (· = 31) := Numeral.text rfl (by decide)
  have hordinal : Numeral (alts [dayOfYear365]) 3 _ := dayOfYear365_numeral
  change Match (alt _ (alt _ (alt _ _))) _ _ _ ↔ _
  rw [match_alt_iff, match_alt_iff, match_alt_iff, match_day_iff month_numeral day28_numeral hc,
    match_day_iff monthWith30_numeral h2930 hc, match_day_iff monthWith31_numeral h31 hc, hordinal]
  constructor
  · rintro (⟨rfl, m, d, ⟨-, hm⟩, ⟨-, hd⟩, rfl⟩ | ⟨rfl, m, d, ⟨-, hm⟩, ⟨-, hd⟩, rfl⟩ |
      ⟨rfl, m, d, ⟨-, hm⟩, ⟨-, hd⟩, rfl⟩ | ⟨rfl, n, -, hn, rfl⟩)
    · exact ⟨rfl, .inl ⟨m, d, ⟨hm, by omega⟩, rfl⟩⟩
    · exact ⟨rfl, .inl ⟨m, d, ⟨by omega, by omega⟩, rfl⟩⟩
    · exact ⟨rfl, .inl ⟨m, d, ⟨by omega, by omega⟩, rfl⟩⟩
    · exact ⟨rfl, .inr ⟨n, hn, rfl⟩⟩
  · rintro ⟨rfl, ⟨m, d, ⟨hm, h1, hd⟩, rfl⟩ | ⟨n, hn, rfl⟩⟩
    · rcases Nat.lt_or_ge 28 d with h28 | h28
      · rcases Nat.lt_or_ge 30 d with h30 | h30
        · exact .inr (.inr (.inl ⟨rfl, m, d, ⟨by omega, by omega⟩, ⟨by omega, by omega⟩, rfl⟩))
        · exact .inr (.inl ⟨rfl, m, d, ⟨by omega, by omega⟩, ⟨by omega, by omega⟩, rfl⟩)
      · exact .inl ⟨rfl, m, d, ⟨by omega, hm⟩, ⟨by omega, by omega⟩, rfl⟩
    · exact .inr (.inr (.inr ⟨rfl, n, by omega, hn, rfl⟩))

theorem match_commonDate_iff {w : Bytes} {c' : Captures} :
    Match commonDate [] w c' ↔ ∃ y sep v, (y < 10 ^ 4 ∧ 1000 ≤ y) ∧ Separator sep ∧
      w = padded 4 y ++ (sep ++ v) ∧ Match commonDays [(1, sep)] v c' := by
  change Match (seq (cls [range '1' '9']) (seq (times 3 digit) _)) [] w c' ↔ _
  rw [match_seq_assoc, year_numeral.match_seq]
  constructor
  · rintro ⟨y, _, hlt, hy, rfl, h⟩
    obtain ⟨sep, v, hsep, rfl, hv⟩ := (separator_takes.match_group_seq 1).mp h
    exact ⟨y, sep, v, ⟨hlt, hy⟩, hsep, rfl, hv⟩
  · rintro ⟨y, sep, v, ⟨hlt, hy⟩, hsep, rfl, hv⟩
    exact ⟨y, sep ++ v, hlt, hy, rfl, (separator_takes.match_group_seq 1).mpr ⟨sep, v, hsep, rfl, hv⟩⟩

theorem match_leapDate_iff {w : Bytes} :
    (∃ c', Match leapDate [] w c') ↔ ∃ y sep v, (y < 10 ^ 4 ∧ 1000 ≤ y ∧ IsLeap y) ∧
      Separator sep ∧ w = padded 4 y ++ (sep ++ v) ∧
      (v = padded 2 2 ++ (sep ++ padded 2 29) ∨ v = padded 3 366) := by
  have h02 : Numeral (text "02") 2 (· = 2) := Numeral.text rfl (by decide)
  have h29 : Numeral (text "29") 2 (· = 29) := Numeral.text rfl (by decide)
  have h366 : ascii "366" = padded 3 366 := rfl
  unfold leapDate
  constructor
  · rintro ⟨c', h⟩
    obtain ⟨y, _, hlt, hy, rfl, hday⟩ := leapYear_numeral.match_seq.mp h
    rcases match_alt_iff.mp hday with hday | hday
    · obtain ⟨sep, v, hsep, rfl, hv⟩ := (separator_takes.match_group_seq 2).mp hday
      obtain ⟨-, m, d, ⟨-, rfl⟩, ⟨-, rfl⟩, rfl⟩ := (match_day_iff h02 h29 rfl).mp hv
      exact ⟨y, sep, _, ⟨hlt, hy⟩, hsep, rfl, .inl rfl⟩
    · obtain ⟨sep, _, v, rfl, hdash, hv⟩ := match_seq_iff.mp hday
      obtain ⟨rfl, hsep⟩ := (separator_takes _ _ _).mp hdash
      obtain ⟨rfl, rfl⟩ := match_text_iff.mp hv
      exact ⟨y, sep, _, ⟨hlt, hy⟩, hsep, rfl, .inr h366⟩
  · rintro ⟨y, sep, v, ⟨hlt, hy⟩, hsep, rfl, rfl | rfl⟩
    · refine ⟨[(2, sep)], leapYear_numeral.match_seq.mpr ⟨y, _, hlt, hy, rfl, .altLeft _ ?_⟩⟩
      exact (separator_takes.match_group_seq 2).mpr ⟨sep, _, hsep, rfl,
        (match_day_iff h02 h29 rfl).mpr ⟨rfl, 2, 29, ⟨by decide, rfl⟩, ⟨by decide, rfl⟩, rfl⟩⟩
    · refine ⟨[], leapYear_numeral.match_seq.mpr ⟨y, _, hlt, hy, rfl, .altRight _ ?_⟩⟩
      exact .seq ((separator_takes _ _ _).mpr ⟨rfl, hsep⟩) (match_text_iff.mpr ⟨rfl, h366.symm⟩)

theorem match_date_iff {w : Bytes} :
    (∃ c', Match (alt commonDate leapDate) [] w c') ↔ ExistingDate w := by
  constructor
  · rintro ⟨c', h⟩
    rcases match_alt_iff.mp h with h | h
    · obtain ⟨y, sep, v, ⟨hlt, hy⟩, hsep, rfl, hv⟩ := match_commonDate_iff.mp h
      obtain ⟨-, ⟨m, d, hday, rfl⟩ | ⟨n, hn, rfl⟩⟩ := match_commonDays_iff.mp hv
      · exact .calendar hy (by omega) hsep (isDay_iff.mpr (.inl hday))
      · exact .ordinal hy (by omega) hsep (isDayOfYear_iff.mpr (.inl hn))
    · obtain ⟨y, sep, v, ⟨hlt, hy, hleap⟩, hsep, rfl, rfl | rfl⟩ := match_leapDate_iff.mp ⟨c', h⟩
      · exact .calendar hy (by omega) hsep (isDay_iff.mpr (.inr ⟨hleap, rfl, rfl⟩))
      · exact .ordinal hy (by omega) hsep (isDayOfYear_iff.mpr (.inr ⟨hleap, rfl⟩))
  · intro h
    cases h with
    | @calendar y m d sep hy hy' hsep hday =>
      rcases isDay_iff.mp hday with hc | ⟨hleap, rfl, rfl⟩
      · exact ⟨_, .altLeft _ (match_commonDate_iff.mpr ⟨y, sep, _, ⟨by omega, hy⟩, hsep, rfl,
          match_commonDays_iff.mpr ⟨rfl, .inl ⟨m, d, hc, rfl⟩⟩⟩)⟩
      · obtain ⟨c', hm⟩ := match_leapDate_iff.mpr
          ⟨y, sep, _, ⟨by omega, hy, hleap⟩, hsep, rfl, .inl rfl⟩
        exact ⟨c', .altRight _ hm⟩
    | @ordinal y n sep hy hy' hsep hday =>
      rcases isDayOfYear_iff.mp hday with hn | ⟨hleap, rfl⟩
      · exact ⟨_, .altLeft _ (match_commonDate_iff.mpr ⟨y, sep, _, ⟨by omega, hy⟩, hsep, rfl,
          match_commonDays_iff.mpr ⟨rfl, .inr ⟨n, hn, rfl⟩⟩⟩)⟩
      · obtain ⟨c', hm⟩ := match_leapDate_iff.mpr
          ⟨y, sep, _, ⟨by omega, hy, hleap⟩, hsep, rfl, .inr rfl⟩
        exact ⟨c', .altRight _ hm⟩

end QdsBuffer.Parsing
