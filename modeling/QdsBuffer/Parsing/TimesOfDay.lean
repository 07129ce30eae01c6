import QdsBuffer.Parsing.Timestamps

namespace QdsBuffer.Parsing
open Bytes Regex

def Colon (sep : Bytes) : Prop := sep = [] ∨ sep = ascii ":"

def Sexagesimal (sep w : Bytes) : Prop := ∃ n ≤ 59, w = sep ++ padded 2 n

def HourMinute (sep w : Bytes) : Prop := ∃ h ≤ 23, ∃ m, Sexagesimal sep m ∧ w = padded 2 h ++ m

def Figures (ds : Bytes) : Prop := (1 ≤ ds.length ∧ ds.length ≤ 6) ∧ ∀ b ∈ ds, isDigit b = true

inductive TimeOfDay : Bytes → Prop
  | mk {sep hm second fraction : Bytes} : Colon sep → HourMinute sep hm →
      (second = [] ∨ Sexagesimal sep second) →
      (fraction = [] ∨ ∃ ds, Figures ds ∧ fraction = ascii "." ++ ds) →
      TimeOfDay (hm ++ (second ++ fraction))

inductive Offset (sep : Bytes) : Bytes → Prop
  | utc : Offset sep (ascii "Z")
  | shift {sign : UInt8} {h : Nat} {minutes : Bytes} : sign ∈ ascii "+-" → h ≤ 19 →
      (minutes = [] ∨ Sexagesimal sep minutes) → Offset sep (sign :: (padded 2 h ++ minutes))

-- Timestamps with digits after the minute that are not its seconds, or right after the second.
inductive UndottedFraction : Bytes → Prop
  | afterMinute {date sep hm ds offset : Bytes} : ExistingDate date → Colon sep →
      HourMinute sep hm → Figures ds → ¬ Sexagesimal sep ds → Offset sep offset →
      UndottedFraction (date ++ (ascii "T" ++ (hm ++ (ds ++ offset))))
  | afterSecond {date sep hm second ds offset : Bytes} : ExistingDate date → Colon sep →
      HourMinute sep hm → Sexagesimal sep second → Figures ds → Offset sep offset →
      UndottedFraction (date ++ (ascii "T" ++ (hm ++ (second ++ (ds ++ offset)))))

-- The part between the first T and the sign or letter that begins the offset.
def timePart (s : Bytes) : Bytes :=
  ((s.dropWhile (· ≠ 'T'.toUInt8)).drop 1).takeWhile (fun b => !(ascii "Z+-").contains b)

example : timePart (ascii "2019-02-18T13:29:43.123+02:00") = ascii "13:29:43.123" := by decide

theorem upTo1_numeral : Numeral (set "01") 1 (· ≤ 1) :=
  (Numeral.cls (by decide)).congr (by decide)

theorem hour_numeral :
    Numeral (alt (seq (set "01") digit) (seq (text "2") (cls [range '0' '3']))) 2 (· ≤ 23) := by
  have h03 : Numeral (cls [range '0' '3']) 1 (· ≤ 3) := (Numeral.cls (by decide)).congr (by decide)
  refine ((upTo1_numeral.seq digit_numeral).alt (text2_numeral.seq h03)).congr ?_
  intro n hn
  simp only [and_true]
  omega

theorem minute_numeral : Numeral minute 2 (· ≤ 59) := by
  refine (upTo5_numeral.seq digit_numeral).congr ?_
  intro n hn
  simp only [and_true]
  omega

theorem offsetHour_numeral : Numeral (seq (set "01") digit) 2 (· ≤ 19) := by
  refine (upTo1_numeral.seq digit_numeral).congr ?_
  intro n hn
  simp only [and_true]
  omega

theorem match_sexagesimal_iff {c c' : Captures} {sep w : Bytes} (hc : c.lookup 3 = some sep) :
    Match (opt (seq (backref 3) minute)) c w c' ↔ c' = c ∧ (w = [] ∨ Sexagesimal sep w) := by
  rw [match_opt_iff, or_comm, and_or_left, match_seq_iff]
  refine or_congr_right ⟨?_, ?_⟩
  · rintro ⟨_, _, v, rfl, hsep, hminute⟩
    obtain ⟨rfl, rfl⟩ := match_backref_iff.mp hsep
    obtain ⟨rfl, n, -, hn, rfl⟩ := (minute_numeral _ _ _).mp hminute
    exact ⟨rfl, n, hn, by rw [hc, Option.getD_some]⟩
  · rintro ⟨rfl, n, hn, rfl⟩
    refine ⟨sep, c', padded 2 n, rfl, match_backref_iff.mpr ⟨rfl, by rw [hc, Option.getD_some]⟩, ?_⟩
    exact (minute_numeral _ _ _).mpr ⟨rfl, n, by omega, hn, rfl⟩

def Fraction (w : Bytes) : Prop :=
  w = [] ∨ ∃ dot ds, (dot = [] ∨ dot = ascii ".") ∧ Figures ds ∧ w = dot ++ ds

-- The times of the pattern. In TimeOfDay a fraction has its dot.
inductive Clock (sep : Bytes) : Bytes → Prop
  | mk {hm second fraction : Bytes} : Colon sep → HourMinute sep hm →
      (second = [] ∨ Sexagesimal sep second) → Fraction fraction →
      Clock sep (hm ++ (second ++ fraction))

theorem admits_digit (b : UInt8) : admits [range '0' '9'] b = isDigit b := by
  simp only [admits, List.any_cons, List.any_nil, Bool.or_false]
  rfl

theorem figures_takes : Takes (seq digit (upTo 5 digit)) Figures := by
  intro c w c'
  have hone : Takes digit _ := takes_cls [range '0' '9']
  have hmore : Takes (upTo 5 digit) _ := takes_upTo 5
  rw [hone.seq hmore]
  refine and_congr_right (fun _ => ?_)
  simp only [admits_digit, Figures]
  constructor
  · rintro ⟨_, v, ⟨x, hx, rfl⟩, ⟨hlen, hall⟩, rfl⟩
    exact ⟨⟨Nat.succ_le_succ (Nat.zero_le _), Nat.succ_le_succ hlen⟩,
      List.forall_mem_cons.mpr ⟨hx, hall⟩⟩
  · rintro ⟨⟨hpos, hlen⟩, hall⟩
    cases w with
    | nil => exact absurd hpos (by decide)
    | cons x w =>
      obtain ⟨hx, hw⟩ := List.forall_mem_cons.mp hall
      exact ⟨[x], w, ⟨x, hx, rfl⟩, ⟨Nat.le_of_succ_le_succ hlen, hw⟩, rfl⟩

def fractionPattern : Regex := opt (group 4 (seqs [opt (text "."), digit, upTo 5 digit]))

theorem match_fraction_iff {c : Captures} {w : Bytes} :
    (∃ c', Match fractionPattern c w c') ↔ Fraction w := by
  have hnumber : Takes (seqs [opt (text "."), digit, upTo 5 digit]) _ :=
    (takes_text ".").opt.seq figures_takes
  simp only [fractionPattern, match_opt_iff, match_group_iff, hnumber c w _]
  constructor
  · rintro ⟨c', ⟨_, ⟨-, dot, ds, hdot, hds, hw⟩, -⟩ | ⟨-, hw⟩⟩
    · exact .inr ⟨dot, ds, hdot, hds, hw⟩
    · exact .inl hw
  · rintro (hw | ⟨dot, ds, hdot, hds, hw⟩)
    · exact ⟨c, .inr ⟨rfl, hw⟩⟩
    · exact ⟨_, .inl ⟨c, ⟨rfl, dot, ds, hdot, hds, hw⟩, rfl⟩⟩

theorem fraction_keeps {c c' : Captures} {w : Bytes} (h : Match fractionPattern c w c') :
    c'.lookup 3 = c.lookup 3 :=
  h.keeps (by decide)

theorem iso8601Time_split : iso8601Time =
    seq (alt (seq (set "01") digit) (seq (text "2") (cls [range '0' '3'])))
      (seq (group 3 (opt (text ":"))) (seq minute (seq (opt (seq (backref 3) minute))
        fractionPattern))) := rfl

theorem clock_of_match {w : Bytes} {c' : Captures} (h : Match iso8601Time [] w c') :
    ∃ sep, Clock sep w ∧ c'.lookup 3 = some sep := by
  rw [iso8601Time_split, hour_numeral.match_seq] at h
  obtain ⟨n, _, -, hn, rfl, hcolon⟩ := h
  obtain ⟨sep, _, hsep, rfl, hminute⟩ := ((takes_text ":").opt.match_group_seq 3).mp hcolon
  obtain ⟨m, _, -, hm, rfl, hrest⟩ := minute_numeral.match_seq.mp hminute
  obtain ⟨second, c₁, fraction, rfl, hopt, hfraction⟩ := match_seq_iff.mp hrest
  obtain ⟨rfl, hsecond⟩ := (match_sexagesimal_iff rfl).mp hopt
  have hhm : HourMinute sep (padded 2 n ++ (sep ++ padded 2 m)) :=
    ⟨n, hn, _, ⟨m, hm, rfl⟩, rfl⟩
  have hclock := Clock.mk hsep hhm hsecond (match_fraction_iff.mp ⟨c', hfraction⟩)
  simp only [List.append_assoc] at hclock
  exact ⟨sep, hclock, fraction_keeps hfraction⟩

theorem match_of_clock {sep w : Bytes} (h : Clock sep w) :
    ∃ c', Match iso8601Time [] w c' ∧ c'.lookup 3 = some sep := by
  obtain ⟨hsep, ⟨n, hn, _, ⟨m, hm, rfl⟩, rfl⟩, hsecond, hfraction⟩ := h
  obtain ⟨c', hc'⟩ := match_fraction_iff (c := [(3, sep)]).mpr hfraction
  refine ⟨c', ?_, fraction_keeps hc'⟩
  simp only [List.append_assoc]
  refine hour_numeral.match_seq.mpr ⟨n, _, by omega, hn, rfl, ?_⟩
  refine ((takes_text ":").opt.match_group_seq 3).mpr ⟨sep, _, hsep, rfl, ?_⟩
  refine minute_numeral.match_seq.mpr ⟨m, _, by omega, hm, rfl, ?_⟩
  exact .seq ((match_sexagesimal_iff rfl).mpr ⟨rfl, hsecond⟩) hc'

theorem match_offset_iff {c c' : Captures} {sep w : Bytes} (hc : c.lookup 3 = some sep) :
    Match iso8601Offset c w c' ↔ c' = c ∧ Offset sep w := by
  change Match (alt (text "Z") (seq (set "+-") (seq (set "01") (seq digit
    (opt (seq (backref 3) minute)))))) _ _ _ ↔ _
  rw [match_alt_iff, match_text_iff, (takes_set "+-").match_seq]
  simp only [match_seq_assoc, offsetHour_numeral.match_seq, match_sexagesimal_iff hc]
  constructor
  · rintro (⟨rfl, rfl⟩ | ⟨_, _, ⟨sign, hs, rfl⟩, rfl, h, minutes, -, hh, rfl, rfl, hm⟩)
    · exact ⟨rfl, .utc⟩
    · exact ⟨rfl, .shift hs hh hm⟩
  · rintro ⟨rfl, h⟩
    cases h with
    | utc => exact .inl ⟨rfl, rfl⟩
    | @shift sign h minutes hs hh hm =>
      exact .inr ⟨[sign], _, ⟨sign, hs, rfl⟩, rfl, h, minutes, by omega, hh, rfl, rfl, hm⟩

theorem timeAndOffset_parts {suffix : Bytes} :
    TimeAndOffset suffix ↔ ∃ sep time offset, Clock sep time ∧ Offset sep offset ∧
      suffix = time ++ offset := by
  constructor
  · rintro ⟨c', h⟩
    obtain ⟨time, c₁, offset, rfl, htime, hoffset⟩ := match_seq_iff.mp h
    obtain ⟨sep, hclock, hc₁⟩ := clock_of_match htime
    exact ⟨sep, time, offset, hclock, ((match_offset_iff hc₁).mp hoffset).2, rfl⟩
  · rintro ⟨sep, time, offset, hclock, hoffset, rfl⟩
    obtain ⟨c₁, htime, hc₁⟩ := match_of_clock hclock
    exact ⟨c₁, .seq htime ((match_offset_iff hc₁).mpr ⟨rfl, hoffset⟩)⟩

def timeByte (b : UInt8) : Bool := isDigit b || b = 58 || b = 46

theorem Colon.bytes {sep : Bytes} (h : Colon sep) : ∀ b ∈ sep, timeByte b = true := by
  apply List.all_eq_true.mp
  rcases h with rfl | rfl <;> rfl

theorem timeByte_of_digit {b : UInt8} (h : isDigit b = true) : timeByte b = true := by
  simp [timeByte, h]

theorem Sexagesimal.bytes {sep w : Bytes} (hsep : Colon sep) (h : Sexagesimal sep w) :
    ∀ b ∈ w, timeByte b = true := by
  obtain ⟨n, -, rfl⟩ := h
  refine List.forall_mem_append.mpr ⟨hsep.bytes, ?_⟩
  exact fun b hb => timeByte_of_digit (padded_isDigit 2 n b hb)

theorem HourMinute.bytes {sep w : Bytes} (hsep : Colon sep) (h : HourMinute sep w) :
    ∀ b ∈ w, timeByte b = true := by
  obtain ⟨n, -, m, hm, rfl⟩ := h
  refine List.forall_mem_append.mpr ⟨?_, hm.bytes hsep⟩
  exact fun b hb => timeByte_of_digit (padded_isDigit 2 n b hb)

theorem Fraction.bytes {w : Bytes} (h : Fraction w) : ∀ b ∈ w, timeByte b = true := by
  rcases h with rfl | ⟨dot, ds, hdot, hds, rfl⟩
  · simp
  · refine List.forall_mem_append.mpr ⟨?_, fun b hb => timeByte_of_digit (hds.2 b hb)⟩
    apply List.all_eq_true.mp
    rcases hdot with rfl | rfl <;> rfl

theorem Clock.bytes {sep w : Bytes} (h : Clock sep w) : ∀ b ∈ w, timeByte b = true := by
  obtain ⟨hsep, hhm, hsecond, hfraction⟩ := h
  refine List.forall_mem_append.mpr ⟨hhm.bytes hsep,
    List.forall_mem_append.mpr ⟨?_, hfraction.bytes⟩⟩
  rcases hsecond with rfl | hsecond
  · simp
  · exact hsecond.bytes hsep

theorem Offset.begins {sep w : Bytes} (h : Offset sep w) :
    ∃ b rest, w = b :: rest ∧ b ∈ ascii "Z+-" := by
  cases h with
  | utc => exact ⟨_, [], rfl, by decide⟩
  | shift hs _ _ => exact ⟨_, _, rfl, List.mem_cons_of_mem _ hs⟩

theorem timeByte_continues {b : UInt8} (h : timeByte b = true) :
    (!(ascii "Z+-").contains b) = true := by
  have hstops : (ascii "Z+-").all (fun b => !timeByte b) = true := by decide
  rw [Bool.not_eq_true', ← Bool.not_eq_true, List.contains_iff_mem]
  intro hb
  have hno := List.all_eq_true.mp hstops b hb
  simp [h] at hno

theorem timePart_eq {date time sep offset : Bytes} (hdate : 'T'.toUInt8 ∉ date)
    (htime : ∀ b ∈ time, timeByte b = true) (hoffset : Offset sep offset) :
    timePart (date ++ (ascii "T" ++ (time ++ offset))) = time := by
  obtain ⟨b, rest, rfl, hb⟩ := hoffset.begins
  have hT : ∀ x ∈ date, decide (x ≠ 'T'.toUInt8) = true :=
    fun x hx => decide_eq_true (fun heq => hdate (heq ▸ hx))
  have hdrop : (date ++ (ascii "T" ++ (time ++ b :: rest))).dropWhile (· ≠ 'T'.toUInt8) =
      'T'.toUInt8 :: (time ++ b :: rest) := by
    rw [List.dropWhile_append_of_pos hT]
    rfl
  rw [timePart, hdrop, List.drop_one, List.tail_cons,
    List.takeWhile_append_of_pos (fun x hx => timeByte_continues (htime x hx)),
    List.takeWhile_cons_of_neg (by simpa using hb), List.append_nil]

theorem colon_ne_padded (n : Nat) (rest tail : Bytes) : ascii ":" ++ rest ≠ padded 2 n ++ tail := by
  intro heq
  cases hp : padded 2 n with
  | nil =>
    have hlen := padded_length 2 n
    rw [hp] at hlen
    cases hlen
  | cons x xs =>
    have hx := padded_isDigit 2 n x (hp ▸ List.mem_cons_self)
    rw [hp] at heq
    rw [← (List.cons.inj heq).1] at hx
    exact absurd hx (by decide)

theorem HourMinute.split {sep sep' hm hm' tail tail' : Bytes} (hsep : Colon sep)
    (hsep' : Colon sep') (h : HourMinute sep hm) (h' : HourMinute sep' hm')
    (heq : hm ++ tail = hm' ++ tail') : sep = sep' ∧ tail = tail' := by
  obtain ⟨n, -, _, ⟨m, -, rfl⟩, rfl⟩ := h
  obtain ⟨n', -, _, ⟨m', -, rfl⟩, rfl⟩ := h'
  simp only [List.append_assoc] at heq
  have hrest := (List.append_inj heq (by simp only [padded_length])).2
  have hsame : ∀ u u', padded 2 m ++ u = padded 2 m' ++ u' → u = u' :=
    fun u u' h => (List.append_inj h (by simp only [padded_length])).2
  rcases hsep with rfl | rfl <;> rcases hsep' with rfl | rfl
  · exact ⟨rfl, hsame _ _ hrest⟩
  · exact absurd hrest.symm (colon_ne_padded m _ _)
  · exact absurd hrest (colon_ne_padded m' _ _)
  · exact ⟨rfl, hsame _ _ (List.append_cancel_left hrest)⟩

theorem Figures.dotless {ds : Bytes} (h : Figures ds) : '.'.toUInt8 ∉ ds := by
  intro hdot
  exact absurd (h.2 _ hdot) (by decide)

theorem Sexagesimal.dotless {sep w : Bytes} (hsep : Colon sep) (h : Sexagesimal sep w) :
    '.'.toUInt8 ∉ w := by
  obtain ⟨n, -, rfl⟩ := h
  rw [List.mem_append, not_or]
  refine ⟨?_, fun hdot => absurd (padded_isDigit 2 n _ hdot) (by decide)⟩
  rcases hsep with rfl | rfl <;> decide

theorem Sexagesimal.length {sep w : Bytes} (h : Sexagesimal sep w) : w.length = sep.length + 2 := by
  obtain ⟨n, -, rfl⟩ := h
  rw [List.length_append, padded_length]

theorem second_of_dotless {sep hm tail : Bytes} (hsep : Colon sep) (hhm : HourMinute sep hm)
    (hdot : '.'.toUInt8 ∉ tail) (h : TimeOfDay (hm ++ tail)) : tail = [] ∨ Sexagesimal sep tail := by
  generalize hw : hm ++ tail = w at h
  obtain ⟨hsep', hhm', hsecond, hfraction⟩ := h
  obtain ⟨rfl, rfl⟩ := HourMinute.split hsep hsep' hhm hhm' hw
  rcases hfraction with rfl | ⟨ds, -, rfl⟩
  · rwa [List.append_nil]
  · refine absurd (List.mem_append_right _ ?_) hdot
    exact List.mem_cons_self

theorem undotted_accepted {s : Bytes} (h : UndottedFraction s) :
    isTimestamp s = true ∧ ¬ TimeOfDay (timePart s) := by
  have haccepted : ∀ {date sep time offset}, ExistingDate date → Clock sep time → Offset sep offset →
      isTimestamp (date ++ (ascii "T" ++ (time ++ offset))) = true ∧
        timePart (date ++ (ascii "T" ++ (time ++ offset))) = time := by
    intro date sep time offset hdate hclock hoffset
    exact ⟨isTimestamp_iff.mpr ⟨date, _, rfl, hdate, timeAndOffset_parts.mpr
      ⟨sep, time, offset, hclock, hoffset, rfl⟩⟩, timePart_eq hdate.without_T hclock.bytes hoffset⟩
  cases h with
  | @afterMinute date sep hm ds offset hdate hsep hhm hds hno hoffset =>
    have hclock : Clock sep (hm ++ ([] ++ ds)) :=
      .mk hsep hhm (.inl rfl) (.inr ⟨[], ds, .inl rfl, hds, rfl⟩)
    obtain ⟨haccept, htime⟩ := haccepted hdate hclock hoffset
    rw [List.nil_append, List.append_assoc] at haccept htime
    refine ⟨haccept, ?_⟩
    rw [htime]
    intro h
    rcases second_of_dotless hsep hhm hds.dotless h with rfl | hsecond
    · exact absurd hds.1.1 (by decide)
    · exact hno hsecond
  | @afterSecond date sep hm second ds offset hdate hsep hhm hsecond hds hoffset =>
    have hclock : Clock sep (hm ++ (second ++ ds)) :=
      .mk hsep hhm (.inr hsecond) (.inr ⟨[], ds, .inl rfl, hds, rfl⟩)
    obtain ⟨haccept, htime⟩ := haccepted hdate hclock hoffset
    rw [List.append_assoc, List.append_assoc] at haccept htime
    refine ⟨haccept, ?_⟩
    rw [htime]
    intro h
    have hdot : '.'.toUInt8 ∉ second ++ ds := by
      rw [List.mem_append, not_or]
      exact ⟨hsecond.dotless hsep, hds.dotless⟩
    have hpos := hds.1.1
    have hlen := hsecond.length
    rcases second_of_dotless hsep hhm hdot h with hnil | htail
    · rw [(List.append_eq_nil_iff.mp hnil).2] at hpos
      exact absurd hpos (by decide)
    · have hlong := htail.length
      rw [List.length_append] at hlong
      omega

theorem times_in_range_iff (s : Bytes) :
    (isTimestamp s = true → TimeOfDay (timePart s)) ↔ ¬ UndottedFraction s := by
  constructor
  · intro h hundotted
    obtain ⟨haccept, hno⟩ := undotted_accepted hundotted
    exact hno (h haccept)
  · intro hno hs
    obtain ⟨date, _, rfl, hdate, hsuffix⟩ := isTimestamp_iff.mp hs
    obtain ⟨sep, time, offset, hclock, hoffset, rfl⟩ := timeAndOffset_parts.mp hsuffix
    rw [timePart_eq hdate.without_T hclock.bytes hoffset]
    obtain ⟨hsep, hhm, hsecond, hfraction⟩ := hclock
    rcases hfraction with rfl | ⟨dot, ds, hdot, hds, hfraction⟩
    · exact .mk hsep hhm hsecond (.inl rfl)
    · subst hfraction
      rcases hdot with rfl | rfl
      · rw [List.nil_append] at hno ⊢
        rcases hsecond with rfl | hsecond
        · rw [List.nil_append, List.append_assoc] at hno
          by_cases hlast : Sexagesimal sep ds
          · simpa using TimeOfDay.mk hsep hhm (.inr hlast) (.inl rfl)
          · exact absurd (.afterMinute hdate hsep hhm hds hlast hoffset) hno
        · rw [List.append_assoc, List.append_assoc] at hno
          exact absurd (.afterSecond hdate hsep hhm hsecond hds hoffset) hno
      · exact .mk hsep hhm hsecond (.inr ⟨ds, hds, rfl⟩)

theorem sixtieth_second_accepted :
    isTimestamp (ascii "2019-02-18T132960Z") = true ∧
      timePart (ascii "2019-02-18T132960Z") = ascii "132960" ∧
      ¬ (isTimestamp (ascii "2019-02-18T132960Z") = true →
        TimeOfDay (timePart (ascii "2019-02-18T132960Z"))) := by
  have haccept : isTimestamp (ascii "2019-02-18T132960Z") = true := by decide
  have htime : timePart (ascii "2019-02-18T132960Z") = ascii "1329" ++ ascii "60" := by decide
  refine ⟨haccept, htime, ?_⟩
  intro h
  have hhm : HourMinute [] (ascii "1329") :=
    ⟨13, by decide, ascii "29", ⟨29, by decide, rfl⟩, rfl⟩
  have hlast := second_of_dotless (.inl rfl) hhm (by decide) (htime ▸ h haccept)
  have hno : ∀ n ≤ 59, ascii "60" ≠ padded 2 n := by decide
  rcases hlast with hnil | ⟨n, hn, heq⟩
  · exact absurd hnil (by decide)
  · exact hno n hn heq

@[ext]
structure TimestampParts where
  date : Bytes
  separator : Bytes
  time : Bytes
  offset : Bytes

structure IsParts (s : Bytes) (p : TimestampParts) : Prop where
  date : ExistingDate p.date
  clock : Clock p.separator p.time
  offset : Offset p.separator p.offset
  whole : s = p.date ++ (ascii "T" ++ (p.time ++ p.offset))

theorem Clock.separator {sep sep' time : Bytes} (h : Clock sep time) (h' : Clock sep' time) :
    sep = sep' := by
  generalize hw : time = w at h'
  obtain ⟨hsep, hhm, -, -⟩ := h
  obtain ⟨hsep', hhm', -, -⟩ := h'
  exact (HourMinute.split hsep hsep' hhm hhm' hw).1

theorem IsParts.time {s : Bytes} {p : TimestampParts} (h : IsParts s p) : timePart s = p.time := by
  rw [h.whole]
  exact timePart_eq h.date.without_T h.clock.bytes h.offset

theorem IsParts.unique {s : Bytes} {p q : TimestampParts} (hp : IsParts s p) (hq : IsParts s q) :
    p = q := by
  have htime : p.time = q.time := hp.time.symm.trans hq.time
  have hsep : p.separator = q.separator := hp.clock.separator (htime ▸ hq.clock)
  obtain ⟨hdate, hrest⟩ := split_at_first hp.date.without_T hq.date.without_T
    (hp.whole.symm.trans hq.whole)
  have hoffset : p.offset = q.offset := by
    change p.time ++ p.offset = q.time ++ q.offset at hrest
    rw [htime] at hrest
    exact List.append_cancel_left hrest
  exact TimestampParts.ext hdate hsep htime hoffset

-- The whole grammar of a TIMESTAMP: nothing else is accepted, and it is read in one way only.
theorem timestamp_grammar (s : Bytes) : isTimestamp s = true ↔ ∃! p, IsParts s p := by
  constructor
  · intro hs
    obtain ⟨date, _, rfl, hdate, hsuffix⟩ := isTimestamp_iff.mp hs
    obtain ⟨sep, time, offset, hclock, hoffset, rfl⟩ := timeAndOffset_parts.mp hsuffix
    have hparts : IsParts _ ⟨date, sep, time, offset⟩ := ⟨hdate, hclock, hoffset, rfl⟩
    exact ⟨_, hparts, fun q hq => hq.unique hparts⟩
  · rintro ⟨p, hp, -⟩
    exact isTimestamp_iff.mpr ⟨p.date, p.time ++ p.offset, hp.whole, hp.date,
      timeAndOffset_parts.mpr ⟨p.separator, p.time, p.offset, hp.clock, hp.offset, rfl⟩⟩

end QdsBuffer.Parsing
