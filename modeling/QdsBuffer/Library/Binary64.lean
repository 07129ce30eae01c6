import QdsBuffer.Library.Bytes

structure Binary64 where
  bits : UInt64
  deriving DecidableEq, Repr

namespace Binary64

def negative (d : Binary64) : Bool := 2 ^ 63 ≤ d.bits.toNat

def exponent (d : Binary64) : Nat := d.bits.toNat / 2 ^ 52 % 2 ^ 11

def fraction (d : Binary64) : Nat := d.bits.toNat % 2 ^ 52

def isNaN (d : Binary64) : Bool := d.exponent = 2047 && d.fraction ≠ 0

-- Without the sign bit the encodings of numbers are ordered as the magnitudes they stand for.
def rank (d : Binary64) : Int :=
  if d.negative then -((d.bits.toNat % 2 ^ 63 : Nat) : Int) else (d.bits.toNat % 2 ^ 63 : Nat)

def gt (a b : Binary64) : Bool := !a.isNaN && !b.isNaN && decide (b.rank < a.rank)

def roundHalfEven (n d : Nat) : Nat :=
  let q := n / d
  if 2 * (n % d) < d then q
  else if d < 2 * (n % d) then q + 1
  else if q % 2 = 0 then q else q + 1

def micros (d : Binary64) : Nat :=
  let mantissa := if d.exponent = 0 then d.fraction else 2 ^ 52 + d.fraction
  let scale := if d.exponent = 0 then 1 else d.exponent
  if 1075 ≤ scale then mantissa * 2 ^ (scale - 1075) * 10 ^ 6
  else roundHalfEven (mantissa * 10 ^ 6) (2 ^ (1075 - scale))

def padded (n : Nat) : Bytes :=
  List.replicate (6 - (Bytes.decimal n).length) 48 ++ Bytes.decimal n

def toText (d : Binary64) : Bytes :=
  let magnitude :=
    if d.exponent = 2047 then Bytes.ascii (if d.fraction = 0 then "inf" else "nan")
    else Bytes.decimal (d.micros / 10 ^ 6) ++ Bytes.ascii "." ++ padded (d.micros % 10 ^ 6)
  if d.negative then Bytes.ascii "-" ++ magnitude else magnitude

example : (Binary64.mk 0xC00C28F5C28F5C29).toText = Bytes.ascii "-3.520000" := by decide

theorem padded_inj {m n : Nat} (h : padded m = padded n) : m = n := by
  have hpadded : ∀ k, padded k = (List.replicate (6 - (Bytes.decimal k).length) '0' ++
      Nat.toDigits 10 k).map Char.toUInt8 := by
    intro k
    rw [padded, Bytes.decimal, List.map_append, List.map_replicate]
    rfl
  have hdigits : ∀ k, ∀ c ∈ List.replicate (6 - (Bytes.decimal k).length) '0' ++ Nat.toDigits 10 k,
      c.isDigit = true := by
    intro k
    refine List.forall_mem_append.mpr ⟨fun c hc => ?_, Bytes.toDigits_digit k⟩
    rw [List.eq_of_mem_replicate hc]
    rfl
  have hread : ∀ k, Nat.ofDigitChars 10 (List.replicate (6 - (Bytes.decimal k).length) '0' ++
      Nat.toDigits 10 k) 0 = k := by
    intro k
    rw [Nat.ofDigitChars_append, Nat.ofDigitChars_replicate_zero, Nat.mul_zero,
      Nat.ofDigitChars_ten_toDigits]
  rw [hpadded, hpadded] at h
  rw [← hread m, Bytes.map_toUInt8_inj (hdigits m) (hdigits n) h, hread]

def magnitude (d : Binary64) : Bytes :=
  if d.exponent = 2047 then Bytes.ascii (if d.fraction = 0 then "inf" else "nan")
  else Bytes.decimal (d.micros / 10 ^ 6) ++ Bytes.ascii "." ++ padded (d.micros % 10 ^ 6)

theorem toText_eq (d : Binary64) :
    d.toText = if d.negative then Bytes.ascii "-" ++ d.magnitude else d.magnitude := rfl

-- What printing keeps: the sign, and the magnitude up to its millionths.
def SameMagnitude (d e : Binary64) : Prop :=
  (d.exponent = 2047 ∧ e.exponent = 2047 ∧ (d.fraction = 0 ↔ e.fraction = 0)) ∨
    (d.exponent ≠ 2047 ∧ e.exponent ≠ 2047 ∧ d.micros = e.micros)

def PrintsAs (d e : Binary64) : Prop := d.negative = e.negative ∧ SameMagnitude d e

theorem magnitude_word {d : Binary64} (h : d.exponent = 2047) :
    d.magnitude = Bytes.ascii (if d.fraction = 0 then "inf" else "nan") := if_pos h

theorem magnitude_number {d : Binary64} (h : d.exponent ≠ 2047) :
    d.magnitude = Bytes.decimal (d.micros / 10 ^ 6) ++ (46 :: padded (d.micros % 10 ^ 6)) :=
  (if_neg h).trans (List.append_assoc _ _ _)

theorem dot_mem_magnitude (d : Binary64) : 46 ∈ d.magnitude ↔ d.exponent ≠ 2047 := by
  rcases Decidable.em (d.exponent = 2047) with h | h
  · have hnone : ∀ s ∈ ["inf", "nan"], (46 : UInt8) ∉ Bytes.ascii s := by decide
    have hin : (if d.fraction = 0 then "inf" else "nan") ∈ ["inf", "nan"] := by
      split <;> simp
    rw [magnitude_word h]
    exact iff_of_false (hnone _ hin) (not_not_intro h)
  · rw [magnitude_number h]
    exact iff_of_true (List.mem_append_right _ List.mem_cons_self) h

theorem words_eq_iff {P Q : Prop} [Decidable P] [Decidable Q] :
    Bytes.ascii (if P then "inf" else "nan") = Bytes.ascii (if Q then "inf" else "nan") ↔ (P ↔ Q) := by
  have hwords : Bytes.ascii "inf" ≠ Bytes.ascii "nan" := by decide
  split <;> split <;> simp [*, hwords.symm]

theorem numbers_eq_iff {m n : Nat} :
    Bytes.decimal (m / 10 ^ 6) ++ (46 :: padded (m % 10 ^ 6)) =
      Bytes.decimal (n / 10 ^ 6) ++ (46 :: padded (n % 10 ^ 6)) ↔ m = n := by
  have hnodot : ∀ k, (46 : UInt8) ∉ Bytes.decimal k :=
    fun k hdot => absurd (Bytes.decimal_digit hdot) (by decide)
  constructor
  · intro h
    obtain ⟨hwhole, hrest⟩ := Bytes.split_at_first (hnodot _) (hnodot _) h
    rw [← Nat.div_add_mod m (10 ^ 6), Bytes.decimal_inj hwhole, padded_inj hrest, Nat.div_add_mod]
  · rintro rfl
    rfl

theorem magnitude_eq_iff (d e : Binary64) : d.magnitude = e.magnitude ↔ SameMagnitude d e := by
  unfold SameMagnitude
  rcases Decidable.em (d.exponent = 2047) with hd | hd
  · rcases Decidable.em (e.exponent = 2047) with he | he
    · rw [magnitude_word hd, magnitude_word he, words_eq_iff]
      simp [hd, he]
    · refine iff_of_false (fun h => ?_) (by simp [hd, he])
      exact (dot_mem_magnitude d).mp (h ▸ (dot_mem_magnitude e).mpr he) hd
  · rcases Decidable.em (e.exponent = 2047) with he | he
    · refine iff_of_false (fun h => ?_) (by simp [hd, he])
      exact (dot_mem_magnitude e).mp (h ▸ (dot_mem_magnitude d).mpr hd) he
    · rw [magnitude_number hd, magnitude_number he, numbers_eq_iff]
      simp [hd, he]

theorem magnitude_ne_minus (d : Binary64) (rest : Bytes) :
    d.magnitude ≠ Bytes.ascii "-" ++ rest := by
  intro h
  rcases Decidable.em (d.exponent = 2047) with hd | hd
  · rw [magnitude_word hd] at h
    split at h <;> exact absurd (List.cons.inj h).1 (by decide)
  · rw [magnitude_number hd] at h
    cases hdecimal : Bytes.decimal (d.micros / 10 ^ 6) with
    | nil => exact Bytes.decimal_ne_nil _ hdecimal
    | cons b bs =>
      have hdigit : Bytes.isDigit b = true := Bytes.decimal_digit (hdecimal ▸ List.mem_cons_self)
      rw [hdecimal] at h
      rw [(List.cons.inj h).1] at hdigit
      exact absurd hdigit (by decide)

theorem toText_eq_iff (d e : Binary64) : d.toText = e.toText ↔ PrintsAs d e := by
  rw [toText_eq, toText_eq, PrintsAs, ← magnitude_eq_iff]
  cases d.negative with
  | false =>
    cases e.negative with
    | false => simp
    | true => simp [magnitude_ne_minus]
  | true =>
    cases e.negative with
    | false => simpa using (magnitude_ne_minus e _).symm
    | true => simp

end Binary64
