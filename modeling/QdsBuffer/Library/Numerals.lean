import QdsBuffer.Library.RegexMatch

namespace Bytes

def figure (d : Nat) : UInt8 := UInt8.ofNat (48 + d)

def padded : Nat → Nat → Bytes
  | 0, _ => []
  | k + 1, n => padded k (n / 10) ++ [figure (n % 10)]

example : padded 4 123 = ascii "0123" := by decide

theorem padded_mod (k n : Nat) : padded k (n % 10 ^ k) = padded k n := by
  induction k generalizing n with
  | zero => rfl
  | succ k ih =>
    have hdiv : n % 10 ^ (k + 1) / 10 = n / 10 % 10 ^ k := by
      rw [Nat.pow_succ, Nat.mul_comm, Nat.mod_mul_right_div_self]
    have hmod : n % 10 ^ (k + 1) % 10 = n % 10 :=
      Nat.mod_mod_of_dvd n (Nat.dvd_of_pow_dvd (Nat.le_add_left 1 k) (Nat.dvd_refl _))
    rw [padded, padded, hdiv, hmod, ih]

theorem padded_add (j k n : Nat) :
    padded (j + k) n = padded j (n / 10 ^ k) ++ padded k (n % 10 ^ k) := by
  rw [padded_mod]
  induction k generalizing n with
  | zero => simp [padded]
  | succ k ih =>
    rw [← Nat.add_assoc, padded, ih, padded, Nat.div_div_eq_div_mul, Nat.pow_succ, Nat.mul_comm,
      List.append_assoc]

theorem figure_isDigit {d : Nat} (h : d < 10) : isDigit (figure d) = true := by
  have hall : ∀ d < 10, isDigit (figure d) = true := by decide
  exact hall d h

theorem padded_isDigit (k n : Nat) : ∀ b ∈ padded k n, isDigit b = true := by
  induction k generalizing n with
  | zero => simp [padded]
  | succ k ih =>
    rw [padded, List.forall_mem_append]
    exact ⟨ih (n / 10), by simpa using figure_isDigit (Nat.mod_lt n (by decide))⟩

theorem padded_length (k n : Nat) : (padded k n).length = k := by
  induction k generalizing n with
  | zero => rfl
  | succ k ih => rw [padded, List.length_append, ih, List.length_singleton]

theorem exists_figure {b : UInt8} (h : 48 ≤ b) (h' : b ≤ 57) : ∃ d < 10, b = figure d := by
  rw [UInt8.le_iff_toNat_le] at h h'
  have h48 : 48 ≤ b.toNat := h
  have h57 : b.toNat ≤ 57 := h'
  refine ⟨b.toNat - 48, by omega, ?_⟩
  rw [figure, Nat.add_sub_cancel' h48, UInt8.ofNat_toNat]

end Bytes

namespace Regex
open Bytes

-- r takes exactly the numbers below 10^k with P, written with k figures.
def Numeral (r : Regex) (k : Nat) (P : Nat → Prop) : Prop :=
  ∀ c w c', Match r c w c' ↔ c' = c ∧ ∃ n, n < 10 ^ k ∧ P n ∧ w = padded k n

section
variable {a b : Regex} {j k : Nat} {P Q : Nat → Prop}

theorem Numeral.takes (ha : Numeral a k P) :
    Takes a (fun w => ∃ n, n < 10 ^ k ∧ P n ∧ w = padded k n) := ha

theorem Numeral.congr (h : Numeral a k P) (hPQ : ∀ n, n < 10 ^ k → (P n ↔ Q n)) :
    Numeral a k Q := by
  intro c w c'
  rw [h]
  refine and_congr_right (fun _ => exists_congr (fun n => and_congr_right (fun hn => ?_)))
  rw [hPQ n hn]

theorem Numeral.empty : Numeral empty 0 (fun _ => True) := by
  intro c w c'
  rw [match_empty_iff]
  exact and_congr_right (fun _ => ⟨fun hw => ⟨0, by decide, trivial, hw⟩, fun ⟨_, _, _, hw⟩ => hw⟩)

theorem Numeral.cls {ranges : List (UInt8 × UInt8)}
    (h : ranges.all (fun r => 48 ≤ r.1 && r.2 ≤ 57) = true) :
    Numeral (cls ranges) 1 (fun n => admits ranges (figure n) = true) := by
  intro c w c'
  have hone : ∀ n < 10, padded 1 n = [figure n] := by
    intro n hn
    rw [padded, Nat.mod_eq_of_lt hn]
    rfl
  rw [match_cls_iff]
  refine and_congr_right (fun _ => ⟨?_, ?_⟩)
  · rintro ⟨x, hx, rfl⟩
    obtain ⟨r, hr, hin⟩ := List.any_eq_true.mp hx
    have hfigures := List.all_eq_true.mp h r hr
    simp only [Bool.and_eq_true, decide_eq_true_eq] at hin hfigures
    obtain ⟨d, hd, rfl⟩ :=
      exists_figure (UInt8.le_trans hfigures.1 hin.1) (UInt8.le_trans hin.2 hfigures.2)
    exact ⟨d, hd, hx, (hone d hd).symm⟩
  · rintro ⟨n, hn, hx, rfl⟩
    exact ⟨figure n, hx, hone n hn⟩

theorem Numeral.text {s : String} {v : Nat} (hs : ascii s = padded k v) (hv : v < 10 ^ k) :
    Numeral (text s) k (· = v) := by
  intro c w c'
  rw [match_text_iff, hs]
  refine and_congr_right (fun _ => ⟨fun hw => ⟨v, hv, rfl, hw⟩, ?_⟩)
  rintro ⟨n, -, rfl, hw⟩
  exact hw

theorem Numeral.alt (ha : Numeral a k P) (hb : Numeral b k Q) :
    Numeral (alt a b) k (fun n => P n ∨ Q n) := by
  intro c w c'
  rw [match_alt_iff, ha, hb, ← and_or_left]
  refine and_congr_right (fun _ => ⟨?_, ?_⟩)
  · rintro (⟨n, hn, hP, hw⟩ | ⟨n, hn, hQ, hw⟩)
    · exact ⟨n, hn, .inl hP, hw⟩
    · exact ⟨n, hn, .inr hQ, hw⟩
  · rintro ⟨n, hn, hP | hQ, hw⟩
    · exact .inl ⟨n, hn, hP, hw⟩
    · exact .inr ⟨n, hn, hQ, hw⟩

theorem Numeral.seq (ha : Numeral a j P) (hb : Numeral b k Q) :
    Numeral (seq a b) (j + k) (fun n => P (n / 10 ^ k) ∧ Q (n % 10 ^ k)) := by
  intro c w c'
  rw [ha.takes.seq hb.takes]
  have hpos : 0 < 10 ^ k := Nat.pow_pos (by decide)
  refine and_congr_right (fun _ => ⟨?_, ?_⟩)
  · rintro ⟨_, _, ⟨m, hm, hP, rfl⟩, ⟨n, hn, hQ, rfl⟩, rfl⟩
    have hdiv : (m * 10 ^ k + n) / 10 ^ k = m := by
      rw [Nat.add_comm, Nat.add_mul_div_right _ _ hpos, Nat.div_eq_of_lt hn, Nat.zero_add]
    have hmod : (m * 10 ^ k + n) % 10 ^ k = n := by
      rw [Nat.add_comm, Nat.add_mul_mod_self_right, Nat.mod_eq_of_lt hn]
    refine ⟨m * 10 ^ k + n, ?_, ⟨hdiv.symm ▸ hP, hmod.symm ▸ hQ⟩, ?_⟩
    · rw [Nat.pow_add]
      calc m * 10 ^ k + n < m * 10 ^ k + 10 ^ k := by omega
        _ = (m + 1) * 10 ^ k := by rw [Nat.add_mul, Nat.one_mul]
        _ ≤ 10 ^ j * 10 ^ k := Nat.mul_le_mul_right _ hm
    · rw [padded_add, hdiv, hmod]
  · rintro ⟨n, hn, ⟨hP, hQ⟩, rfl⟩
    rw [Nat.pow_add] at hn
    have hhigh : n / 10 ^ k < 10 ^ j := Nat.div_lt_of_lt_mul (by rwa [Nat.mul_comm])
    exact ⟨_, _, ⟨_, hhigh, hP, rfl⟩, ⟨_, Nat.mod_lt _ hpos, hQ, rfl⟩, padded_add j k n⟩

theorem Numeral.match_seq (ha : Numeral a k P) {r : Regex} {c c' : Captures} {w : Bytes} :
    Match (Regex.seq a r) c w c' ↔ ∃ n v, n < 10 ^ k ∧ P n ∧ w = padded k n ++ v ∧ Match r c v c' := by
  rw [ha.takes.match_seq]
  constructor
  · rintro ⟨_, v, ⟨n, hn, hP, rfl⟩, rfl, hv⟩
    exact ⟨n, v, hn, hP, rfl, hv⟩
  · rintro ⟨n, v, hn, hP, rfl, hv⟩
    exact ⟨padded k n, v, ⟨n, hn, hP, rfl⟩, rfl, hv⟩

end

end Regex
