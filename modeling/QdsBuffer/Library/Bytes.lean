import Mathlib.Algebra.Ring.Nat
import Mathlib.Data.List.Basic

abbrev Bytes := List UInt8

namespace Bytes

def ascii (s : String) : Bytes := s.toList.map Char.toUInt8

def isDigit (b : UInt8) : Bool := 48 ≤ b && b ≤ 57

def decimal (n : Nat) : Bytes := (Nat.toDigits 10 n).map Char.toUInt8

def decimalInt (i : Int) : Bytes :=
  if i < 0 then ascii "-" ++ decimal i.natAbs else decimal i.natAbs

def cString (s : Bytes) : Bytes := s.takeWhile (· ≠ 0)

theorem toUInt8_toNat {c : Char} (h : c.isDigit = true) : c.toUInt8.toNat = c.toNat := by
  have hc : c.toNat ≤ 57 := by
    simp only [Char.isDigit, ge_iff_le, Bool.and_eq_true, decide_eq_true_eq] at h
    exact UInt32.le_iff_toNat_le.mp h.2
  simp only [Char.toUInt8, UInt32.toNat_toUInt8]
  exact Nat.mod_eq_of_lt (by change c.toNat < _; omega)

theorem toUInt8_inj {c d : Char} (hc : c.isDigit = true) (hd : d.isDigit = true)
    (h : c.toUInt8 = d.toUInt8) : c = d := by
  have hn := congrArg UInt8.toNat h
  rw [toUInt8_toNat hc, toUInt8_toNat hd] at hn
  exact Char.toNat_inj.mp hn

theorem map_toUInt8_inj {cs ds : List Char} (hc : ∀ c ∈ cs, c.isDigit = true)
    (hd : ∀ d ∈ ds, d.isDigit = true) (h : cs.map Char.toUInt8 = ds.map Char.toUInt8) :
    cs = ds := by
  induction cs generalizing ds with
  | nil => simpa [eq_comm] using h
  | cons c cs ih =>
    cases ds with
    | nil => simp at h
    | cons d ds =>
      simp only [List.map_cons, List.cons.injEq] at h
      have hcd := toUInt8_inj (hc c (by simp)) (hd d (by simp)) h.1
      have hr := ih (fun x hx => hc x (by simp [hx])) (fun x hx => hd x (by simp [hx])) h.2
      rw [hcd, hr]

theorem toDigits_digit (n : Nat) : ∀ c ∈ Nat.toDigits 10 n, c.isDigit = true :=
  fun _ hc => Nat.isDigit_of_mem_toDigits (by decide) (by decide) hc

theorem decimal_inj {m n : Nat} (h : decimal m = decimal n) : m = n := by
  have hd := map_toUInt8_inj (toDigits_digit m) (toDigits_digit n) h
  rw [← Nat.ofDigitChars_ten_toDigits (n := m), hd, Nat.ofDigitChars_ten_toDigits]

theorem decimal_ne_nil (n : Nat) : decimal n ≠ [] := by
  simp [decimal, Nat.toDigits_ne_nil]

theorem decimal_digit {n : Nat} {b : UInt8} (hb : b ∈ decimal n) : isDigit b = true := by
  obtain ⟨c, hc, rfl⟩ := List.mem_map.mp hb
  have hd := toDigits_digit n c hc
  have hn := toUInt8_toNat hd
  simp only [Char.isDigit, ge_iff_le, Bool.and_eq_true, decide_eq_true_eq] at hd
  have h0 : (48 : Nat) ≤ c.toNat := UInt32.le_iff_toNat_le.mp hd.1
  have h9 : c.toNat ≤ 57 := UInt32.le_iff_toNat_le.mp hd.2
  simp only [isDigit, Bool.and_eq_true, decide_eq_true_eq, UInt8.le_iff_toNat_le, hn]
  exact ⟨h0, h9⟩

theorem split_at_first {α : Type} {x : α} {as as' bs bs' : List α} (h : x ∉ as) (h' : x ∉ as')
    (heq : as ++ x :: bs = as' ++ x :: bs') : as = as' ∧ bs = bs' := by
  induction as generalizing as' with
  | nil =>
    cases as' with
    | nil => exact ⟨rfl, (List.cons.inj heq).2⟩
    | cons a' as' => exact absurd ((List.cons.inj heq).1 ▸ List.mem_cons_self) h'
  | cons a as ih =>
    cases as' with
    | nil => exact absurd ((List.cons.inj heq).1 ▸ List.mem_cons_self) h
    | cons a' as' =>
      obtain ⟨rfl, htail⟩ := List.cons.inj heq
      obtain ⟨rfl, rfl⟩ := ih (fun hm => h (List.mem_cons_of_mem a hm))
        (fun hm => h' (List.mem_cons_of_mem a hm)) htail
      exact ⟨rfl, rfl⟩

theorem decimal_ne_minus (n : Nat) (rest : Bytes) : decimal n ≠ ascii "-" ++ rest := by
  intro h
  have hminus : (45 : UInt8) ∈ decimal n := h ▸ List.mem_cons_self
  exact absurd (decimal_digit hminus) (by decide)

theorem decimalInt_inj {i j : Int} (h : decimalInt i = decimalInt j) : i = j := by
  unfold decimalInt at h
  split at h
  · split at h
    · have habs := decimal_inj (List.append_cancel_left h)
      omega
    · exact absurd h.symm (decimal_ne_minus _ _)
  · split at h
    · exact absurd h (decimal_ne_minus _ _)
    · have habs := decimal_inj h
      omega

end Bytes
