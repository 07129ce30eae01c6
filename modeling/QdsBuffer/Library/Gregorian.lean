namespace Gregorian

def IsLeap (year : Nat) : Prop := year % 4 = 0 ∧ (year % 100 ≠ 0 ∨ year % 400 = 0)

instance (year : Nat) : Decidable (IsLeap year) := inferInstanceAs (Decidable (_ ∧ _))

def daysInMonth (year month : Nat) : Nat :=
  if month = 2 then if IsLeap year then 29 else 28
  else if month = 4 ∨ month = 6 ∨ month = 9 ∨ month = 11 then 30
  else 31

def daysInYear (year : Nat) : Nat := if IsLeap year then 366 else 365

structure IsDay (year month day : Nat) : Prop where
  inYear : 1 ≤ month ∧ month ≤ 12
  inMonth : 1 ≤ day ∧ day ≤ daysInMonth year month

def IsDayOfYear (year day : Nat) : Prop := 1 ≤ day ∧ day ≤ daysInYear year

-- The days of every year, and the one that only leap years have.
structure IsCommonDay (month day : Nat) : Prop where
  inYear : 1 ≤ month ∧ month ≤ 12
  inMonth : 1 ≤ day ∧ (day ≤ 28 ∨ day ≤ 30 ∧ month ≠ 2 ∨
    day ≤ 31 ∧ month ≠ 2 ∧ month ≠ 4 ∧ month ≠ 6 ∧ month ≠ 9 ∧ month ≠ 11)

theorem isDay_iff {year month day : Nat} :
    IsDay year month day ↔ IsCommonDay month day ∨ IsLeap year ∧ month = 2 ∧ day = 29 := by
  constructor
  · rintro ⟨hm, h1, hd⟩
    unfold daysInMonth at hd
    rcases Decidable.em (month = 2) with h2 | h2
    · rcases Decidable.em (IsLeap year) with hl | hl
      · rw [if_pos h2, if_pos hl] at hd
        rcases Decidable.em (day = 29) with h29 | h29
        · exact .inr ⟨hl, h2, h29⟩
        · exact .inl ⟨hm, h1, by omega⟩
      · rw [if_pos h2, if_neg hl] at hd
        exact .inl ⟨hm, h1, by omega⟩
    · rw [if_neg h2] at hd
      refine .inl ⟨hm, h1, ?_⟩
      split at hd <;> omega
  · rintro (⟨hm, h1, hd⟩ | ⟨hl, rfl, rfl⟩)
    · refine ⟨hm, h1, ?_⟩
      unfold daysInMonth
      split
      · split <;> omega
      · split <;> omega
    · exact ⟨by decide, by decide, by simp [daysInMonth, hl]⟩

theorem isDayOfYear_iff {year day : Nat} :
    IsDayOfYear year day ↔ (1 ≤ day ∧ day ≤ 365) ∨ IsLeap year ∧ day = 366 := by
  constructor
  · rintro ⟨h1, hd⟩
    unfold daysInYear at hd
    split at hd
    · rename_i hl
      rcases Decidable.em (day = 366) with h366 | h366
      · exact .inr ⟨hl, h366⟩
      · exact .inl ⟨h1, by omega⟩
    · exact .inl ⟨h1, hd⟩
  · rintro (⟨h1, hd⟩ | ⟨hl, rfl⟩)
    · refine ⟨h1, ?_⟩
      unfold daysInYear
      split <;> omega
    · exact ⟨by decide, by simp [daysInYear, hl]⟩

end Gregorian
