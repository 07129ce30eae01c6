import Mathlib.Data.List.Basic

structure BoundedLog (α : Type) where
  list : List α
  exceeded : Bool

namespace BoundedLog

variable {α : Type} {size : Nat}

def empty : BoundedLog α := ⟨[], false⟩

def append (size : Nat) (l : BoundedLog α) (a : α) : BoundedLog α :=
  let list := l.list ++ [a]
  if size < list.length then ⟨list.tail, true⟩ else ⟨list, l.exceeded⟩

def last (size : Nat) (seen : List α) : List α := seen.drop (seen.length - size)

theorem length_last (size : Nat) (seen : List α) : (last size seen).length = min size seen.length := by
  simp only [last, List.length_drop]
  omega

theorem last_sublist (size : Nat) (seen : List α) : (last size seen).Sublist seen :=
  List.drop_sublist _ _

structure Records (size : Nat) (seen : List α) (l : BoundedLog α) : Prop where
  list : l.list = last size seen
  exceeded : l.exceeded = true ↔ size < seen.length

theorem Records.empty : Records size ([] : List α) empty :=
  ⟨by simp [last, BoundedLog.empty], by simp [BoundedLog.empty]⟩

theorem Records.length {seen : List α} {l : BoundedLog α} (h : Records size seen l) :
    l.list.length = min size seen.length := by
  rw [h.list, length_last]

theorem Records.append {seen : List α} {l : BoundedLog α} (h : Records size seen l) (a : α) :
    Records size (seen ++ [a]) (l.append size a) := by
  have hlen := h.length
  simp only [BoundedLog.append, List.length_append, List.length_singleton]
  split
  · rename_i hlt
    refine ⟨?_, ?_⟩
    · have hdrop : seen.length - size ≤ seen.length := Nat.sub_le _ _
      have hnext : (seen ++ [a]).length - size = seen.length - size + 1 := by
        rw [List.length_append, List.length_singleton]
        omega
      rw [h.list, last, last, hnext, ← List.drop_append_of_le_length hdrop, List.tail_drop]
    · simp only [List.length_append, List.length_singleton, true_iff]
      omega
  · rename_i hle
    refine ⟨?_, ?_⟩
    · have hall : seen.length + 1 - size = 0 := by omega
      have hall' : seen.length - size = 0 := by omega
      simp only [h.list, last, List.length_append, List.length_singleton, hall, hall', List.drop_zero]
    · rw [h.exceeded, List.length_append, List.length_singleton]
      omega

theorem Records.appends {seen new : List α} {l : BoundedLog α} (h : Records size seen l) :
    Records size (seen ++ new) (new.foldl (BoundedLog.append size) l) := by
  induction new generalizing seen l with
  | nil => simpa using h
  | cons a new ih => simpa using ih (h.append a)

end BoundedLog
