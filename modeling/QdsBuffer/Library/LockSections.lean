import QdsBuffer.Library.LockSets

namespace LockOrder

variable {μ σ : Type} [DecidableEq μ]

-- Thread i alone gets from its first state to its second, beside the threads of ts.
def Passes (ts : List (Thread μ σ)) (i : Nat) (s : σ) (t : Thread μ σ) (s' : σ) (t' : Thread μ σ) :
    Prop :=
  ∃ n, Runs.run step ⟨s, ts.set i t⟩ (List.replicate n i) = ⟨s', ts.set i t'⟩

-- The other threads hold no lock.
structure Clear (ts : List (Thread μ σ)) (i : Nat) : Prop where
  here : i < ts.length
  others : ∀ (j : Nat) (t : Thread μ σ), j ≠ i → ts[j]? = some t → t.held = []

variable {ts : List (Thread μ σ)} {i : Nat} {s s' s'' : σ} {held : List (μ × Mode)}

theorem Passes.refl (t : Thread μ σ) : Passes ts i s t s t := ⟨0, rfl⟩

theorem Passes.trans {t t' t'' : Thread μ σ} (h : Passes ts i s t s' t')
    (h' : Passes ts i s' t' s'' t'') : Passes ts i s t s'' t'' := by
  obtain ⟨m, hm⟩ := h
  obtain ⟨n, hn⟩ := h'
  refine ⟨m + n, ?_⟩
  rw [List.replicate_add, Runs.run_append, hm, hn]

theorem Clear.passes_of_turn (h : Clear ts i) {t t' : Thread μ σ}
    (hturn : turn (ts.set i t) s t = (t', s')) : Passes ts i s t s' t' := by
  refine ⟨1, ?_⟩
  have ht : (ts.set i t)[i]? = some t := by simp [h.here]
  simp [step, ht, hturn, List.set_set]

theorem Clear.passes_act (h : Clear ts i) (f : σ → σ) (next : σ → Prog μ σ) :
    Passes ts i s ⟨held, .act f next⟩ (f s) ⟨held, next s⟩ :=
  h.passes_of_turn rfl

theorem Clear.passes_release (h : Clear ts i) (m : μ) (mode : Mode) (next : Prog μ σ) :
    Passes ts i s ⟨(m, mode) :: held, .release m mode next⟩ s ⟨held, next⟩ := by
  apply h.passes_of_turn
  simp [turn]

theorem Clear.passes_acquire (h : Clear ts i) (m : μ) (mode : Mode) (next : Prog μ σ)
    (hheld : ∀ lock ∈ held, lock.1 ≠ m) :
    Passes ts i s ⟨held, .acquire m mode next⟩ s ⟨(m, mode) :: held, next⟩ := by
  have hfree : ∀ u ∈ ts.set i ⟨held, .acquire m mode next⟩, ∀ lock ∈ u.held, lock.1 ≠ m := by
    intro u hu lock hl
    obtain ⟨j, hj⟩ := List.mem_iff_getElem?.mp hu
    rcases getElem?_set_cases hj with ⟨-, rfl⟩ | ⟨hji, hold⟩
    · exact hheld lock hl
    · rw [h.others j u hji hold] at hl
      cases hl
  have hgranted : Granted (ts.set i ⟨held, .acquire m mode next⟩) m mode := by
    cases mode with
    | exclusive => exact hfree
    | shared => exact fun u hu hl => hfree u hu _ hl rfl
  apply h.passes_of_turn
  simp [turn, hgranted]

end LockOrder
