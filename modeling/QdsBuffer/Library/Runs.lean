import Mathlib.Data.List.Basic

namespace Runs

variable {σ α β : Type}

def run (step : σ → α → σ) (s : σ) (as : List α) : σ := as.foldl step s

variable {step : σ → α → σ}

@[simp] theorem run_nil (s : σ) : run step s [] = s := rfl

@[simp] theorem run_cons (s : σ) (a : α) (as : List α) :
    run step s (a :: as) = run step (step s a) as := rfl

theorem run_append (s : σ) (as bs : List α) :
    run step s (as ++ bs) = run step (run step s as) bs := List.foldl_append

theorem run_rule {P : σ → List α → Prop} (hstep : ∀ s a as, P s (a :: as) → P (step s a) as)
    {s : σ} {as : List α} (h : P s as) : P (run step s as) [] := by
  induction as generalizing s with
  | nil => exact h
  | cons a as ih => exact ih (hstep s a as h)

theorem run_invariant {I : σ → Prop} (hstep : ∀ s a, I s → I (step s a)) {s : σ} (as : List α)
    (h : I s) : I (run step s as) :=
  run_rule (P := fun s _ => I s) (fun s a _ => hstep s a) h

def Along (step : σ → α → σ) (ok : σ → α → Prop) : σ → List α → Prop
  | _, [] => True
  | s, a :: as => ok s a ∧ Along step ok (step s a) as

theorem run_invariant_along {I : σ → Prop} {ok : σ → α → Prop}
    (hstep : ∀ s a, ok s a → I s → I (step s a)) {s : σ} {as : List α}
    (hok : Along step ok s as) (h : I s) : I (run step s as) :=
  (run_rule (P := fun s as => Along step ok s as ∧ I s)
    (fun s a _ hp => ⟨hp.1.2, hstep s a hp.1.1 hp.2⟩) ⟨hok, h⟩).2

theorem along_of_forall {ok : α → Prop} {s : σ} {as : List α} (h : ∀ a ∈ as, ok a) :
    Along step (fun _ a => ok a) s as := by
  induction as generalizing s with
  | nil => trivial
  | cons a as ih =>
    exact ⟨h a List.mem_cons_self, ih (fun b hb => h b (List.mem_cons_of_mem a hb))⟩

theorem along_of_take {ok : σ → Prop} {s : σ} {as : List α}
    (h : ∀ n, ok (run step s (as.take n))) : Along step (fun s _ => ok s) s as := by
  induction as generalizing s with
  | nil => trivial
  | cons a as ih => exact ⟨h 0, ih (fun n => h (n + 1))⟩

theorem along_congr {I : σ → Prop} {ok ok' : σ → α → Prop} (hstep : ∀ s a, I s → I (step s a))
    (hiff : ∀ s a, I s → (ok s a ↔ ok' s a)) {s : σ} (as : List α) (h : I s) :
    Along step ok s as ↔ Along step ok' s as := by
  induction as generalizing s with
  | nil => exact Iff.rfl
  | cons a as ih => exact and_congr (hiff s a h) (ih (hstep s a h))

theorem always_iff_along {K Q : σ → Prop} {ok bad : σ → α → Prop} (hq : ∀ s, K s → Q s)
    (hstep : ∀ s a, ok s a → K s → (¬ bad s a → K (step s a)) ∧ (bad s a → ¬ Q (step s a)))
    {s : σ} {as : List α} (hok : Along step ok s as) (h : K s) :
    (∀ n, Q (run step s (as.take n))) ↔ Along step (fun s a => ¬ bad s a) s as := by
  induction as generalizing s with
  | nil => exact ⟨fun _ => trivial, fun _ n => by simpa using hq s h⟩
  | cons a as ih =>
    obtain ⟨hkeep, hlose⟩ := hstep s a hok.1 h
    constructor
    · intro hall
      have hgood : ¬ bad s a := fun hb => hlose hb (hall 1)
      refine ⟨hgood, (ih hok.2 (hkeep hgood)).mp ?_⟩
      intro n
      exact hall (n + 1)
    · rintro ⟨hgood, hrest⟩ n
      cases n with
      | zero => exact hq s h
      | succ n => exact (ih hok.2 (hkeep hgood)).mpr hrest n

def count (step : σ → α → σ) (p : σ → α → Bool) : σ → List α → Nat
  | _, [] => 0
  | s, a :: as => (if p s a then 1 else 0) + count step p (step s a) as

variable {τ : Type}

def track (step : σ → α → σ) (note : σ → τ → α → τ) : σ → τ → List α → τ
  | _, t, [] => t
  | s, t, a :: as => track step note (step s a) (note s t a) as

theorem track_append (note : σ → τ → α → τ) (s : σ) (t : τ) (as bs : List α) :
    track step note s t (as ++ bs) = track step note (run step s as) (track step note s t as) bs := by
  induction as generalizing s t with
  | nil => rfl
  | cons a as ih => exact ih (step s a) (note s t a)

theorem track_invariant_along {I : σ → τ → Prop} {ok : σ → α → Prop} {note : σ → τ → α → τ}
    (hstep : ∀ s t a, ok s a → I s t → I (step s a) (note s t a)) {s : σ} {t : τ} {as : List α}
    (hok : Along step ok s as) (h : I s t) : I (run step s as) (track step note s t as) := by
  induction as generalizing s t with
  | nil => exact h
  | cons a as ih => exact ih hok.2 (hstep s t a hok.1 h)

theorem track_invariant {I : σ → τ → Prop} {note : σ → τ → α → τ}
    (hstep : ∀ s t a, I s t → I (step s a) (note s t a)) {s : σ} {t : τ} (as : List α)
    (h : I s t) : I (run step s as) (track step note s t as) := by
  have hok : Along step (fun _ _ => True) s as := along_of_forall (fun _ _ => trivial)
  exact track_invariant_along (fun s t a _ => hstep s t a) hok h

end Runs
