import QdsBuffer.Library.LockSets

namespace LockOrder

variable {μ σ τ ω : Type}

-- What the view shows changes by operations only; the language says which ones are still to come.
def Prog.Performs (view : σ → τ) (op : τ → ω → τ) : (List ω → Prop) → Prog μ σ → Prop
  | lang, .done => lang []
  | lang, .acquire _ _ next => next.Performs view op lang
  | lang, .release _ _ next => next.Performs view op lang
  | lang, .act f next =>
    (∀ s, view (f s) = view s ∧ (next s).Performs view op lang) ∨
      ∀ s, ∃ o, view (f s) = op (view s) o ∧
        (next s).Performs view op (fun word => lang (o :: word))

-- The operations that thread i contributed.
def own (i : Nat) (history : List (Nat × ω)) : List ω :=
  (history.filter (fun p => p.1 = i)).map Prod.snd

@[simp] theorem own_append (i : Nat) (history history' : List (Nat × ω)) :
    own i (history ++ history') = own i history ++ own i history' := by
  simp [own]

@[simp] theorem own_self (i : Nat) (o : ω) : own i [(i, o)] = [o] := by
  simp [own]

theorem own_other {i j : Nat} (h : j ≠ i) (o : ω) : own i [(j, o)] = [] := by
  simp [own, h]

theorem own_eq_nil {i : Nat} {history : List (Nat × ω)} (h : ∀ p ∈ history, p.1 ≠ i) :
    own i history = [] := by
  simpa [own] using h

variable {view : σ → τ} {op : τ → ω → τ}

theorem Prog.Performs.nonempty [Nonempty σ] {lang : List ω → Prop} {p : Prog μ σ}
    (h : p.Performs view op lang) : ∃ word, lang word := by
  induction p generalizing lang with
  | done => exact ⟨[], h⟩
  | acquire m mode next ih => exact ih h
  | release m mode next ih => exact ih h
  | act f next ih =>
    obtain ⟨s⟩ := ‹Nonempty σ›
    rcases h with hsame | hop
    · exact ih s (hsame s).2
    · obtain ⟨o, -, hnext⟩ := hop s
      obtain ⟨word, hword⟩ := ih s hnext
      exact ⟨o :: word, hword⟩

-- The view is what the operations of the history make of v, and each thread keeps to its language.
structure Linearizes (view : σ → τ) (op : τ → ω → τ) (v : τ) (langs : Nat → List ω → Prop)
    (sys : System μ σ) (history : List (Nat × ω)) : Prop where
  state : view sys.state = Runs.run op v (history.map Prod.snd)
  threads : ∀ (i : Nat) (t : Thread μ σ), sys.threads[i]? = some t →
    t.rest.Performs view op (fun word => langs i (own i history ++ word))

variable {v : τ} {langs : Nat → List ω → Prop}

theorem start_linearizes (s : σ) {progs : List (Prog μ σ)}
    (h : ∀ (i : Nat) (p : Prog μ σ), progs[i]? = some p → p.Performs view op (langs i)) :
    Linearizes view op (view s) langs (start s progs) [] where
  state := rfl
  threads i t ht := by
    cases hp : progs[i]? with
    | none => simp [start, hp] at ht
    | some p =>
      have hthread : t = ⟨[], p⟩ := by simpa [start, hp] using ht.symm
      rw [hthread]
      exact h i p hp

theorem Linearizes.finished {sys : System μ σ} {history : List (Nat × ω)}
    (h : Linearizes view op v langs sys history) {i : Nat} {t : Thread μ σ}
    (ht : sys.threads[i]? = some t) (hd : t.rest = .done) : langs i (own i history) := by
  have hlang := h.threads i t ht
  rw [hd, Prog.Performs, List.append_nil] at hlang
  exact hlang

theorem Linearizes.started [Nonempty σ] {sys : System μ σ} {history : List (Nat × ω)}
    (h : Linearizes view op v langs sys history) {i : Nat} {t : Thread μ σ}
    (ht : sys.threads[i]? = some t) : ∃ word, langs i (own i history ++ word) :=
  (h.threads i t ht).nonempty

theorem Linearizes.set {sys : System μ σ} {history : List (Nat × ω)}
    (h : Linearizes view op v langs sys history) {i : Nat} {t' : Thread μ σ}
    (ht' : t'.rest.Performs view op (fun word => langs i (own i history ++ word))) :
    Linearizes view op v langs ⟨sys.state, sys.threads.set i t'⟩ history where
  state := h.state
  threads j u hu := by
    rcases getElem?_set_cases hu with ⟨hj, hut⟩ | ⟨-, hold⟩
    · rw [hj, hut]
      exact ht'
    · exact h.threads j u hold

section

variable [DecidableEq μ]

theorem Linearizes.step {sys : System μ σ} {history : List (Nat × ω)}
    (h : Linearizes view op v langs sys history) (i : Nat) :
    ∃ history', Linearizes view op v langs (LockOrder.step sys i) (history ++ history') ∧
      ∀ p ∈ history', p.1 = i ∧ Unfinished sys i := by
  cases step_case sys i with
  | idle hstep => exact ⟨[], by simpa [hstep] using h, by simp⟩
  | acquired t m mode next ht hrest _ hstep =>
    have hperforms := h.threads i t ht
    rw [hrest] at hperforms
    refine ⟨[], ?_, by simp⟩
    rw [hstep, List.append_nil]
    exact h.set hperforms
  | released t m mode next ht hrest hstep =>
    have hperforms := h.threads i t ht
    rw [hrest] at hperforms
    refine ⟨[], ?_, by simp⟩
    rw [hstep, List.append_nil]
    exact h.set hperforms
  | acted t f next ht hrest hstep =>
    have hperforms := h.threads i t ht
    rw [hrest] at hperforms
    rw [hstep]
    rcases hperforms with hsame | hop
    · refine ⟨[], ?_, by simp⟩
      rw [List.append_nil]
      exact ⟨(hsame sys.state).1.trans h.state, (h.set (hsame sys.state).2).threads⟩
    · obtain ⟨o, hview, hnext⟩ := hop sys.state
      refine ⟨[(i, o)], ⟨?_, ?_⟩, ?_⟩
      · rw [List.map_append, Runs.run_append, ← h.state]
        exact hview
      · intro j u hu
        rcases getElem?_set_cases hu with ⟨hj, hut⟩ | ⟨hj, hold⟩
        · rw [hj, hut]
          simpa using hnext
        · simpa [own_other (Ne.symm hj)] using h.threads j u hold
      · intro p hp
        rw [List.mem_singleton.mp hp]
        exact ⟨rfl, t, ht, by rw [hrest]; nofun⟩

-- A history only grows, by operations of threads that take a turn and had not finished before.
theorem Linearizes.run {sys : System μ σ} {history : List (Nat × ω)}
    (h : Linearizes view op v langs sys history) (schedule : List Nat) :
    ∃ history', Linearizes view op v langs (Runs.run LockOrder.step sys schedule) (history ++ history') ∧
      ∀ p ∈ history', p.1 ∈ schedule ∧ Unfinished sys p.1 := by
  induction schedule generalizing sys history with
  | nil => exact ⟨[], by simpa using h, by simp⟩
  | cons i schedule ih =>
    obtain ⟨first, hfirst, hone⟩ := h.step i
    obtain ⟨later, hlater, hmany⟩ := ih hfirst
    refine ⟨first ++ later, by rwa [← List.append_assoc], ?_⟩
    intro p hp
    rcases List.mem_append.mp hp with hp | hp
    · obtain ⟨rfl, hun⟩ := hone p hp
      exact ⟨List.mem_cons_self, hun⟩
    · obtain ⟨hin, hun⟩ := hmany p hp
      exact ⟨List.mem_cons_of_mem i hin, step_unfinished hun⟩

end

end LockOrder
