import QdsBuffer.Library.LockSets

namespace LockOrder

variable {μ σ κ : Type}

-- Whatever the other threads do in between, the rest of the program closes k in the end.
def Prog.Settles (I : σ → Prop) (Open : κ → σ → Prop) (k : κ) : Prog μ σ → Prop
  | .done => False
  | .acquire _ _ next => next.Settles I Open k
  | .release _ _ next => next.Settles I Open k
  | .act f next => ∀ s, I s → Open k (f s) → (next s).Settles I Open k

-- What the program opens it settles itself.
def Prog.Responsible (I : σ → Prop) (Open : κ → σ → Prop) : Prog μ σ → Prop
  | .done => True
  | .acquire _ _ next => next.Responsible I Open
  | .release _ _ next => next.Responsible I Open
  | .act f next => ∀ s, I s → I (f s) ∧
      (∀ k, Open k (f s) → Open k s ∨ (next s).Settles I Open k) ∧ (next s).Responsible I Open

structure Owed (I : σ → Prop) (Open : κ → σ → Prop) (sys : System μ σ) : Prop where
  state : I sys.state
  responsible : ∀ t ∈ sys.threads, t.rest.Responsible I Open
  owed : ∀ k, Open k sys.state → ∃ t ∈ sys.threads, t.rest.Settles I Open k

variable {I : σ → Prop} {Open : κ → σ → Prop}

theorem forall_mem_set {P : Thread μ σ → Prop} {ts : List (Thread μ σ)} {i : Nat} {t' : Thread μ σ}
    (h : ∀ t ∈ ts, P t) (ht' : P t') : ∀ t ∈ ts.set i t', P t := by
  intro t ht
  rcases List.mem_or_eq_of_mem_set ht with ht | rfl
  · exact h t ht
  · exact ht'

theorem exists_mem_set {P : Thread μ σ → Prop} {ts : List (Thread μ σ)} {i : Nat}
    {t t' : Thread μ σ} (ht : ts[i]? = some t) (h : ∃ u ∈ ts, P u) (hnew : P t → P t') :
    ∃ u ∈ ts.set i t', P u := by
  obtain ⟨hlt, -⟩ := List.getElem?_eq_some_iff.mp ht
  obtain ⟨u, hu, hp⟩ := h
  obtain ⟨j, hj⟩ := List.mem_iff_getElem?.mp hu
  by_cases hij : j = i
  · rw [hij, ht] at hj
    exact ⟨t', List.mem_set hlt t', hnew ((Option.some.inj hj) ▸ hp)⟩
  · refine ⟨u, List.mem_iff_getElem?.mpr ⟨j, ?_⟩, hp⟩
    rwa [List.getElem?_set_ne (Ne.symm hij)]

theorem start_owed {s : σ} {progs : List (Prog μ σ)} (hs : I s)
    (hp : ∀ p ∈ progs, p.Responsible I Open) (hopen : ∀ k, ¬Open k s) :
    Owed I Open (start s progs) where
  state := hs
  responsible t ht := by
    obtain ⟨p, hmem, rfl⟩ := List.mem_map.mp ht
    exact hp p hmem
  owed k hk := absurd hk (hopen k)

-- A turn without a change of the state leaves every obligation with its thread.
theorem Owed.pass {sys : System μ σ} (h : Owed I Open sys) {i : Nat} {t t' : Thread μ σ}
    (ht : sys.threads[i]? = some t) (hresp : t'.rest.Responsible I Open)
    (hset : ∀ k, t.rest.Settles I Open k → t'.rest.Settles I Open k) :
    Owed I Open ⟨sys.state, sys.threads.set i t'⟩ where
  state := h.state
  responsible := forall_mem_set h.responsible hresp
  owed k hk := exists_mem_set ht (h.owed k hk) (hset k)

section

variable [DecidableEq μ]

theorem step_owed (sys : System μ σ) (i : Nat) (h : Owed I Open sys) :
    Owed I Open (step sys i) := by
  cases step_case sys i with
  | idle hstep => rwa [hstep]
  | acquired t m mode next ht hrest _ hstep =>
    have hold := h.responsible t (List.mem_of_getElem? ht)
    rw [hrest] at hold
    rw [hstep]
    exact h.pass ht hold (fun k hk => by rwa [hrest] at hk)
  | released t m mode next ht hrest hstep =>
    have hold := h.responsible t (List.mem_of_getElem? ht)
    rw [hrest] at hold
    rw [hstep]
    exact h.pass ht hold (fun k hk => by rwa [hrest] at hk)
  | acted t f next ht hrest hstep =>
    have hold := h.responsible t (List.mem_of_getElem? ht)
    rw [hrest] at hold
    obtain ⟨hstate, hopens, hnext⟩ := hold sys.state h.state
    rw [hstep]
    refine ⟨hstate, forall_mem_set h.responsible hnext, ?_⟩
    intro k hk
    rcases hopens k hk with hwas | hsettles
    · refine exists_mem_set ht (h.owed k hwas) ?_
      intro ht'
      rw [hrest] at ht'
      exact ht' sys.state h.state hk
    · obtain ⟨hlt, -⟩ := List.getElem?_eq_some_iff.mp ht
      exact ⟨_, List.mem_set hlt _, hsettles⟩

theorem run_owed {sys : System μ σ} (schedule : List Nat) (h : Owed I Open sys) :
    Owed I Open (Runs.run step sys schedule) :=
  Runs.run_invariant step_owed schedule h

end

end LockOrder
