import QdsBuffer.Library.Linearization
import Mathlib.Data.Sum.Basic

namespace LockOrder

-- Operations on the view announce news. A book takes the news one by one, and other notes.
structure Journal (μ σ τ β ω ε ρ : Type) where
  guard : μ
  view : σ → τ
  op : τ → ω → τ
  news : τ → ω → List ρ
  book : σ → β
  enter : β → ρ ⊕ ε → β

variable {μ σ τ β ω ε ρ : Type} [DecidableEq μ]

-- What the program announces it files in the book before it gives up the guard.
inductive Prog.Journals (J : Journal μ σ τ β ω ε ρ) :
    (List ω → Prop) → (List ε → Prop) → List (μ × Mode) → List ρ → Prog μ σ → Prop
  | done {lang notes held} (hlang : lang []) (hnotes : notes []) : Journals J lang notes held [] .done
  | acquire {lang notes held pending m mode next}
      (hnext : Journals J lang notes ((m, mode) :: held) pending next) :
      Journals J lang notes held pending (.acquire m mode next)
  | release {lang notes held pending m mode next}
      (hguard : (m, mode) = (J.guard, .exclusive) → pending = [])
      (hnext : Journals J lang notes (held.erase (m, mode)) pending next) :
      Journals J lang notes held pending (.release m mode next)
  | idle {lang notes held pending f next} (hview : ∀ s, J.view (f s) = J.view s)
      (hbook : ∀ s, J.book (f s) = J.book s)
      (hnext : ∀ s, Journals J lang notes held pending (next s)) :
      Journals J lang notes held pending (.act f next)
  | operate {lang notes held pending f next} (o : ω) (hview : ∀ s, J.view (f s) = J.op (J.view s) o)
      (hbook : ∀ s, J.book (f s) = J.book s) (hnews : ∀ s, J.news (J.view s) o = [])
      (hnext : ∀ s, Journals J (fun word => lang (o :: word)) notes held pending (next s)) :
      Journals J lang notes held pending (.act f next)
  | announce {lang notes held f next} (o : ω) (hheld : (J.guard, .exclusive) ∈ held)
      (hview : ∀ s, J.view (f s) = J.op (J.view s) o) (hbook : ∀ s, J.book (f s) = J.book s)
      (hnext : ∀ s, Journals J (fun word => lang (o :: word)) notes held (J.news (J.view s) o)
        (next s)) :
      Journals J lang notes held [] (.act f next)
  | file {lang notes held pending f next} (r : ρ) (hview : ∀ s, J.view (f s) = J.view s)
      (hbook : ∀ s, J.book (f s) = J.enter (J.book s) (.inl r))
      (hnext : ∀ s, Journals J lang notes held pending (next s)) :
      Journals J lang notes held (r :: pending) (.act f next)
  | note {lang notes held pending f next} (e : ε) (hview : ∀ s, J.view (f s) = J.view s)
      (hbook : ∀ s, J.book (f s) = J.enter (J.book s) (.inr e))
      (hnext : ∀ s, Journals J lang (fun word => notes (e :: word)) held pending (next s)) :
      Journals J lang notes held pending (.act f next)

def announced (J : Journal μ σ τ β ω ε ρ) : τ → List ω → List ρ
  | _, [] => []
  | v, o :: ops => J.news v o ++ announced J (J.op v o) ops

def filed (entries : List (Nat × (ρ ⊕ ε))) : List ρ := entries.filterMap (fun p => p.2.getLeft?)

def noted (i : Nat) (entries : List (Nat × (ρ ⊕ ε))) : List ε :=
  (own i entries).filterMap Sum.getRight?

-- What has been filed since the last note.
def sinceNote (entries : List (ρ ⊕ ε)) : List ρ :=
  entries.foldl (fun seen e => e.elim (fun r => seen ++ [r]) (fun _ => [])) []

omit [DecidableEq μ] in
theorem announced_append (J : Journal μ σ τ β ω ε ρ) (v : τ) (ops ops' : List ω) :
    announced J v (ops ++ ops') = announced J v ops ++ announced J (Runs.run J.op v ops) ops' := by
  induction ops generalizing v with
  | nil => rfl
  | cons o ops ih =>
    rw [List.cons_append, announced, announced, ih, List.append_assoc]
    rfl

omit [DecidableEq μ] in
theorem announced_rule {J : Journal μ σ τ β ω ε ρ} {P : τ → List ρ → Prop}
    (hstep : ∀ v seen o, P v seen → P (J.op v o) (seen ++ J.news v o)) {v : τ} (ops : List ω)
    (h : P v []) : P (Runs.run J.op v ops) (announced J v ops) := by
  induction ops using List.reverseRecOn with
  | nil => exact h
  | append_singleton ops o ih =>
    rw [Runs.run_append, announced_append]
    have hlast : announced J (Runs.run J.op v ops) [o] = J.news (Runs.run J.op v ops) o :=
      List.append_nil _
    rw [hlast]
    exact hstep _ _ o ih

@[simp] theorem filed_append (entries entries' : List (Nat × (ρ ⊕ ε))) :
    filed (entries ++ entries') = filed entries ++ filed entries' := by
  simp [filed]

@[simp] theorem noted_append (i : Nat) (entries entries' : List (Nat × (ρ ⊕ ε))) :
    noted i (entries ++ entries') = noted i entries ++ noted i entries' := by
  simp [noted]

theorem sinceNote_filed (entries : List (ρ ⊕ ε)) (r : ρ) :
    sinceNote (entries ++ [.inl r]) = sinceNote entries ++ [r] := by
  simp [sinceNote]

theorem sinceNote_note (entries : List (ρ ⊕ ε)) (e : ε) :
    sinceNote (entries ++ [.inr e]) = [] := by
  simp [sinceNote]

theorem sinceNote_suffix (entries : List (Nat × (ρ ⊕ ε))) :
    sinceNote (entries.map Prod.snd) <:+ filed entries := by
  induction entries using List.reverseRecOn with
  | nil => exact List.suffix_refl _
  | append_singleton entries entry ih =>
    obtain ⟨i, e⟩ := entry
    rw [List.map_append, filed_append]
    cases e with
    | inl r =>
      obtain ⟨earlier, hearlier⟩ := ih
      refine ⟨earlier, ?_⟩
      rw [List.map_singleton, sinceNote_filed, ← List.append_assoc, hearlier]
      rfl
    | inr e =>
      rw [List.map_singleton, sinceNote_note]
      exact List.nil_suffix

theorem noted_other {i j : Nat} {entries : List (Nat × (ρ ⊕ ε))} (h : ∀ p ∈ entries, p.1 = j)
    (hij : i ≠ j) : noted i entries = [] := by
  rw [noted, own_eq_nil (fun p hp hi => hij (hi.symm.trans (h p hp)))]
  rfl

theorem noted_filed (i : Nat) (r : ρ) : noted i [(i, (.inl r : ρ ⊕ ε))] = [] := by
  simp [noted]

theorem noted_self (i : Nat) (e : ε) : noted i [(i, (.inr e : ρ ⊕ ε))] = [e] := by
  simp [noted]

def share (reporter : Nat) (pending : List ρ) (i : Nat) : List ρ :=
  if i = reporter then pending else []

-- One thread at a time, holding the guard, has news that it has not filed yet.
structure Journaled (J : Journal μ σ τ β ω ε ρ) (v : τ) (b : β) (langs : Nat → List ω → Prop)
    (notes : Nat → List ε → Prop) (sys : System μ σ) (history : List (Nat × ω))
    (entries : List (Nat × (ρ ⊕ ε))) (reporter : Nat) (pending : List ρ) : Prop where
  state : J.view sys.state = Runs.run J.op v (history.map Prod.snd)
  book : J.book sys.state = Runs.run J.enter b (entries.map Prod.snd)
  news : announced J v (history.map Prod.snd) = filed entries ++ pending
  held : pending = [] ∨ Holds sys reporter (J.guard, .exclusive)
  threads : ∀ (i : Nat) (t : Thread μ σ), sys.threads[i]? = some t →
    t.rest.Journals J (fun word => langs i (own i history ++ word))
      (fun word => notes i (noted i entries ++ word)) t.held (share reporter pending i)

variable {J : Journal μ σ τ β ω ε ρ} {v : τ} {b : β} {langs : Nat → List ω → Prop}
  {notes : Nat → List ε → Prop} {sys : System μ σ} {history : List (Nat × ω)}
  {entries : List (Nat × (ρ ⊕ ε))} {reporter : Nat} {pending : List ρ}

theorem start_journaled (s : σ) {progs : List (Prog μ σ)}
    (h : ∀ (i : Nat) (p : Prog μ σ), progs[i]? = some p → p.Journals J (langs i) (notes i) [] []) :
    Journaled J (J.view s) (J.book s) langs notes (start s progs) [] [] 0 [] where
  state := rfl
  book := rfl
  news := rfl
  held := .inl rfl
  threads i t ht := by
    have hnone : share 0 ([] : List ρ) i = [] := ite_self []
    cases hp : progs[i]? with
    | none => simp [start, hp] at ht
    | some p =>
      have hthread : t = ⟨[], p⟩ := by simpa [start, hp] using ht.symm
      rw [hthread, hnone]
      exact h i p hp

-- A turn of thread i adds to the history and to the book what is its own.
theorem Journaled.turn (h : Journaled J v b langs notes sys history entries reporter pending) {i : Nat}
    {s' : σ} {t' : Thread μ σ} {history' : List (Nat × ω)} {entries' : List (Nat × (ρ ⊕ ε))}
    {reporter' : Nat} {pending' : List ρ} (hhistory : ∀ p ∈ history', p.1 = i)
    (hentries : ∀ p ∈ entries', p.1 = i)
    (hview : J.view s' = Runs.run J.op (J.view sys.state) (history'.map Prod.snd))
    (hbook : J.book s' = Runs.run J.enter (J.book sys.state) (entries'.map Prod.snd))
    (hnews : pending ++ announced J (J.view sys.state) (history'.map Prod.snd) =
      filed entries' ++ pending')
    (hheld : pending' = [] ∨ Holds ⟨s', sys.threads.set i t'⟩ reporter' (J.guard, .exclusive))
    (hothers : ∀ j, j ≠ i → share reporter' pending' j = share reporter pending j)
    (ht' : t'.rest.Journals J (fun word => langs i (own i history ++ (own i history' ++ word)))
      (fun word => notes i (noted i entries ++ (noted i entries' ++ word))) t'.held
      (share reporter' pending' i)) :
    Journaled J v b langs notes ⟨s', sys.threads.set i t'⟩ (history ++ history') (entries ++ entries')
      reporter' pending' where
  state := by rw [List.map_append, Runs.run_append, ← h.state, hview]
  book := by rw [List.map_append, Runs.run_append, ← h.book, hbook]
  news := by
    rw [List.map_append, announced_append, ← h.state, h.news, filed_append, List.append_assoc,
      List.append_assoc, hnews]
  held := hheld
  threads j u hu := by
    simp only [own_append, noted_append, List.append_assoc]
    rcases getElem?_set_cases hu with ⟨hj, hut⟩ | ⟨hj, hold⟩
    · rw [hj, hut]
      exact ht'
    · rw [own_eq_nil (fun p hp hi => hj (hi.symm.trans (hhistory p hp))), noted_other hentries hj,
        hothers j hj]
      exact h.threads j u hold

-- A turn that announces and files nothing.
theorem Journaled.pass (h : Journaled J v b langs notes sys history entries reporter pending) {i : Nat}
    {s' : σ} {t t' : Thread μ σ} (ht : sys.threads[i]? = some t)
    {history' : List (Nat × ω)} {entries' : List (Nat × (ρ ⊕ ε))}
    (hhistory : ∀ p ∈ history', p.1 = i) (hentries : ∀ p ∈ entries', p.1 = i)
    (hview : J.view s' = Runs.run J.op (J.view sys.state) (history'.map Prod.snd))
    (hbook : J.book s' = Runs.run J.enter (J.book sys.state) (entries'.map Prod.snd))
    (hsilent : announced J (J.view sys.state) (history'.map Prod.snd) = [])
    (hunfiled : filed entries' = [])
    (hkeep : share reporter pending i ≠ [] → (J.guard, .exclusive) ∈ t.held →
      (J.guard, .exclusive) ∈ t'.held)
    (ht' : t'.rest.Journals J (fun word => langs i (own i history ++ (own i history' ++ word)))
      (fun word => notes i (noted i entries ++ (noted i entries' ++ word))) t'.held
      (share reporter pending i)) :
    Journaled J v b langs notes ⟨s', sys.threads.set i t'⟩ (history ++ history') (entries ++ entries')
      reporter pending := by
  refine h.turn hhistory hentries hview hbook (by rw [hsilent, hunfiled]; simp) ?_ (fun _ _ => rfl) ht'
  rcases h.held with hnil | hheld
  · exact .inl hnil
  · by_cases hnil : pending = []
    · exact .inl hnil
    · refine .inr (holds_set ht hheld (fun hi => hkeep ?_))
      rwa [share, if_pos hi.symm]

theorem share_self (reporter : Nat) (pending : List ρ) : share reporter pending reporter = pending :=
  if_pos rfl

theorem share_nil (reporter i : Nat) : share reporter ([] : List ρ) i = [] := ite_self []

theorem share_other {reporter i : Nat} (h : i ≠ reporter) (pending : List ρ) :
    share reporter pending i = [] :=
  if_neg h

-- Who holds the guard has no news beside its own.
theorem Journaled.pending_eq (h : Journaled J v b langs notes sys history entries reporter pending)
    (hx : Exclusion sys.threads) {i : Nat} (hheld : Holds sys i (J.guard, .exclusive))
    (hmine : share reporter pending i = []) : pending = [] := by
  by_cases hi : i = reporter
  · rwa [share, if_pos hi] at hmine
  · refine h.held.resolve_right ?_
    rintro ⟨u, hu, hl'⟩
    obtain ⟨t, ht, hl⟩ := hheld
    exact hx i reporter t u hi ht hu _ hl _ hl' ⟨rfl, .inl rfl⟩

theorem single_turn {α : Type} (i : Nat) (a : α) : ∀ p ∈ [(i, a)], p.1 = i := by
  simp

-- A turn in which the holder of the guard announces news.
theorem Journaled.announce (h : Journaled J v b langs notes sys history entries reporter pending)
    (hx : Exclusion sys.threads) {i : Nat} {t : Thread μ σ} (ht : sys.threads[i]? = some t)
    (hheld : (J.guard, .exclusive) ∈ t.held) (hmine : share reporter pending i = []) {s' : σ}
    {next : Prog μ σ} (o : ω) (hview : J.view s' = J.op (J.view sys.state) o)
    (hbook : J.book s' = J.book sys.state)
    (hnext : next.Journals J (fun word => langs i (own i history ++ o :: word))
      (fun word => notes i (noted i entries ++ word)) t.held (J.news (J.view sys.state) o)) :
    Journaled J v b langs notes ⟨s', sys.threads.set i ⟨t.held, next⟩⟩ (history ++ [(i, o)])
      (entries ++ []) i (J.news (J.view sys.state) o) := by
  have hpending := h.pending_eq hx ⟨t, ht, hheld⟩ hmine
  have hholds : Holds ⟨s', sys.threads.set i ⟨t.held, next⟩⟩ i (J.guard, .exclusive) :=
    ⟨⟨t.held, next⟩, getElem?_set_of_some ht _, hheld⟩
  refine h.turn (single_turn i o) (List.forall_mem_nil _) hview hbook ?_ (.inr hholds) ?_ ?_
  · simp [announced, hpending, filed]
  · intro j hj
    rw [hpending, share_nil, share_other hj]
  · rw [share_self, own_self]
    exact hnext

-- A turn in which the reporter files the first of its news.
theorem Journaled.file {r : ρ} {later : List ρ}
    (h : Journaled J v b langs notes sys history entries reporter pending) {i : Nat} {t : Thread μ σ}
    (ht : sys.threads[i]? = some t) (hmine : share reporter pending i = r :: later) {s' : σ}
    {next : Prog μ σ} (hview : J.view s' = J.view sys.state)
    (hbook : J.book s' = J.enter (J.book sys.state) (.inl r))
    (hnext : next.Journals J (fun word => langs i (own i history ++ word))
      (fun word => notes i (noted i entries ++ word)) t.held later) :
    Journaled J v b langs notes ⟨s', sys.threads.set i ⟨t.held, next⟩⟩ (history ++ [])
      (entries ++ [(i, .inl r)]) reporter later := by
  have hi : i = reporter := by
    by_contra hi
    rw [share_other hi] at hmine
    cases hmine
  rw [hi, share_self] at hmine
  refine h.turn (List.forall_mem_nil _) (single_turn i _) hview hbook ?_ ?_ ?_ ?_
  · simp [announced, hmine, filed]
  · rcases h.held with hnil | hheld
    · rw [hnil] at hmine
      cases hmine
    · exact .inr (holds_set ht hheld (fun _ hl => hl))
  · intro j hj
    rw [share_other (hi ▸ hj), share_other (hi ▸ hj)]
  · rw [hi, share_self, ← hi, noted_filed]
    exact hnext

-- A turn in which thread i changes the state.
theorem Journaled.acted (h : Journaled J v b langs notes sys history entries reporter pending)
    (hx : Exclusion sys.threads) {i : Nat} {t : Thread μ σ} {f : σ → σ} {next : σ → Prog μ σ}
    (ht : sys.threads[i]? = some t) (hrest : t.rest = .act f next) :
    ∃ history' entries' reporter' pending', Journaled J v b langs notes
        ⟨f sys.state, sys.threads.set i ⟨t.held, next sys.state⟩⟩ (history ++ history')
        (entries ++ entries') reporter' pending' ∧
      (∀ p ∈ history', p.1 = i) ∧ ∀ p ∈ entries', p.1 = i := by
  have hnone : ∀ {α : Type}, ∀ p ∈ ([] : List (Nat × α)), p.1 = i := List.forall_mem_nil _
  have hj := h.threads i t ht
  rw [hrest] at hj
  generalize hmine : share reporter pending i = mine at hj
  cases hj with
  | idle hview hbook hnext =>
    exact ⟨[], [], reporter, pending, h.pass ht hnone hnone (hview _) (hbook _) rfl rfl
      (fun _ hl => hl) (hmine ▸ hnext _), hnone, hnone⟩
  | operate o hview hbook hnews hnext =>
    refine ⟨[(i, o)], [], reporter, pending, ?_, single_turn i o, hnone⟩
    refine h.pass ht (single_turn i o) hnone (hview _) (hbook _) ?_ rfl (fun _ hl => hl) ?_
    · simp [announced, hnews]
    · rw [hmine, own_self]
      exact hnext _
  | announce o hheld hview hbook hnext =>
    exact ⟨[(i, o)], [], i, J.news (J.view sys.state) o,
      h.announce hx ht hheld hmine o (hview _) (hbook _) (hnext _), single_turn i o, hnone⟩
  | @file _ _ _ later _ _ r hview hbook hnext =>
    exact ⟨[], [(i, .inl r)], reporter, later,
      h.file ht hmine (hview _) (hbook _) (hnext _), hnone, single_turn i _⟩
  | note e hview hbook hnext =>
    refine ⟨[], [(i, .inr e)], reporter, pending, ?_, hnone, single_turn i _⟩
    refine h.pass ht hnone (single_turn i _) (hview _) (hbook _) rfl rfl (fun _ hl => hl) ?_
    rw [hmine, noted_self]
    exact hnext _

theorem Journaled.step (h : Journaled J v b langs notes sys history entries reporter pending)
    (hx : Exclusion sys.threads) (i : Nat) :
    ∃ history' entries' reporter' pending', Journaled J v b langs notes (LockOrder.step sys i)
        (history ++ history') (entries ++ entries') reporter' pending' ∧
      (∀ p ∈ history', p.1 = i ∧ Unfinished sys i) ∧ ∀ p ∈ entries', p.1 = i ∧ Unfinished sys i := by
  have hnone : ∀ {α : Type}, ∀ p ∈ ([] : List (Nat × α)), p.1 = i := List.forall_mem_nil _
  cases step_case sys i with
  | idle hstep => exact ⟨[], [], reporter, pending, by simpa [hstep] using h, nofun, nofun⟩
  | acquired t m mode next ht hrest _ hstep =>
    have hj := h.threads i t ht
    rw [hrest] at hj
    refine ⟨[], [], reporter, pending, ?_, nofun, nofun⟩
    rw [hstep]
    generalize hmine : share reporter pending i = mine at hj
    cases hj with
    | acquire hnext =>
      exact h.pass ht hnone hnone rfl rfl rfl rfl (fun _ hl => List.mem_cons_of_mem _ hl)
        (hmine ▸ hnext)
  | released t m mode next ht hrest hstep =>
    have hj := h.threads i t ht
    rw [hrest] at hj
    refine ⟨[], [], reporter, pending, ?_, nofun, nofun⟩
    rw [hstep]
    generalize hmine : share reporter pending i = mine at hj
    cases hj with
    | release hguard hnext =>
      refine h.pass ht hnone hnone rfl rfl rfl rfl (fun hne hl => ?_) (hmine ▸ hnext)
      exact (List.mem_erase_of_ne (fun heq => hne (hmine.trans (hguard heq.symm)))).mpr hl
  | acted t f next ht hrest hstep =>
    have hun : Unfinished sys i := ⟨t, ht, by rw [hrest]; nofun⟩
    obtain ⟨history', entries', reporter', pending', hacted, hhistory, hentries⟩ :=
      h.acted hx ht hrest
    exact ⟨history', entries', reporter', pending', hstep ▸ hacted,
      fun p hp => ⟨hhistory p hp, hun⟩, fun p hp => ⟨hentries p hp, hun⟩⟩

theorem Journaled.run (h : Journaled J v b langs notes sys history entries reporter pending)
    (hx : Exclusion sys.threads) (schedule : List Nat) :
    ∃ history' entries' reporter' pending', Journaled J v b langs notes
        (Runs.run LockOrder.step sys schedule) (history ++ history') (entries ++ entries') reporter'
        pending' ∧
      (∀ p ∈ history', p.1 ∈ schedule ∧ Unfinished sys p.1) ∧
      ∀ p ∈ entries', p.1 ∈ schedule ∧ Unfinished sys p.1 := by
  induction schedule generalizing sys history entries reporter pending with
  | nil => exact ⟨[], [], reporter, pending, by simpa using h, nofun, nofun⟩
  | cons i schedule ih =>
    obtain ⟨history₁, entries₁, reporter₁, pending₁, hfirst, hhistory, hentries⟩ := h.step hx i
    obtain ⟨history₂, entries₂, reporter₂, pending₂, hlater, hhistory', hentries'⟩ :=
      ih hfirst (step_exclusion sys i hx)
    rw [List.append_assoc, List.append_assoc] at hlater
    have hgrow : ∀ {α : Type} {first later : List (Nat × α)},
        (∀ p ∈ first, p.1 = i ∧ Unfinished sys i) →
        (∀ p ∈ later, p.1 ∈ schedule ∧ Unfinished (LockOrder.step sys i) p.1) →
        ∀ p ∈ first ++ later, p.1 ∈ i :: schedule ∧ Unfinished sys p.1 := by
      intro α first later hf hl p hp
      rcases List.mem_append.mp hp with hp | hp
      · obtain ⟨rfl, hun⟩ := hf p hp
        exact ⟨List.mem_cons_self, hun⟩
      · obtain ⟨hin, hun⟩ := hl p hp
        exact ⟨List.mem_cons_of_mem i hin, step_unfinished hun⟩
    exact ⟨_, _, _, _, hlater, hgrow hhistory hhistory', hgrow hentries hentries'⟩

theorem Journaled.finished (h : Journaled J v b langs notes sys history entries reporter pending)
    {i : Nat} {t : Thread μ σ} (ht : sys.threads[i]? = some t) (hd : t.rest = .done) :
    langs i (own i history) ∧ notes i (noted i entries) ∧ share reporter pending i = [] := by
  have hj := h.threads i t ht
  rw [hd] at hj
  generalize share reporter pending i = mine at hj
  cases hj with
  | done hlang hnotes =>
    rw [List.append_nil] at hlang hnotes
    exact ⟨hlang, hnotes, rfl⟩

theorem Journaled.complete (h : Journaled J v b langs notes sys history entries reporter pending)
    (hdone : ∀ t ∈ sys.threads, t.rest = .done) :
    announced J v (history.map Prod.snd) = filed entries := by
  have hnil : pending = [] := by
    rcases h.held with hnil | ⟨t, ht, -⟩
    · exact hnil
    · obtain ⟨-, -, hmine⟩ := h.finished ht (hdone t (List.mem_of_getElem? ht))
      rwa [share_self] at hmine
  rw [h.news, hnil, List.append_nil]

theorem Prog.Journals.performs {lang : List ω → Prop} {notes : List ε → Prop}
    {held : List (μ × Mode)} {pending : List ρ} {p : Prog μ σ}
    (h : p.Journals J lang notes held pending) : p.Performs J.view J.op lang := by
  induction h with
  | done hlang hnotes => exact hlang
  | acquire hnext ih => exact ih
  | release hguard hnext ih => exact ih
  | idle hview hbook hnext ih => exact .inl (fun s => ⟨hview s, ih s⟩)
  | operate o hview hbook hnews hnext ih => exact .inr (fun s => ⟨o, hview s, ih s⟩)
  | announce o hheld hview hbook hnext ih => exact .inr (fun s => ⟨o, hview s, ih s⟩)
  | file r hview hbook hnext ih => exact .inl (fun s => ⟨hview s, ih s⟩)
  | note e hview hbook hnext ih => exact .inl (fun s => ⟨hview s, ih s⟩)

theorem Journaled.linearizes (h : Journaled J v b langs notes sys history entries reporter pending) :
    Linearizes J.view J.op v langs sys history where
  state := h.state
  threads i t ht := (h.threads i t ht).performs

end LockOrder
