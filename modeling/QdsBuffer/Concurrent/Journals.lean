import QdsBuffer.Library.Journal
import QdsBuffer.Concurrent.Stability
import QdsBuffer.RingBuffer.Locked
import QdsBuffer.RingBuffer.Notified
import QdsBuffer.DataSource.Logs

namespace QdsBuffer.Concurrent.Locks
open LockOrder

def Visit.operation : Visit → Option RingBuffer.Op
  | .setLocked index locked => some (.setLocked index locked)
  | _ => none

-- The operations on the buffer that a call may come to; before its Push an Add fails only at a
-- document that is not accepted or at a REF measurement.
def Call.Operations : Call → List RingBuffer.Op → Prop
  | .add id json _, ops =>
    (ops = [] ∧ ∀ data, DataSource.parse json = .ok data → ∃ d ∈ data, d.type = .ref) ∨
      ∃ data measurement, DataSource.parse json = .ok data ∧
        Replacement data measurement ∧ ops = [.push id measurement]
  | .delete id, ops => ops = [.delete id]
  | .reset reason, ops => ops = [.reset reason]
  | .iterate _ visits, ops => ops = visits.filterMap Visit.operation
  | _, ops => ops = []

-- A list of the data source as a journal of what the operations on the buffer announce for it.
def ringJournal {β ρ : Type} (cfg : DataSource.Config) (clock : Nat → Nat) (guard : Mutex)
    (news : RingBuffer → RingBuffer.Op → List ρ) (book : DataSource → β) (enter : β → ρ ⊕ Unit → β) :
    Journal Mutex DataSource RingBuffer β RingBuffer.Op Unit ρ :=
  ⟨guard, (·.buffer), RingBuffer.step cfg.ring clock, news, book, enter⟩

def enterDeletion (cfg : DataSource.Config) (l : DeletionInformationList) :
    DeletionInformation ⊕ Unit → DeletionInformationList
  | .inl info => DataSource.logDeletion cfg info l
  | .inr _ => ⟨[], false⟩

def deletionJournal (cfg : DataSource.Config) (clock : Nat → Nat) :
    Journal Mutex DataSource RingBuffer DeletionInformationList RingBuffer.Op Unit
      DeletionInformation :=
  ringJournal cfg clock .buffer
    (fun rb op => (RingBuffer.calls cfg.ring clock rb op).filterMap DataSource.notification)
    (·.deletionInformationList) (enterDeletion cfg)

def enterReset (cfg : DataSource.Config) (l : ResetInformationList) :
    ResetInformation ⊕ Unit → ResetInformationList
  | .inl info => DataSource.logReset cfg info l
  | .inr _ => ⟨[], false⟩

def returnedInformation (cfg : DataSource.Config) (clock : Nat → Nat) (rb : RingBuffer) :
    RingBuffer.Op → List ResetInformation
  | .reset reason => [(RingBuffer.reset cfg.ring clock reason rb).1]
  | _ => []

def resetJournal (cfg : DataSource.Config) (clock : Nat → Nat) :
    Journal Mutex DataSource RingBuffer ResetInformationList RingBuffer.Op Unit ResetInformation :=
  ringJournal cfg clock .resetInformationList (returnedInformation cfg clock)
    (·.resetInformationList) (enterReset cfg)

def Call.OverflowAcknowledgements : Call → List Unit → Prop
  | .acknowledgeOverflow, word => word = [()]
  | _, word => word = []

def Call.ResetAcknowledgements : Call → List Unit → Prop
  | .acknowledgeReset, word => word = [()]
  | _, word => word = []

def KeepsLists (f : DataSource → DataSource) : Prop :=
  ∀ s, (f s).buffer = s.buffer ∧ (f s).resetInformationList = s.resetInformationList ∧
    (f s).deletionInformationList = s.deletionInformationList

section

variable {β ρ : Type} {J : Journal Mutex DataSource RingBuffer β RingBuffer.Op Unit ρ}
  {lang : List RingBuffer.Op → Prop} {notes : List Unit → Prop} {held : List (Mutex × Mode)}
  {pending : List ρ} {m : Mutex} {mode : Mode} {f : DataSource → DataSource}

theorem release_journals {next : Program} (hguard : m = J.guard → pending = [])
    (hnext : next.Journals J lang notes held pending) :
    (Prog.release m mode next).Journals J lang notes ((m, mode) :: held) pending := by
  refine .release (fun heq => hguard (congrArg Prod.fst heq)) ?_
  rwa [List.erase_cons_head]

theorem underLock_journals {next : DataSource → Program} (hguard : m = J.guard → pending = [])
    (hview : ∀ s, J.view (f s) = J.view s) (hbook : ∀ s, J.book (f s) = J.book s)
    (hnext : ∀ s, (next s).Journals J lang notes held pending) :
    (underLock m f next).Journals J lang notes held pending :=
  .acquire (.idle hview hbook (fun s => release_journals hguard (hnext s)))

theorem underSharedLock_journals {next : Program} (hguard : m = J.guard → pending = [])
    (hnext : next.Journals J lang notes held pending) :
    (underSharedLock m next).Journals J lang notes held pending :=
  .acquire (release_journals hguard hnext)

-- The sections of the reference table are none of the journal's business.
structure ApartFromRefs (J : Journal Mutex DataSource RingBuffer β RingBuffer.Op Unit ρ) : Prop where
  guard : .refMapping ≠ J.guard
  view : ∀ f, KeepsLists f → ∀ s, J.view (f s) = J.view s
  book : ∀ f, KeepsLists f → ∀ s, J.book (f s) = J.book s

theorem refs_journals (hJ : ApartFromRefs J) (hf : KeepsLists f) {next : DataSource → Program}
    (hnext : ∀ s, (next s).Journals J lang notes held pending) :
    (underLock .refMapping f next).Journals J lang notes held pending :=
  underLock_journals (fun heq => absurd heq hJ.guard) (hJ.view f hf) (hJ.book f hf) hnext

variable {cfg : DataSource.Config} {clock : Nat → Nat}

theorem add_journals (hJ : ApartFromRefs J) (hnotes : notes []) {id : Int}
    {json : Parsing.JsonParser.Delivery} {access : Nat → FileAccess}
    (hpush : ∀ measurement next, (∀ result, (next result).Journals J
        (fun word => (Call.add id json access).Operations (.push id measurement :: word)) notes [] []) →
      (push cfg clock id measurement next).Journals J (Call.add id json access).Operations notes [] []) :
    (add cfg clock id json access).Journals J (Call.add id json access).Operations notes [] [] := by
  refine .acquire (release_journals (fun _ => rfl) ?_)
  cases hdata : DataSource.parse json with
  | error e => exact .done (.inl ⟨rfl, fun data hok => by simp [hdata] at hok⟩) hnotes
  | ok data =>
    refine processRefMapping_induction (P := fun p => p.Journals J _ notes [] []) ?_ ?_ ?_ access
      rfl .nil
    · intro d hd ht
      refine .done (.inl ⟨rfl, fun data' hok => ?_⟩) hnotes
      rw [hdata] at hok
      exact Except.ok.inj hok ▸ ⟨d, hd, ht⟩
    · intro d _ _ access after hafter
      refine refs_journals hJ ?_ hafter
      exact fun _ => ⟨rfl, rfl, rfl⟩
    · intro measurement hm
      apply hpush
      intro result
      have hpushed : (Call.add id json access).Operations [.push id measurement] :=
        .inr ⟨data, measurement, hdata, hm, rfl⟩
      split
      · refine refs_journals hJ ?_ (fun _ => .done ?_ hnotes)
        · exact fun _ => ⟨rfl, rfl, rfl⟩
        · exact hpushed
      · refine .done ?_ hnotes
        exact hpushed

theorem visits_journals (hJ : ApartFromRefs J) (hnotes : notes [])
    (hset : ∀ index locked lang' next, (∀ s : DataSource, (next s).Journals J
        (fun word => lang' (.setLocked index locked :: word)) notes [(.buffer, mode)] []) →
      (Prog.act (fun s => { s with buffer := s.buffer.setLocked index locked }) next).Journals J lang'
        notes [(.buffer, mode)] []) {visits : List Visit} (h : lang (visits.filterMap Visit.operation)) :
    (iterate mode visits).Journals J lang notes [] [] := by
  refine .acquire ?_
  induction visits generalizing lang with
  | nil => exact release_journals (fun _ => rfl) (.done h hnotes)
  | cons visit visits ih =>
    cases visit with
    | read => exact ih h
    | setLocked index locked =>
      have hrest := @ih (fun ops => lang (.setLocked index locked :: ops)) h
      exact hset index locked lang _ (fun _ => hrest)
    | getReference ref =>
      exact underSharedLock_journals (fun heq => absurd heq hJ.guard) (ih h)

end

variable {cfg : DataSource.Config} {clock : Nat → Nat} {lang : List RingBuffer.Op → Prop}
  {notes : List Unit → Prop} {held : List (Mutex × Mode)}

theorem deletion_apart : ApartFromRefs (deletionJournal cfg clock) where
  guard heq := by cases heq
  view f hf s := (hf s).1
  book f hf s := (hf s).2.2

theorem reset_apart : ApartFromRefs (resetJournal cfg clock) where
  guard heq := by cases heq
  view f hf s := (hf s).1
  book f hf s := (hf s).2.1

-- The callbacks log each deleted entry before the buffer is released.
theorem callbacks_file (calls : List DeleteCall) {next : Program}
    (hnext : next.Journals (deletionJournal cfg clock) lang notes held []) :
    (callbacks cfg calls next).Journals (deletionJournal cfg clock) lang notes held
      (calls.filterMap DataSource.notification) := by
  induction calls with
  | nil => exact hnext
  | cons call calls ih =>
    change (onDeleteCallback cfg call (callbacks cfg calls next)).Journals _ _ _ _ _
    have hrefs : ∀ id, (deleteRefMapping id call.clear (callbacks cfg calls next)).Journals
        (deletionJournal cfg clock) lang notes held (calls.filterMap DataSource.notification) := by
      intro id
      refine refs_journals deletion_apart ?_ (fun _ => ih)
      exact fun _ => ⟨rfl, rfl, rfl⟩
    unfold onDeleteCallback
    rw [List.filterMap_cons]
    unfold DataSource.notification
    cases call.entry with
    | none => exact hrefs 0
    | some entry =>
      refine .acquire (.file _ (fun _ => rfl) (fun _ => rfl) (fun _ => ?_))
      exact release_journals (fun heq => by cases heq) (hrefs entry.id)

theorem callbacks_pass {calls : List DeleteCall} {next : Program} {pending : List ResetInformation}
    (hnext : next.Journals (resetJournal cfg clock) lang notes held pending) :
    (callbacks cfg calls next).Journals (resetJournal cfg clock) lang notes held pending := by
  refine callbacks_induction
    (P := fun p => p.Journals (resetJournal cfg clock) lang notes held pending) ?_ ?_ hnext
  · intro info after hafter
    exact underLock_journals (fun heq => by cases heq) (fun _ => rfl) (fun _ => rfl) (fun _ => hafter)
  · intro id clear after hafter
    refine refs_journals reset_apart ?_ (fun _ => hafter)
    exact fun _ => ⟨rfl, rfl, rfl⟩

theorem push_deletions {id : Int} {measurement : List Measurement}
    {next : Except Exception Int → Program}
    (hnext : ∀ result, (next result).Journals (deletionJournal cfg clock)
      (fun word => lang (.push id measurement :: word)) notes [] []) :
    (push cfg clock id measurement next).Journals (deletionJournal cfg clock) lang notes [] [] := by
  refine .acquire (.announce (.push id measurement) List.mem_cons_self (fun _ => rfl) (fun _ => rfl) ?_)
  exact fun s => callbacks_file _ (release_journals (fun _ => rfl) (hnext _))

theorem push_resets {id : Int} {measurement : List Measurement}
    {next : Except Exception Int → Program}
    (hnext : ∀ result, (next result).Journals (resetJournal cfg clock)
      (fun word => lang (.push id measurement :: word)) notes [] []) :
    (push cfg clock id measurement next).Journals (resetJournal cfg clock) lang notes [] [] := by
  refine .acquire (.operate (.push id measurement) (fun _ => rfl) (fun _ => rfl) (fun _ => rfl) ?_)
  exact fun s => callbacks_pass (release_journals (fun _ => rfl) (hnext _))

theorem delete_deletions (id : Int) (hnotes : notes []) :
    (delete cfg id).Journals (deletionJournal cfg clock) (Call.delete id).Operations notes [] [] := by
  refine .acquire (.announce (.delete id) List.mem_cons_self (fun _ => rfl) (fun _ => rfl) ?_)
  refine fun s => callbacks_file _ (release_journals (fun _ => rfl) (.done ?_ hnotes))
  rfl

theorem delete_resets (id : Int) (hnotes : notes []) :
    (delete cfg id).Journals (resetJournal cfg clock) (Call.delete id).Operations notes [] [] := by
  refine .acquire (.operate (.delete id) (fun _ => rfl) (fun _ => rfl) (fun _ => rfl) ?_)
  refine fun s => callbacks_pass (release_journals (fun _ => rfl) (.done ?_ hnotes))
  rfl

theorem reset_deletions (reason : ResetReason) (hnotes : notes []) :
    (reset cfg clock reason).Journals (deletionJournal cfg clock) (Call.reset reason).Operations
      notes [] [] := by
  refine .acquire (.acquire (.announce (.reset reason) List.mem_cons_self (fun _ => rfl)
    (fun _ => rfl) ?_))
  refine fun s => callbacks_file _ (release_journals (fun _ => rfl) ?_)
  refine .idle (fun _ => rfl) (fun _ => rfl) (fun _ => release_journals (fun _ => rfl) (.done ?_ hnotes))
  rfl

theorem reset_resets (reason : ResetReason) (hnotes : notes []) :
    (reset cfg clock reason).Journals (resetJournal cfg clock) (Call.reset reason).Operations
      notes [] [] := by
  refine .acquire (.acquire (.announce (.reset reason) (List.mem_cons_of_mem _ List.mem_cons_self)
    (fun _ => rfl) (fun _ => rfl) ?_))
  refine fun s => callbacks_pass (release_journals (fun heq => by cases heq) ?_)
  refine .file _ (fun _ => rfl) (fun _ => rfl) (fun _ => release_journals (fun _ => rfl) (.done ?_ hnotes))
  rfl

theorem program_deletions (cfg : DataSource.Config) (clock : Nat → Nat) (call : Call) :
    (call.program cfg clock).Journals (deletionJournal cfg clock) call.Operations
      call.OverflowAcknowledgements [] [] := by
  cases call with
  | add id json access =>
    refine add_journals deletion_apart ?_ (fun _ _ h => push_deletions h)
    rfl
  | setReference ref data dataFormat =>
    refine refs_journals deletion_apart (fun s => ?_) (fun _ => .done rfl rfl)
    exact setReference_frame ref data dataFormat s
  | reset reason => exact reset_deletions reason rfl
  | delete id => exact delete_deletions id rfl
  | acknowledgeOverflow =>
    refine .acquire (.note () (fun _ => rfl) (fun _ => rfl) (fun _ => ?_))
    exact release_journals (fun heq => by cases heq) (.done rfl rfl)
  | acknowledgeReset =>
    exact underLock_journals (fun _ => rfl) (fun _ => rfl) (fun _ => rfl) (fun _ => .done rfl rfl)
  | iterate mode visits =>
    refine visits_journals deletion_apart ?_ ?_ ?_
    · rfl
    · exact fun index locked lang' next hnext =>
        .operate (.setLocked index locked) (fun _ => rfl) (fun _ => rfl) (fun _ => rfl) hnext
    · rfl
  | _ => exact underSharedLock_journals (fun _ => rfl) (.done rfl rfl)

theorem program_resets (cfg : DataSource.Config) (clock : Nat → Nat) (call : Call) :
    (call.program cfg clock).Journals (resetJournal cfg clock) call.Operations
      call.ResetAcknowledgements [] [] := by
  cases call with
  | add id json access =>
    refine add_journals reset_apart ?_ (fun _ _ h => push_resets h)
    rfl
  | setReference ref data dataFormat =>
    refine refs_journals reset_apart (fun s => ?_) (fun _ => .done rfl rfl)
    exact setReference_frame ref data dataFormat s
  | reset reason => exact reset_resets reason rfl
  | delete id => exact delete_resets id rfl
  | acknowledgeReset =>
    refine .acquire (.note () (fun _ => rfl) (fun _ => rfl) (fun _ => ?_))
    exact release_journals (fun _ => rfl) (.done rfl rfl)
  | acknowledgeOverflow =>
    exact underLock_journals (fun _ => rfl) (fun _ => rfl) (fun _ => rfl) (fun _ => .done rfl rfl)
  | iterate mode visits =>
    refine visits_journals reset_apart ?_ ?_ ?_
    · rfl
    · exact fun index locked lang' next hnext =>
        .operate (.setLocked index locked) (fun _ => rfl) (fun _ => rfl) (fun _ => rfl) hnext
    · rfl
  | _ => exact underSharedLock_journals (fun _ => rfl) (.done rfl rfl)

end QdsBuffer.Concurrent.Locks
