import LoanLedger.Proofs.Ledger.Settle

/-!
Runs side by side over one ledger. Any number of runs take turns step by step: one reads candidate
rows, one loads a loan and computes an accrual of it on rows that were read before, one commits an
accrual that was computed before. A run by itself takes these steps one after the other.
-/

set_option autoImplicit false
set_option relaxedAutoImplicit false

namespace LoanLedger

/-- Candidate rows that a run has read, of all loans or of one. -/
structure Reading where
  terms : RunTerms
  only : Option LoanId
  rows : List ScheduleRow

/-- The rows on which a loan is accrued. -/
def Reading.rowsOf (r : Reading) (id : LoanId) : List ScheduleRow :=
  match r.only with
  | none => r.rows.filter fun row => row.loanId = id
  | some _ => r.rows

/-- An accrual that was computed for a loan, as it was loaded, on rows that were read before. -/
structure Attempt where
  terms : RunTerms
  loanId : LoanId
  rows : List ScheduleRow
  loan : Loan
  result : AccrualResult

/-- The commit of an attempt. -/
def Attempt.toCommit (a : Attempt) : Commit := ⟨a.loanId, a.loan.version, a.result⟩

/-- One set of books and the runs at work on it: what they have read, what they have computed, and
the postings of all commits so far. -/
structure World where
  books : Books
  readings : List Reading
  attempts : List Attempt
  committed : List Posting

/-- A step of one of the runs, or of the surroundings. -/
inductive Step
  | read (terms : RunTerms) (only : Option LoanId)
  | load (reading : Nat) (id : LoanId)
  | commit (attempt : Nat)
  | expectConflicts (id : LoanId) (count : UInt32)
  | refuseEntries (id : LoanId)

namespace World

/-- No run has begun. -/
def start (b : Books) : World := ⟨b, [], [], []⟩

/-- What comes of loading a loan: an attempt, when it is active and has something to accrue. -/
def attempt? (w : World) (r : Reading) (id : LoanId) : Option Attempt :=
  match w.books.ledger.loans.find? id with
  | none => none
  | some loan =>
    if loan.status.isActive then
      match (loan.inputOn id (r.rowsOf id)).accrue r.terms.mode r.terms.settings r.terms.today
          w.books.nextId with
      | .error _ => none
      | .ok result =>
        if result.isEmpty then none else some ⟨r.terms, id, r.rowsOf id, loan, result⟩
    else none

/-- A run reads candidate rows. -/
def read (w : World) (terms : RunTerms) (only : Option LoanId) : World :=
  { w with readings := w.readings ++
      [⟨terms, only, w.books.ledger.candidates only terms.mode terms.today⟩] }

/-- A run loads a loan and computes its accrual. -/
def load (w : World) (reading : Nat) (id : LoanId) : World :=
  match w.readings[reading]?.bind fun r => w.attempt? r id with
  | none => w
  | some a =>
    { w with
      books := { w.books with nextId := w.books.nextId + a.result.postings.length }
      attempts := w.attempts ++ [a] }

/-- A run commits an attempt and announces what it posted. -/
def commit (w : World) (attempt : Nat) : World :=
  match w.attempts[attempt]? with
  | none => w
  | some a =>
    match w.books.commit a.toCommit with
    | (books, .error _) => { w with books }
    | (books, .ok _) =>
      { w with
        books := { books with events := books.events ++ a.result.events a.loanId }
        committed := w.committed ++ a.result.postings }

/-- The world after a step. A step whose reading or attempt is missing does nothing. -/
def perform (w : World) : Step → World
  | .read terms only => w.read terms only
  | .load reading id => w.load reading id
  | .commit attempt => w.commit attempt
  | .expectConflicts id count =>
    { w with books := { w.books with ledger := w.books.ledger.expectConflicts id count } }
  | .refuseEntries id => { w with books := { w.books with journal := w.books.journal.refusing id } }

/-- The world after several steps. -/
def after (w : World) (steps : List Step) : World := steps.foldl perform w

@[simp] theorem after_nil (w : World) : w.after [] = w := rfl

@[simp] theorem after_cons (w : World) (step : Step) (steps : List Step) :
    w.after (step :: steps) = (w.perform step).after steps := rfl

theorem after_append (w : World) (steps steps' : List Step) :
    w.after (steps ++ steps') = (w.after steps).after steps' := List.foldl_append

variable {w : World}

theorem readings_perform (w : World) (step : Step) : w.readings <+: (w.perform step).readings := by
  cases step with
  | read terms only => exact List.prefix_append _ _
  | load reading id =>
    simp only [perform, load]
    split <;> exact List.prefix_rfl
  | commit attempt =>
    simp only [perform, commit]
    split
    · exact List.prefix_rfl
    · split <;> exact List.prefix_rfl
  | expectConflicts id count => exact List.prefix_rfl
  | refuseEntries id => exact List.prefix_rfl

theorem readings_after (w : World) (steps : List Step) : w.readings <+: (w.after steps).readings := by
  induction steps generalizing w with
  | nil => exact List.prefix_rfl
  | cons step steps ih => exact (readings_perform w step).trans (ih (w.perform step))

theorem getElem?_readings_after {i : Nat} {r : Reading} (h : w.readings[i]? = some r)
    (steps : List Step) : (w.after steps).readings[i]? = some r := by
  obtain ⟨later, hlater⟩ := readings_after w steps
  obtain ⟨hi, -⟩ := List.getElem?_eq_some_iff.mp h
  rw [← hlater, List.getElem?_append_left hi, h]

theorem attempts_perform (w : World) (step : Step) : w.attempts <+: (w.perform step).attempts := by
  cases step with
  | read terms only => exact List.prefix_rfl
  | load reading id =>
    simp only [perform, load]
    split
    · exact List.prefix_rfl
    · exact List.prefix_append _ _
  | commit attempt =>
    simp only [perform, commit]
    split
    · exact List.prefix_rfl
    · split <;> exact List.prefix_rfl
  | expectConflicts id count => exact List.prefix_rfl
  | refuseEntries id => exact List.prefix_rfl

theorem attempts_after (w : World) (steps : List Step) : w.attempts <+: (w.after steps).attempts := by
  induction steps generalizing w with
  | nil => exact List.prefix_rfl
  | cons step steps ih => exact (attempts_perform w step).trans (ih (w.perform step))

theorem attempt?_eq_some {r : Reading} {id : LoanId} {a : Attempt} (h : w.attempt? r id = some a) :
    w.books.ledger.loans.find? id = some a.loan ∧ a.loan.status.isActive = true ∧
      (a.loan.inputOn id (r.rowsOf id)).accrue r.terms.mode r.terms.settings r.terms.today
        w.books.nextId = .ok a.result ∧ a.result.isEmpty = false ∧
      a.terms = r.terms ∧ a.loanId = id ∧ a.rows = r.rowsOf id := by
  simp only [attempt?] at h
  split at h
  · cases h
  · next loan hloan =>
    split at h
    · next hactive =>
      split at h
      · cases h
      · next result haccrue =>
        split at h
        · cases h
        · next hempty =>
          rw [← Option.some.inj h]
          exact ⟨hloan, hactive, haccrue, eq_false_of_ne_true hempty, rfl, rfl, rfl⟩
    · cases h

end World

namespace RunTerms

variable {t : RunTerms} {id : LoanId} {w : World} {i : Nat} {r : Reading} {c : Cancellation}

private theorem accrueOnce_of_none (h : w.attempt? r id = none) :
    (r.terms.accrueOnce id (r.rowsOf id) w.books).1 = w.books := by
  simp only [World.attempt?] at h
  rw [RunTerms.accrueOnce_eq]
  cases hloan : w.books.ledger.loans.find? id with
  | none => rfl
  | some loan =>
    rw [hloan] at h
    dsimp only at h ⊢
    split
    · next hactive =>
      rw [if_pos hactive] at h
      split
      · rfl
      · next result haccrue =>
        rw [haccrue] at h
        dsimp only at h
        split at h
        · next hempty => rw [conclude, if_pos hempty]
        · cases h
    · rfl

private theorem accrueOnce_of_some {a : Attempt} (h : w.attempt? r id = some a) :
    (r.terms.accrueOnce id (r.rowsOf id) w.books).1 =
      match ({ w.books with nextId := w.books.nextId + a.result.postings.length } : Books).commit
        a.toCommit with
      | (books, .error _) => books
      | (books, .ok _) => { books with events := books.events ++ a.result.events a.loanId } := by
  obtain ⟨hloan, hactive, haccrue, hempty, -, hid, -⟩ := World.attempt?_eq_some h
  rw [RunTerms.accrueOnce_eq, hloan]
  dsimp only
  rw [if_pos hactive, haccrue]
  dsimp only
  rw [conclude, hempty, if_neg Bool.false_ne_true]
  simp only [Attempt.toCommit]
  rw [hid]
  generalize Books.commit _ _ = committed
  obtain ⟨books, outcome⟩ := committed
  cases outcome with
  | error f => rfl
  | ok v =>
    dsimp only
    cases Money.sum (a.result.postings.map (·.transaction.amount)) <;> rfl

/-- An attempt at a loan loads it and commits at once. -/
theorem accrueOnce_eq_after (hi : w.readings[i]? = some r) (id : LoanId) :
    (r.terms.accrueOnce id (r.rowsOf id) w.books).1 =
      (w.after [.load i id, .commit w.attempts.length]).books := by
  rw [World.after_cons, World.after_cons, World.after_nil]
  simp only [World.perform]
  cases hattempt : w.attempt? r id with
  | none =>
    have hload : w.load i id = w := by
      simp only [World.load]
      rw [hi, Option.bind_some, hattempt]
    have hcommit : w.commit w.attempts.length = w := by
      simp only [World.commit]
      rw [List.getElem?_eq_none (Nat.le_refl _)]
    rw [accrueOnce_of_none hattempt, hload, hcommit]
  | some a =>
    have hload : w.load i id = { w with
        books := { w.books with nextId := w.books.nextId + a.result.postings.length }
        attempts := w.attempts ++ [a] } := by
      simp only [World.load]
      rw [hi, Option.bind_some, hattempt]
    rw [accrueOnce_of_some hattempt, hload]
    simp only [World.commit]
    rw [List.getElem?_concat_length]
    dsimp only
    generalize Books.commit _ _ = committed
    obtain ⟨books, outcome⟩ := committed
    cases outcome <;> rfl

/-- The attempts at a loan are steps of a world, the later ones on rows that were read again. -/
theorem accrueLoan_eq_after (tries attempt : Nat) (hi : w.readings[i]? = some r) (id : LoanId) :
    ∃ steps, (r.terms.accrueLoan id tries attempt (r.rowsOf id) w.books).1 =
      (w.after steps).books := by
  induction tries using Nat.strong_induction_on generalizing w i r attempt with
  | _ tries ih =>
    have honce := accrueOnce_eq_after hi id
    rcases hattempt : r.terms.accrueOnce id (r.rowsOf id) w.books with ⟨st₁, x₁⟩
    rcases hturn : r.terms.accrueLoan id tries attempt (r.rowsOf id) w.books with ⟨st', x⟩
    rw [hattempt] at honce
    rcases accrueLoan_cases hattempt hturn with ⟨rfl, -⟩ | ⟨f, n, -, -, rfl, hrest⟩
    · exact ⟨_, honce⟩
    · -- the loan is read again, and this reading is what the next attempt uses
      obtain ⟨mid, hmid⟩ : ∃ mid, mid = w.after [.load i id, .commit w.attempts.length] := ⟨_, rfl⟩
      rw [← hmid] at honce
      obtain ⟨again, hagain⟩ : ∃ again : Reading, again = ⟨r.terms, some id,
          mid.books.ledger.candidates (some id) r.terms.mode r.terms.today⟩ := ⟨_, rfl⟩
      have hread : (mid.perform (.read r.terms (some id))).readings[mid.readings.length]? =
          some again := by
        rw [hagain]
        exact List.getElem?_concat_length ..
      obtain ⟨steps, hsteps⟩ := ih n (Nat.lt_succ_self n) (attempt + 1) hread
      refine ⟨[.load i id, .commit w.attempts.length, .read r.terms (some id)] ++ steps, ?_⟩
      have hafter : w.after [.load i id, .commit w.attempts.length, .read r.terms (some id)] =
          mid.perform (.read r.terms (some id)) := by
        rw [hmid]
        rfl
      have hbooks : (mid.perform (.read r.terms (some id))).books = st₁ := honce.symm
      have hrows : again.rowsOf id =
          st₁.ledger.candidates (some id) r.terms.mode r.terms.today := by
        rw [hagain, Reading.rowsOf, ← hbooks]
        rfl
      have hterms : again.terms = r.terms := by rw [hagain]
      rw [hbooks, hrows, hterms, hrest] at hsteps
      rw [World.after_append, hafter]
      exact hsteps

private theorem accrueGroups_eq_after {groups : List (LoanId × List ScheduleRow)}
    (summary : RunSummary) (hi : w.readings[i]? = some r)
    (hgroups : ∀ group ∈ groups, group.2 = r.rowsOf group.1) : ∃ steps,
      (r.terms.accrueGroups c groups summary w.books).1 = (w.after steps).books := by
  induction groups generalizing w summary with
  | nil => exact ⟨[], rfl⟩
  | cons group groups ih =>
    obtain ⟨id, rows⟩ := group
    obtain ⟨hrows, hgroups⟩ := List.forall_mem_cons.mp hgroups
    have hrows : rows = r.rowsOf id := hrows
    rcases hrun : r.terms.accrueGroups c ((id, rows) :: groups) summary w.books with ⟨st', x⟩
    rcases accrueGroups_cons_cases hrun with ⟨-, hskip⟩ | ⟨books, y, -, hturn, hends⟩
    · obtain ⟨steps, hsteps⟩ := ih (summary.skip id) hi hgroups
      rw [hskip] at hsteps
      exact ⟨steps, hsteps⟩
    · obtain ⟨steps, hsteps⟩ :=
        accrueLoan_eq_after (r.terms.settings.retry.maxAttempts.toNat - 1) 1 hi id
      rw [← hrows, hturn] at hsteps
      obtain rfl : books = (w.after steps).books := hsteps
      rcases hends with ⟨f, -, rfl, -⟩ | ⟨o, -, hrest⟩
      · exact ⟨steps, rfl⟩
      · obtain ⟨steps', hsteps'⟩ :=
          ih (summary.record o) (World.getElem?_readings_after hi steps) hgroups
        rw [hrest] at hsteps'
        exact ⟨steps ++ steps', by rw [World.after_append]; exact hsteps'⟩

end RunTerms

namespace Batch

variable {b : Batch} {mode : RunMode} {today : Date} {s : Settings} {w : World}

/-- A run over rows that were read for all loans is made of steps. -/
theorem runRows_eq_after {i : Nat} {r : Reading} (hs : b.settings = .ok s)
    (hi : w.readings[i]? = some r) (hterms : r.terms = ⟨s, mode, today⟩) (hall : r.only = none)
    (c : Cancellation) : ∃ steps,
      (b.run mode today (some r.rows) c w.books).books = (w.after steps).books := by
  have hgroups : ∀ group ∈ groupByLoan r.rows, group.2 = r.rowsOf group.1 := by
    intro group hgroup
    simp only [Reading.rowsOf]
    rw [hall]
    exact (grouped_groupByLoan r.rows).rows_eq group hgroup
  obtain ⟨steps, hsteps⟩ := RunTerms.accrueGroups_eq_after (c := c) .empty hi hgroups
  refine ⟨steps, ?_⟩
  rw [← hsteps, hterms]
  exact (run_eq hs mode today (some r.rows) c w.books).1

/-- A run is made of steps: it reads all candidate rows first. -/
theorem run_eq_after (hs : b.settings = .ok s) (w : World) (c : Cancellation) : ∃ steps,
    (b.run mode today none c w.books).books = (w.after steps).books := by
  obtain ⟨terms, hterms⟩ : ∃ terms : RunTerms, terms = ⟨s, mode, today⟩ := ⟨_, rfl⟩
  have hread : (w.perform (.read terms none)).readings[w.readings.length]? =
      some ⟨terms, none, w.books.ledger.candidates none terms.mode terms.today⟩ :=
    List.getElem?_concat_length ..
  obtain ⟨steps, hsteps⟩ := runRows_eq_after hs hread hterms rfl c
  refine ⟨.read terms none :: steps, ?_⟩
  rw [World.after_cons, ← hsteps, hterms]
  rfl

end Batch
end LoanLedger
