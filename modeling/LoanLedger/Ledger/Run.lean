import LoanLedger.Ledger.Commit
import LoanLedger.Ledger.Summary

/-!
Accrual runs. Candidate rows are grouped by loan, and every loan is accrued, committed and announced
on its own: a refusal is recorded and the run goes on, a conflicting commit is tried again on fresh
rows, and an arithmetic fault ends the run with what was written until then.
-/

set_option autoImplicit false
set_option relaxedAutoImplicit false

namespace LoanLedger

/-- All that a run writes: the ledger, the journal, the announcements, and the number of the next
transaction. -/
structure Books where
  ledger : Ledger
  journal : Journal
  events : List Event
  nextId : Nat
  deriving Repr

namespace Books

/-- Books without entries. -/
def empty : Books := ⟨.empty, .empty, [], 0⟩

instance : Inhabited Books := ⟨empty⟩

/-- Commit the results of one loan. -/
def commit (b : Books) (c : Commit) : Books × Except Failure UInt64 :=
  match b.ledger.commit b.journal c with
  | ((ledger, journal), r) => ({ b with ledger, journal }, r)

/-- The announcements that were made about a loan. -/
def eventsFor (b : Books) (id : LoanId) : List Event := b.events.filter fun e => e.loanId == id

end Books

/-- What the flag that stops a run reads each time the run comes to a loan. Whoever holds the flag
may raise it at any moment, so the readings are not determined by what the run does. -/
structure Cancellation where
  requestedBefore : LoanId → Bool

/-- The readings of a flag that nobody raises. -/
def Cancellation.never : Cancellation := ⟨fun _ => false⟩

/-- Make announcements. -/
def Books.announce (b : Books) (es : List Event) : Books := { b with events := b.events ++ es }

/-- The announcements of a committed result. -/
def AccrualResult.events (r : AccrualResult) (loan : LoanId) : List Event :=
  r.postings.map (fun p => .accrualCreated loan p.transaction.id p.totals.installment
    p.transaction.amount p.transaction.date) ++
  (r.accruedTill.map (Event.accruedTillAdvanced loan)).toList

/-- What does not change during a run. -/
structure RunTerms where
  settings : Settings
  mode : RunMode
  today : Date
  deriving Repr

namespace RunTerms

/-- Accrue a loan once: read it, compute, commit and announce. A loan that is not active, or has
nothing new, is left alone. -/
def accrueOnce (t : RunTerms) (loan : LoanId) (rows : List ScheduleRow) (st : Books) :
    Books × Except Failure LoanSummary :=
  match st.ledger.snapshot loan with
  | .error r => (st, refuse r)
  | .ok snap =>
    if !snap.status.isActive then (st, .ok (.nothing loan))
    else
      match (snap.withCandidates rows).accrue t.mode t.settings t.today st.nextId with
      | .error f => (st, .error f)
      | .ok result =>
        if result.isEmpty then (st, .ok (.nothing loan))
        else
          let drawn := { st with nextId := st.nextId + result.postings.length }
          match drawn.commit ⟨loan, snap.version, result⟩ with
          | (st, .error f) => (st, .error f)
          | (st, .ok _) =>
            let st := st.announce (result.events loan)
            match Money.sum (result.postings.map (·.transaction.amount)) with
            | .error f => (st, .error (.fault f))
            | .ok amount =>
              (st, .ok ⟨loan, result.postings.length, amount, result.accruedTill, 0⟩)

/-- Accrue a loan, trying a conflicting commit again on fresh rows while tries are left. -/
def accrueLoan (t : RunTerms) (loan : LoanId) : (triesLeft attempt : Nat) → List ScheduleRow →
    Books → Books × Except Failure LoanSummary
  | triesLeft, attempt, rows, st =>
    match t.accrueOnce loan rows st with
    | (st, .ok s) => (st, .ok { s with attempts := attempt })
    | (st, .error (.fault f)) => (st, .error (.fault f))
    | (st, .error (.refusal r)) =>
      if r.isRetryable then
        match triesLeft with
        | 0 => (st, refuse (.retriesExhausted loan attempt))
        | triesLeft + 1 =>
          accrueLoan t loan triesLeft (attempt + 1)
            (st.ledger.candidates (some loan) t.mode t.today) st
      else (st, refuse r)

/-- Accrue loan after loan. A loan before which the flag reads as raised is left out. -/
def accrueGroups (t : RunTerms) (c : Cancellation) :
    List (LoanId × List ScheduleRow) → RunSummary → Books → Books × Except Fault RunSummary
  | [], summary, st => (st, .ok summary)
  | (loan, rows) :: rest, summary, st =>
    if c.requestedBefore loan then accrueGroups t c rest (summary.skip loan) st
    else
      match t.accrueLoan loan (t.settings.retry.maxAttempts.toNat - 1) 1 rows st with
      | (st, .ok s) => accrueGroups t c rest (summary.record (.succeeded s)) st
      | (st, .error (.refusal r)) => accrueGroups t c rest (summary.record (.failed loan r)) st
      | (st, .error (.fault f)) => (st, .error f)

/-- Accrue the loans of the given rows. -/
def accrueRows (t : RunTerms) (c : Cancellation) (rows : List ScheduleRow) (st : Books) :
    Books × Except Failure RunSummary :=
  match t.accrueGroups c (groupByLoan rows) .empty st with
  | (st, .error f) => (st, .error (.fault f))
  | (st, .ok summary) =>
    match summary.result with
    | .ok s => (st, .ok s)
    | .error r => (st, refuse r)

end RunTerms

/-- A batch of accruals: its settings, and the configuration that decides part of them anew at the
start of every run. -/
structure Batch where
  base : Settings
  source : Option Configuration

namespace Batch

/-- The settings of the next run. -/
def settings (b : Batch) : Except Refusal Settings :=
  match b.source with
  | none => .ok b.base
  | some source => Settings.snapshot source b.base

/-- How a run ended: the settings that were in force, the books it left, and its result. -/
structure Ending where
  settings : Settings
  books : Books
  result : Except Failure RunSummary

/-- Accrue the loans of rows that have been read before, or of all candidate rows. -/
def run (b : Batch) (mode : RunMode) (today : Date) (rows : Option (List ScheduleRow))
    (c : Cancellation) (st : Books) : Ending :=
  match b.settings with
  | .error r => ⟨b.base, st, refuse r⟩
  | .ok settings =>
    let rows := rows.getD (st.ledger.candidates none mode today)
    let t : RunTerms := ⟨settings, mode, today⟩
    match t.accrueRows c rows st with
    | (st, result) => ⟨settings, st, result⟩

end Batch
end LoanLedger
