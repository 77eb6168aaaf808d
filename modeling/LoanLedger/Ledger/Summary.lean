import LoanLedger.Error
import LoanLedger.Schedule

/-!
What a run did, loan by loan. A run in which any loan failed fails as a whole at its end.
-/

set_option autoImplicit false
set_option relaxedAutoImplicit false

namespace LoanLedger

/-- What a run did for one loan. -/
structure LoanSummary where
  loanId : LoanId
  transactions : Nat
  amount : Money
  accruedTill : Option Date
  attempts : Nat
  deriving DecidableEq, Repr

/-- Nothing was posted for a loan. -/
def LoanSummary.nothing (id : LoanId) : LoanSummary := ⟨id, 0, .zero, none, 0⟩

/-- The outcome for one loan. -/
inductive LoanOutcome
  | succeeded (s : LoanSummary)
  | failed (loan : LoanId) (r : Refusal)
  deriving DecidableEq, Repr

/-- The outcomes of a run, and the loans that it left out because it was to stop. -/
structure RunSummary where
  succeeded : List LoanSummary
  failed : List (LoanId × Refusal)
  notAttempted : List LoanId
  deriving DecidableEq, Repr

namespace RunSummary

/-- No outcomes yet. -/
def empty : RunSummary := ⟨[], [], []⟩

instance : Inhabited RunSummary := ⟨empty⟩

/-- Add the outcome for one loan. -/
def record (s : RunSummary) : LoanOutcome → RunSummary
  | .succeeded l => { s with succeeded := s.succeeded ++ [l] }
  | .failed loan r => { s with failed := s.failed ++ [(loan, r)] }

/-- Leave out a loan. -/
def skip (s : RunSummary) (id : LoanId) : RunSummary :=
  { s with notAttempted := s.notAttempted ++ [id] }

/-- Whether no loan failed. -/
def isSuccess (s : RunSummary) : Bool := s.failed.isEmpty

/-- The number of transactions posted, which is counted in 64 bits. -/
def transactions (s : RunSummary) : Except Fault Nat :=
  let n := s.succeeded.foldl (fun n o => n + o.transactions) 0
  if n < UInt64.size then .ok n else .error .countOverflow

/-- The loans that failed. -/
def failedLoans (s : RunSummary) : List LoanId := s.failed.map (·.1)

/-- The summary, or the failure of the run. -/
def result (s : RunSummary) : Except Refusal RunSummary :=
  if s.isSuccess then .ok s
  else .error (.runFailed s.failed.length
    (s.failed.map fun (loan, r) => s!"loan {loan}: " ++ r.message))

end RunSummary

/-- Add a row to the group of its loan, which is opened at the end when there is none. -/
def addToGroup (row : ScheduleRow) :
    List (LoanId × List ScheduleRow) → List (LoanId × List ScheduleRow)
  | [] => [(row.loanId, [row])]
  | (loan, rows) :: rest =>
    if loan = row.loanId then (loan, rows ++ [row]) :: rest
    else (loan, rows) :: addToGroup row rest

/-- Group rows by loan: loans in the order they are first seen, rows in their own order. -/
def groupByLoan (rows : List ScheduleRow) : List (LoanId × List ScheduleRow) :=
  rows.foldl (fun groups row => addToGroup row groups) []

end LoanLedger
