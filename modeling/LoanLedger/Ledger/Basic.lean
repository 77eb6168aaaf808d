import LoanLedger.Accrual.Loan
import LoanLedger.Arrears.Basic
import LoanLedger.Ledger.Table

/-!
The ledger: loans with their schedules and charges, the accrual transactions and charge payments
written so far, and the arrears rows. It is read by the accrual and arrears computations.
-/

set_option autoImplicit false
set_option relaxedAutoImplicit false

namespace LoanLedger

/-- A loan as the ledger holds it. Every write of accruals raises its version. -/
structure Loan where
  id : LoanId
  status : LoanStatus
  version : UInt64
  accruedTill : Option Date
  schedule : List ScheduleRow
  charges : List Charge
  waivedPeriods : List WaivedPeriod
  waivers : List InterestWaiver
  profile : AgeingProfile
  installments : List Installment
  issuedSchedule : List IssuedPeriod
  repayments : RepaymentTotals
  deriving DecidableEq, Repr

namespace Loan

/-- A loan with nothing on it. -/
def blank (id : LoanId) (status : LoanStatus) : Loan :=
  { id, status
    version := 1
    accruedTill := none
    schedule := []
    charges := []
    waivedPeriods := []
    waivers := []
    profile := .plain id status
    installments := []
    issuedSchedule := []
    repayments := .none id }

/-- The version after the present one. -/
def nextVersion (loan : Loan) : Except Fault UInt64 :=
  if loan.version.toNat + 1 < UInt64.size then .ok (loan.version + 1) else .error .countOverflow

/-- The schedule row of an installment; of several the first. -/
def row? (loan : Loan) (n : InstallmentNumber) : Option ScheduleRow :=
  loan.schedule.find? fun row => row.installment == n

end Loan

/-- The state of a loan at the start of an attempt to accrue it. -/
structure LoanSnapshot where
  loanId : LoanId
  version : UInt64
  status : LoanStatus
  charges : List Charge
  waivedPeriods : List WaivedPeriod
  waivers : List InterestWaiver
  deriving DecidableEq, Repr

/-- The snapshot together with the candidate rows to accrue. -/
def LoanSnapshot.withCandidates (s : LoanSnapshot) (candidates : List ScheduleRow) :
    AccrualInput :=
  ⟨s.loanId, candidates, s.charges, s.waivedPeriods, s.waivers⟩

/-- The ledger. `conflicts` counts, by loan, the commits that another writer is going to come
before; `issuedReads` counts the reads of issued schedules. -/
structure Ledger where
  loans : Table Loan
  transactions : List Accrual
  payments : List ChargePayment
  arrears : Table Arrears
  conflicts : Table UInt32
  issuedReads : Nat
  deriving Repr

namespace Ledger

/-- A ledger without loans. -/
def empty : Ledger := ⟨.empty, [], [], .empty, .empty, 0⟩

instance : Inhabited Ledger := ⟨empty⟩

/-- Put a loan, in place of one with the same number. -/
def putLoan (g : Ledger) (loan : Loan) : Ledger := { g with loans := g.loans.insert loan.id loan }

/-- The loan with a number, which must exist. -/
def loan (g : Ledger) (id : LoanId) : Except Refusal Loan :=
  match g.loans.find? id with
  | some loan => .ok loan
  | none => .error (.loanNotFound id)

/-- Let another writer come before the next `count` commits of a loan. -/
def expectConflicts (g : Ledger) (id : LoanId) (count : UInt32) : Ledger :=
  { g with conflicts := g.conflicts.insert id count }

/-- Whether a row is a candidate: due by the business date, or begun before the till date. -/
def isCandidate (mode : RunMode) (today : Date) (row : ScheduleRow) : Bool :=
  match mode with
  | .asOfToday => row.dueDate ≤ today
  | .tillDate till => row.fromDate < till || row.dueDate ≤ till

/-- The candidate rows of one loan, which must be active; they carry the date it is accrued to. -/
def candidatesOf (mode : RunMode) (today : Date) (loan : Loan) : List ScheduleRow :=
  if loan.status.isActive then
    (loan.schedule.filter (isCandidate mode today)).map fun row =>
      { row with accruedTill := loan.accruedTill }
  else []

/-- The candidate rows of all loans, or of one, loan by loan. -/
def candidates (g : Ledger) (only : Option LoanId) (mode : RunMode) (today : Date) :
    List ScheduleRow :=
  let wanted (loan : Loan) : Bool :=
    match only with
    | none => true
    | some id => id == loan.id
  (g.loans.values.filter wanted).flatMap (candidatesOf mode today)

/-- The state of a loan as an attempt to accrue it reads it. -/
def snapshot (g : Ledger) (id : LoanId) : Except Refusal LoanSnapshot := do
  let loan ← g.loan id
  return ⟨id, loan.version, loan.status, loan.charges, loan.waivedPeriods, loan.waivers⟩

/-- The transactions of one loan. -/
def transactionsFor (g : Ledger) (id : LoanId) : List Accrual :=
  g.transactions.filter fun t => t.loanId == id

/-- The ageing profile of a loan, with its present status. -/
def profile (g : Ledger) (id : LoanId) : Except Refusal AgeingProfile := do
  let loan ← g.loan id
  return { loan.profile with status := loan.status }

/-- The live schedule of a loan. -/
def installments (g : Ledger) (id : LoanId) : Except Refusal (List Installment) :=
  return (← g.loan id).installments

/-- What has been repaid on a loan. -/
def repayments (g : Ledger) (id : LoanId) : Except Refusal RepaymentTotals :=
  return (← g.loan id).repayments

/-- Whether one period comes before another: by loan, then by due date. -/
def periodLe (a b : IssuedPeriod) : Bool :=
  a.loanId < b.loanId || (a.loanId = b.loanId && a.dueDate ≤ b.dueDate)

/-- The issued schedules of several loans, by loan and due date. -/
def issuedPeriods (g : Ledger) (ids : List LoanId) : List IssuedPeriod :=
  let chosen := g.loans.values.filter fun loan => ids.contains loan.id
  (chosen.flatMap (·.issuedSchedule)).mergeSort periodLe

/-- Read the issued schedules of several loans at once. -/
def readIssued (g : Ledger) (ids : List LoanId) : List IssuedPeriod × Ledger :=
  (g.issuedPeriods ids, { g with issuedReads := g.issuedReads + 1 })

/-- The arrears row of a loan. -/
def arrearsOf? (g : Ledger) (id : LoanId) : Option Arrears := g.arrears.find? id

/-- Write a change of arrears. An insertion needs a loan without a row, an update one with a row. -/
def applyArrears (g : Ledger) : ArrearsChange → Except Refusal Ledger
  | .insert row =>
    if g.arrears.contains row.loanId then
      .error (.storage s!"arrears row for loan {row.loanId} already exists")
    else .ok { g with arrears := g.arrears.insert row.loanId row }
  | .update row =>
    if g.arrears.contains row.loanId then
      .ok { g with arrears := g.arrears.insert row.loanId row }
    else .error (.storage s!"no arrears row to update for loan {row.loanId}")
  | .delete id => .ok { g with arrears := g.arrears.erase id }

end Ledger
end LoanLedger
