import LoanLedger.Identity
import LoanLedger.Terms
import LoanLedger.Money.Arithmetic

/-!
Repayment schedules: the rows that income accrues on, the interest that was waived on them, the
schedule as it was first issued, and the live installments with what has been paid on them.
-/

set_option autoImplicit false
set_option relaxedAutoImplicit false

namespace LoanLedger

/-- One installment of a loan with the income it earns and what has been accrued of it so far. -/
structure ScheduleRow where
  loanId : LoanId
  officeId : Int64
  productId : Int64
  rowId : RowId
  installment : InstallmentNumber
  fromDate : Date
  dueDate : Date
  /-- How far the loan had been accrued when the row was read. -/
  accruedTill : Option Date
  interestFrom : Option Date
  interestIncome : Option Money
  accruedInterest : Option Money
  accruedFee : Option Money
  accruedPenalty : Option Money
  waivedInterest : Option Money
  creditedFee : Option Money
  creditedPenalty : Option Money
  currency : Currency
  deriving DecidableEq, Repr

namespace ScheduleRow

/-- The first day that bears interest by the terms of the loan, at `limit` at the latest. -/
def interestStartBy (row : ScheduleRow) (limit : Date) : Date :=
  match row.interestFrom with
  | some start => if row.fromDate < start then start.min limit else row.fromDate
  | none => row.fromDate

/-- The start of the interest-bearing part of the period. -/
def interestStart (row : ScheduleRow) : Date := row.interestStartBy row.dueDate

/-- Whether interest was waived on the row. -/
def hasWaivedInterest (row : ScheduleRow) : Bool := row.waivedInterest.isSome

end ScheduleRow

/-- A closed range of dates that an accrual covers. -/
structure Window where
  start : Date
  finish : Date
  deriving DecidableEq, Repr

/-- The whole period of a row. -/
def ScheduleRow.period (row : ScheduleRow) : Window := ⟨row.fromDate, row.dueDate⟩

/-- Interest that was waived on a period. -/
structure WaivedPeriod where
  dueDate : Date
  waived : Money
  deriving DecidableEq, Repr

/-- A waiver of interest, recorded for the loan as a whole: the part that had been recognized as
income and the part that never was. -/
structure InterestWaiver where
  date : Date
  recognized : Money
  unrecognized : Money
  deriving DecidableEq, Repr

/-- A period of the schedule as it was first issued. -/
structure IssuedPeriod where
  loanId : LoanId
  dueDate : Date
  principal : Money
  interest : Money
  fee : Money
  penalty : Money
  deriving DecidableEq, Repr

/-- What is due on one component of an installment, and how much of it is settled. -/
structure Component where
  due : Money
  paid : Money
  waived : Money
  writtenOff : Money
  deriving DecidableEq, Repr, Inhabited

namespace Component

/-- A component with nothing settled yet. -/
def ofDue (due : Money) : Component := ⟨due, .zero, .zero, .zero⟩

/-- What remains due; too large a payment counts for nothing elsewhere. -/
def outstanding (c : Component) : Except Fault Money := do
  c.due.monus (← (← c.paid.add c.waived).add c.writtenOff)

end Component

/-- An installment of the live schedule. -/
structure Installment where
  number : InstallmentNumber
  fromDate : Date
  dueDate : Date
  principal : Component
  interest : Component
  fee : Component
  penalty : Component
  deriving DecidableEq, Repr

namespace Installment

/-- What remains due on all components together. -/
def outstanding (i : Installment) : Except Fault Money := do
  let principalAndInterest ← (← i.principal.outstanding).add (← i.interest.outstanding)
  (← principalAndInterest.add (← i.fee.outstanding)).add (← i.penalty.outstanding)

/-- Whether nothing remains due. -/
def isSettled (i : Installment) : Except Fault Bool := return (← i.outstanding).isZero

end Installment

/-- What has been repaid on a loan over its whole life. -/
structure RepaymentTotals where
  loanId : LoanId
  principalPaid : Money
  principalWrittenOff : Money
  interestPaid : Money
  interestWaived : Money
  feePaid : Money
  feeWaived : Money
  penaltyPaid : Money
  penaltyWaived : Money
  deriving DecidableEq, Repr

/-- Nothing repaid yet. -/
def RepaymentTotals.none (loanId : LoanId) : RepaymentTotals :=
  ⟨loanId, .zero, .zero, .zero, .zero, .zero, .zero, .zero, .zero⟩

end LoanLedger
