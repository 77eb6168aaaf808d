import LoanLedger.Charge.Apportionment
import LoanLedger.Interest
import LoanLedger.Settings

/-!
Accrual postings. From the income that a window brings to a row, what has accrued already and what
was credited are taken off; where anything positive is left, a posting carries one transaction, the
charges it consumes and the new totals of the row.
-/

set_option autoImplicit false
set_option relaxedAutoImplicit false

namespace LoanLedger

/-- The income of one window of a row. -/
structure PreparedAccrual where
  row : ScheduleRow
  charges : Apportionment
  interest : ReconciledInterest
  deriving DecidableEq, Repr

/-- An accrual transaction. -/
structure Accrual where
  id : TransactionId
  loanId : LoanId
  officeId : Int64
  date : Date
  submittedOn : Date
  amount : Money
  interest : Option Money
  fee : Option Money
  penalty : Option Money
  currency : Currency
  deriving DecidableEq, Repr

/-- A charge consumed by an accrual transaction. -/
structure ChargePayment where
  transactionId : TransactionId
  chargeId : ChargeId
  amount : Money
  installment : InstallmentNumber
  deriving DecidableEq, Repr

/-- The new accrued totals of a row. -/
structure RowTotals where
  rowId : RowId
  installment : InstallmentNumber
  interest : Option Money
  fee : Option Money
  penalty : Option Money
  deriving DecidableEq, Repr

/-- All that one accrual writes for a row. -/
structure Posting where
  transaction : Accrual
  payments : List ChargePayment
  allocations : List Allocation
  totals : RowTotals
  accruedTill : Date
  deriving DecidableEq, Repr

/-- What accrues on one component, unless it is zero, and the total it leads to. -/
structure Portion where
  delta : Option Money
  total : Option Money
  deriving DecidableEq, Repr

/-- What is missing from the accrued and credited amounts to a target; without a target nothing
accrues and the total stays. -/
def Portion.towards (target accrued credited : Option Money) : Except Fault Portion :=
  match target with
  | none => .ok ⟨none, accrued⟩
  | some target => do
    let accrued := Money.orZero accrued
    let delta ← target.monus (← accrued.add (Money.orZero credited))
    return ⟨delta.nonZero, some (← accrued.add delta)⟩

namespace PreparedAccrual

/-- The three portions of an accrual: interest, fees and penalties. -/
structure Portions where
  interest : Portion
  fee : Portion
  penalty : Portion
  deriving DecidableEq, Repr

/-- The portions that lead to a given interest and to the income from charges at the precision of
the currency. -/
def portions (p : PreparedAccrual) (rounding : RoundingMode) (interest : Option Money) :
    Except Fault Portions := do
  let row := p.row
  let rounded (income : Option Money) := income.map fun m => m.round row.currency rounding
  return {
    interest := ← Portion.towards interest row.accruedInterest none
    fee := ← Portion.towards (rounded p.charges.feeIncome) row.accruedFee row.creditedFee
    penalty := ← Portion.towards (rounded p.charges.penaltyIncome) row.accruedPenalty row.creditedPenalty }

/-- The posting of the given portions, when together they are positive. -/
def post (p : PreparedAccrual) (id : TransactionId) (parts : Portions)
    (postedOn accruedTill processedOn : Date) : Except Fault (Option Posting) := do
  let row := p.row
  let amount ← (← (Money.orZero parts.interest.delta).add (Money.orZero parts.fee.delta)).add
    (Money.orZero parts.penalty.delta)
  if !amount.isPositive then return none
  return some {
    transaction := {
      id
      loanId := row.loanId
      officeId := row.officeId
      date := postedOn
      submittedOn := processedOn
      amount
      interest := parts.interest.delta
      fee := parts.fee.delta
      penalty := parts.penalty.delta
      currency := row.currency }
    payments := p.charges.allocations.map fun a => ⟨id, a.chargeId, a.amount, row.installment⟩
    allocations := p.charges.allocations
    totals := {
      rowId := row.rowId
      installment := row.installment
      interest := parts.interest.total
      fee := parts.fee.total
      penalty := parts.penalty.total }
    accruedTill }

/-- Accrue the whole period of a row. Under the due-date policy it is posted on the due date, else
on the day of processing. -/
def postPeriod (p : PreparedAccrual) (s : Settings) (id : TransactionId) (processedOn : Date) :
    Except Fault (Option Posting) := do
  let row := p.row
  let interest := p.interest.accruable.map fun m => m.round row.currency s.rounding
  let postedOn := match s.policy with
    | .dueDate => row.dueDate
    | .submittedDate => processedOn
  p.post id (← p.portions s.rounding interest) postedOn row.dueDate processedOn

/-- The interest of a row for the days until `till`, out of the days of the interest-bearing part
of its period. -/
def interestTill (p : PreparedAccrual) (rounding : RoundingMode) (till : Date) :
    Except Fault (Option Money) :=
  let row := p.row
  match p.interest.accruable with
  | none => .ok none
  | some income => do
    let share ← income.prorate ((row.interestStartBy till).daysUntil till)
      (row.interestStart.daysUntil row.dueDate)
    return some (share.round row.currency rounding)

/-- Accrue a row up to a date before its due date. -/
def postTill (p : PreparedAccrual) (s : Settings) (id : TransactionId) (till processedOn : Date) :
    Except Fault (Option Posting) := do
  let interest ← p.interestTill s.rounding till
  p.post id (← p.portions s.rounding interest) till till processedOn

end PreparedAccrual
end LoanLedger
