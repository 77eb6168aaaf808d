import LoanLedger.Arrears.Basic
import LoanLedger.Schedule

/-!
Arrears from the schedule as first issued. The repayments of the loan are laid over its periods,
oldest first and component by component; what they do not reach is overdue.
-/

set_option autoImplicit false
set_option relaxedAutoImplicit false

namespace LoanLedger

/-- A period of the issued schedule with the repayments that reach it, and whether they cover every
component. -/
structure CoveredPeriod where
  period : IssuedPeriod
  principal : Money
  interest : Money
  fee : Money
  penalty : Money
  complete : Bool
  deriving DecidableEq, Repr

/-- Repayments that have not reached a period yet, by component. -/
structure RepaymentPools where
  principal : Money
  interest : Money
  fee : Money
  penalty : Money
  deriving DecidableEq, Repr

namespace RepaymentPools

/-- All repayments of a loan; what was written off or waived counts as paid. -/
def ofTotals (t : RepaymentTotals) : Except Fault RepaymentPools :=
  return {
    principal := ← t.principalPaid.add t.principalWrittenOff
    interest := ← t.interestPaid.add t.interestWaived
    fee := ← t.feePaid.add t.feeWaived
    penalty := ← t.penaltyPaid.add t.penaltyWaived }

/-- Take what is due out of a pool: the amount taken, what stays, and whether it was enough. -/
def take (due pool : Money) : Except Fault (Money × Money × Bool) :=
  if pool < due then .ok (pool, .zero, false)
  else return (due, ← pool.sub due, true)

/-- Cover one period, principal first. -/
def cover (p : RepaymentPools) (period : IssuedPeriod) :
    Except Fault (CoveredPeriod × RepaymentPools) := do
  let (principal, principalLeft, principalDone) ← take period.principal p.principal
  let (interest, interestLeft, interestDone) ← take period.interest p.interest
  let (fee, feeLeft, feeDone) ← take period.fee p.fee
  let (penalty, penaltyLeft, penaltyDone) ← take period.penalty p.penalty
  return (
    { period, principal, interest, fee, penalty
      complete := principalDone && interestDone && feeDone && penaltyDone },
    ⟨principalLeft, interestLeft, feeLeft, penaltyLeft⟩)

/-- Cover periods one after the other. -/
def coverAll (p : RepaymentPools) : List IssuedPeriod → Except Fault (List CoveredPeriod)
  | [] => .ok []
  | period :: rest => do
    let (covered, left) ← p.cover period
    return covered :: (← left.coverAll rest)

end RepaymentPools

/-- Lay the repayments of a loan over its issued periods. -/
def CoveredPeriod.ofRepayments (periods : List IssuedPeriod) (t : RepaymentTotals) :
    Except Fault (List CoveredPeriod) := do
  (← RepaymentPools.ofTotals t).coverAll periods

/-- Split periods into runs of one loan; periods come ordered by loan. -/
def IssuedPeriod.groupRuns (periods : List IssuedPeriod) : List (LoanId × List IssuedPeriod) :=
  periods.foldr (fun p groups =>
    match groups with
    | (loan, ps) :: rest =>
      if loan = p.loanId then (loan, p :: ps) :: rest else (p.loanId, [p]) :: groups
    | [] => [(p.loanId, [p])]) []

namespace Arrears

/-- Running totals over periods, with the earliest due date of one that lacks principal. -/
structure IssuedTally where
  totals : OverdueTotals
  since : Date
  deriving Repr

/-- Add one incomplete period. -/
def IssuedTally.include (t : IssuedTally) (c : CoveredPeriod) : Except Fault IssuedTally := do
  let totals : OverdueTotals := {
    principal := ← t.totals.principal.add (← c.period.principal.monus c.principal)
    interest := ← t.totals.interest.add (← c.period.interest.monus c.interest)
    fee := ← t.totals.fee.add (← c.period.fee.monus c.fee)
    penalty := ← t.totals.penalty.add (← c.period.penalty.monus c.penalty) }
  let earlier := c.period.dueDate < t.since && c.principal < c.period.principal
  return ⟨totals, if earlier then c.period.dueDate else t.since⟩

/-- The arrears of a loan over covered periods. -/
def ofCovered (loan : LoanId) (periods : List CoveredPeriod) (today : Date) :
    Except Fault (Option Arrears) := do
  let t ← (periods.filter fun c => !c.complete).foldlM IssuedTally.include ⟨.none, today⟩
  t.totals.toArrears loan t.since

end Arrears
end LoanLedger
