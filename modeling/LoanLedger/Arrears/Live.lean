import LoanLedger.Arrears.Basic
import LoanLedger.Schedule

/-!
Arrears from the live schedule: what is outstanding on the installments due before a date.
-/

set_option autoImplicit false
set_option relaxedAutoImplicit false

namespace LoanLedger.Arrears

/-- Running totals over installments, with the earliest due date of an unsettled one. -/
structure LiveTally where
  totals : OverdueTotals
  since : Date
  deriving Repr

/-- Add one overdue installment. -/
def LiveTally.include (t : LiveTally) (i : Installment) : Except Fault LiveTally := do
  let totals : OverdueTotals := {
    principal := ← t.totals.principal.add (← i.principal.outstanding)
    interest := ← t.totals.interest.add (← i.interest.outstanding)
    fee := ← t.totals.fee.add (← i.fee.outstanding)
    penalty := ← t.totals.penalty.add (← i.penalty.outstanding) }
  let settled ← i.isSettled
  return ⟨totals, if !settled && i.dueDate < t.since then i.dueDate else t.since⟩

/-- The arrears of a loan as of a business date. -/
def ofInstallments (loan : LoanId) (installments : List Installment) (today : Date) :
    Except Fault (Option Arrears) := do
  let overdue := installments.filter fun i => i.dueDate < today
  let t ← overdue.foldlM LiveTally.include ⟨.none, today⟩
  t.totals.toArrears loan t.since

end LoanLedger.Arrears
