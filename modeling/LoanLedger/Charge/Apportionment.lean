import LoanLedger.Charge.Basic

/-!
Apportionment: which charges fall into the window of an accrual, the income they bring to it, and
how much of each is new. Income counts all that the selected charges can accrue; an allocation
holds what has not accrued yet.
-/

set_option autoImplicit false
set_option relaxedAutoImplicit false

namespace LoanLedger

/-- The newly accrued amount of one charge; from an installment fee, of the share it names. -/
structure Allocation where
  chargeId : ChargeId
  kind : ChargeKind
  isPenalty : Bool
  amount : Money
  installment : Option InstallmentNumber
  deriving DecidableEq, Repr

/-- The income that charges bring to a window, and the new allocations in charge order. -/
structure Apportionment where
  allocations : List Allocation
  feeIncome : Option Money
  penaltyIncome : Option Money
  deriving DecidableEq, Repr, Inhabited

namespace Apportionment

/-- No charges at all. -/
def empty : Apportionment := ⟨[], none, none⟩

/-- The sum of the allocations. -/
def allocated (a : Apportionment) : Except Fault Money := Money.sum (a.allocations.map (·.amount))

/-- The allocation of a charge; of several the first. -/
def allocationFor? (a : Apportionment) (id : ChargeId) : Option Allocation :=
  a.allocations.find? fun x => x.chargeId == id

/-- A share after `x` has accrued on its charge. -/
def advanceShare (x : Allocation) (s : ChargeShare) : Except Fault ChargeShare :=
  if x.installment = some s.installment then
    return { s with accruedSoFar := some (← s.accrued.add x.amount) }
  else .ok s

/-- A charge after its allocation has accrued. -/
def advance (a : Apportionment) (c : Charge) : Except Fault Charge :=
  match a.allocationFor? c.id with
  | none => .ok c
  | some x => do
    let accrued ← c.accrued.add x.amount
    let shares ← c.shares.mapM (advanceShare x)
    return { c with accruedSoFar := some accrued, shares }

/-- Charges after the allocations have accrued. -/
def applyTo (a : Apportionment) (cs : List Charge) : Except Fault (List Charge) :=
  cs.mapM a.advance

end Apportionment

namespace Charge

/-- Due after the start of the window and by its end; on the first installment also at the start. -/
def dueWithin (due : Date) (row : ScheduleRow) (w : Window) : Bool :=
  ((row.installment = 1 && due = w.start) || w.start < due) && due ≤ w.finish

/-- Submitted by the end of the window, and due after its start but by the due date of the row; on
the first installment also when submitted and due at the start. -/
def submittedWithin (c : Charge) (due : Date) (row : ScheduleRow) (w : Window) : Bool :=
  ((row.installment = 1 && w.start = c.submittedOn && w.start = due) || w.start < due)
    && c.submittedOn ≤ w.finish && due ≤ row.dueDate

/-- Whether a charge with a due date is selected. -/
def selected (policy : ChargePolicy) (c : Charge) (due : Date) (row : ScheduleRow) (w : Window) :
    Bool :=
  match policy with
  | .dueDate => dueWithin due row w
  | .submittedDate => c.submittedWithin due row w

/-- What is left to accrue, when that is a positive amount. -/
def newlyAccruable (accruable accrued : Money) : Except Fault (Option Money) :=
  if !accruable.isPositive || accruable ≈ accrued then .ok none
  else do
    let delta ← accruable.sub accrued
    return if delta.isNegative then none else some delta

/-- The income of a charge with the given accruable and accrued amounts, and its allocation. -/
def contribution (c : Charge) (installment : Option InstallmentNumber)
    (accruable accrued : Money) : Except Fault (Money × Option Allocation) := do
  let delta ← newlyAccruable accruable accrued
  return (accruable, delta.map fun d => ⟨c.id, c.kind, c.isPenalty, d, installment⟩)

/-- What a charge brings to a window. An installment fee is recognized on the due date of its
installment only. -/
def contributionTo (policy : ChargePolicy) (row : ScheduleRow) (w : Window) (c : Charge) :
    Except Fault (Money × Option Allocation) :=
  match c.dueDate with
  | some due =>
    if c.selected policy due row w then do
      c.contribution none (← c.accruable) c.accrued
    else .ok (.zero, none)
  | none =>
    if !c.isInstallmentFee || w.finish ≠ row.dueDate then .ok (.zero, none)
    else
      match c.share? row.installment with
      | none => .ok (.zero, none)
      | some s => do c.contribution (some s.installment) (← s.accruable) s.accrued

end Charge

namespace Apportionment

/-- Running totals while charges are apportioned. -/
structure Tally where
  allocations : List Allocation
  fee : Money
  penalty : Money
  deriving Repr

/-- Add one charge to the totals. -/
def Tally.include (policy : ChargePolicy) (row : ScheduleRow) (w : Window) (t : Tally)
    (c : Charge) : Except Fault Tally := do
  let (income, allocation) ← c.contributionTo policy row w
  let allocations := t.allocations ++ allocation.toList
  if c.isPenalty then return { t with allocations, penalty := ← t.penalty.add income }
  else return { t with allocations, fee := ← t.fee.add income }

/-- Apportion charges over the window of a row. -/
def ofCharges (policy : ChargePolicy) (row : ScheduleRow) (w : Window) (cs : List Charge) :
    Except Fault Apportionment := do
  let t ← cs.foldlM (Tally.include policy row w) ⟨[], .zero, .zero⟩
  return ⟨t.allocations, t.fee.nonZero, t.penalty.nonZero⟩

end Apportionment
end LoanLedger
