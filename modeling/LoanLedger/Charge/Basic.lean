import LoanLedger.Schedule

/-!
Charges on a loan. A charge falls due on a date of its own, or it is an installment fee that is
spread over the schedule in shares, one per installment.
-/

set_option autoImplicit false
set_option relaxedAutoImplicit false

namespace LoanLedger

/-- The part of an installment fee that belongs to one installment. -/
structure ChargeShare where
  installment : InstallmentNumber
  dueDate : Date
  amount : Money
  paid : Money
  waived : Money
  accruedSoFar : Option Money
  unrecognizedSoFar : Option Money
  deriving DecidableEq, Repr

namespace ChargeShare

/-- A share on which nothing has happened yet. -/
def fresh (installment : InstallmentNumber) (dueDate : Date) (amount : Money) : ChargeShare :=
  ⟨installment, dueDate, amount, .zero, .zero, none, none⟩

/-- The income accrued so far. -/
def accrued (s : ChargeShare) : Money := Money.orZero s.accruedSoFar

/-- What was waived before it was recognized as income. -/
def unrecognized (s : ChargeShare) : Money := Money.orZero s.unrecognizedSoFar

/-- The most that can ever accrue. -/
def accruable (s : ChargeShare) : Except Fault Money := s.amount.sub s.unrecognized

/-- What is neither paid nor waived. -/
def outstanding (s : ChargeShare) : Except Fault Money := do
  s.amount.monus (← s.paid.add s.waived)

/-- Whether the share is settled with the help of a waiver. -/
def isWaived (s : ChargeShare) : Except Fault Bool :=
  if s.waived.isPositive then return (← s.outstanding).isZero else .ok false

/-- Whether the share is settled without being waived. -/
def isPaid (s : ChargeShare) : Except Fault Bool := do
  if ← s.isWaived then return false else return (← s.outstanding).isZero

end ChargeShare

/-- A charge on a loan. -/
structure Charge where
  id : ChargeId
  kind : ChargeKind
  /-- Missing for an installment fee. -/
  dueDate : Option Date
  submittedOn : Date
  amount : Money
  paid : Money
  waived : Money
  adjusted : Money
  accruedSoFar : Option Money
  unrecognizedSoFar : Option Money
  isPenalty : Bool
  isInstallmentFee : Bool
  shares : List ChargeShare
  deriving DecidableEq, Repr

namespace Charge

/-- A charge due on a date, on which nothing has happened yet. -/
def dueOn (id : ChargeId) (kind : ChargeKind) (dueDate submittedOn : Date) (amount : Money)
    (isPenalty : Bool) : Charge :=
  ⟨id, kind, some dueDate, submittedOn, amount, .zero, .zero, .zero, none, none, isPenalty, false,
    []⟩

/-- An installment fee, which amounts to the sum of its shares. -/
def ofShares (id : ChargeId) (kind : ChargeKind) (submittedOn : Date)
    (shares : List ChargeShare) : Except Fault Charge := do
  let amount ← Money.sum (shares.map (·.amount))
  return ⟨id, kind, none, submittedOn, amount, .zero, .zero, .zero, none, none, false, true, shares⟩

/-- The income accrued so far. -/
def accrued (c : Charge) : Money := Money.orZero c.accruedSoFar

/-- What was waived before it was recognized as income. -/
def unrecognized (c : Charge) : Money := Money.orZero c.unrecognizedSoFar

/-- The most that the charge can ever contribute to accruals. -/
def accruable (c : Charge) : Except Fault Money := c.amount.sub c.unrecognized

/-- What is neither paid nor waived nor adjusted. -/
def outstanding (c : Charge) : Except Fault Money := do
  c.amount.monus (← (← c.paid.add c.waived).add c.adjusted)

/-- Whether the charge is settled with the help of a waiver. -/
def isWaived (c : Charge) : Except Fault Bool :=
  if c.waived.isPositive then return (← c.outstanding).isZero else .ok false

/-- Whether the charge is settled without being waived. -/
def isPaid (c : Charge) : Except Fault Bool := do
  if ← c.isWaived then return false else return (← c.outstanding).isZero

/-- Whether no more has accrued than can accrue. -/
def accruedWithinBounds (c : Charge) : Except Fault Bool := return c.accrued ≤ (← c.accruable)

/-- The share of an installment; of several the first. -/
def share? (c : Charge) (n : InstallmentNumber) : Option ChargeShare :=
  c.shares.find? fun s => s.installment == n

end Charge
end LoanLedger
