import LoanLedger.Charge.Basic
import LoanLedger.Error

/-!
Relief from a charge: waiving what is outstanding, undoing a waiver, and adjusting the charge. A
waiver splits its amount into the part that had been accrued as income and the part that had not.
-/

set_option autoImplicit false
set_option relaxedAutoImplicit false

namespace LoanLedger

/-- What a waiver, or its undoing, did. -/
structure Relief where
  charge : Charge
  installment : Option InstallmentNumber
  amount : Money
  recognized : Money
  unrecognized : Money
  deriving DecidableEq, Repr

namespace Charge

/-- The part of a waived amount that had been accrued and not been paid. -/
def recognizedPart (amount accrued paid : Money) : Except Fault Money :=
  return amount.min (← accrued.monus paid)

/-- The position of the first share that something is outstanding on, and the share. -/
def firstOutstanding? : List ChargeShare → Except Fault (Option (Nat × ChargeShare))
  | [] => .ok none
  | s :: rest => do
    if (← s.outstanding).isPositive then return some (0, s)
    else return (← firstOutstanding? rest).map fun (i, t) => (i + 1, t)

/-- The position of the first share of an installment, and the share. -/
def shareAt? (n : InstallmentNumber) : List ChargeShare → Option (Nat × ChargeShare)
  | [] => none
  | s :: rest =>
    if s.installment = n then some (0, s) else (shareAt? n rest).map fun (i, t) => (i + 1, t)

/-- The share to waive, with its position: the requested one, or the first that something is
outstanding on. -/
def targetShare (c : Charge) (requested : Option InstallmentNumber) :
    Except Failure (Nat × ChargeShare) := do
  let found ← match requested with
    | some n => pure (shareAt? n c.shares)
    | none => (firstOutstanding? c.shares : Except Fault _)
  match found with
  | some target => return target
  | none => refuse (.installmentNotFound c.id (requested.getD 0))

/-- Waive the outstanding amount of one share. -/
def waiveShare (c : Charge) (requested : Option InstallmentNumber) :
    Except Failure (Charge × InstallmentNumber × Money × Money) := do
  let (i, s) ← c.targetShare requested
  if ← s.isWaived then refuse (.chargeCannotBeWaived c.id .alreadyWaived)
  if ← s.isPaid then refuse (.chargeCannotBeWaived c.id .alreadyPaid)
  let amount ← s.outstanding
  let recognized ← recognizedPart amount s.accrued s.paid
  let waived ← s.waived.add amount
  let unrecognized ← s.unrecognized.add (← amount.sub recognized)
  let s := { s with waived := waived, unrecognizedSoFar := some unrecognized }
  return ({ c with shares := c.shares.set i s }, s.installment, amount, recognized)

/-- Waive what is outstanding on a charge of an active loan; of an installment fee, one share. -/
def waive (status : LoanStatus) (c : Charge) (requested : Option InstallmentNumber) :
    Except Failure Relief := do
  if !status.isActive then refuse (.chargeCannotBeWaived c.id .loanInactive)
  if ← c.isWaived then refuse (.chargeCannotBeWaived c.id .alreadyWaived)
  if ← c.isPaid then refuse (.chargeCannotBeWaived c.id .alreadyPaid)
  let (updated, installment, amount, recognized) ←
    if c.isInstallmentFee then do
      let (updated, n, amount, recognized) ← c.waiveShare requested
      pure (updated, some n, amount, recognized)
    else do
      let amount ← c.outstanding
      let recognized ← recognizedPart amount c.accrued c.paid
      pure (c, none, amount, recognized)
  let unrecognized ← amount.sub recognized
  let waived ← updated.waived.add amount
  let total ← updated.unrecognized.add unrecognized
  return {
    charge := { updated with waived := waived, unrecognizedSoFar := total.nonZero }
    installment, amount, recognized, unrecognized }

/-- Take back the waiver of one share; gives what had been waived and its unrecognized part. -/
def restoreShare (c : Charge) (requested : Option InstallmentNumber) :
    Except Refusal (Charge × Money × Money) :=
  match requested with
  | none => .error (.installmentNotFound c.id 0)
  | some n =>
    match shareAt? n c.shares with
    | none => .error (.installmentNotFound c.id n)
    | some (i, s) =>
      if !s.waived.isPositive then .error (.chargeNotWaived c.id)
      else
        let cleared := { s with waived := .zero, unrecognizedSoFar := none }
        .ok ({ c with shares := c.shares.set i cleared }, s.waived, s.unrecognized)

/-- Take back the waiver of a charge of an active loan; of an installment fee, of one share. -/
def undoWaive (status : LoanStatus) (c : Charge) (requested : Option InstallmentNumber) :
    Except Failure Relief := do
  if !status.isActive then refuse (.invalidLoanStatus status)
  if !c.waived.isPositive then refuse (.chargeNotWaived c.id)
  let (updated, amount, unrecognized) ←
    if c.isInstallmentFee then (c.restoreShare requested : Except Refusal _)
    else pure (c, c.waived, c.unrecognized)
  let waived ← updated.waived.monus amount
  let rest ← updated.unrecognized.monus unrecognized
  let recognized ← amount.sub unrecognized
  return {
    charge := { updated with waived := waived, unrecognizedSoFar := rest.nonZero }
    installment := if c.isInstallmentFee then requested else none
    amount, recognized, unrecognized }

/-- Whether charges of a loan in this status can be adjusted. -/
def adjustable : LoanStatus → Bool
  | .active | .closedObligationsMet | .overpaid => true
  | _ => false

/-- Record an adjustment of a positive amount, up to what has not been adjusted yet. -/
def adjust (status : LoanStatus) (c : Charge) (amount : Money) : Except Failure Charge := do
  if !adjustable status then
    refuse (.chargeAdjustment "loan.charge.adjustment.invalid.status"
      ("adjustment is not supported for the status of " ++ status.name))
  if !amount.isPositive then refuse (.invalidAmount amount)
  if c.amount < amount then
    refuse (.chargeAdjustment "loan.charge.adjustment.invalid.amount"
      ("amount cannot be higher than the charge amount: " ++ toString c.amount))
  let available ← c.amount.monus c.adjusted
  if available < amount then
    refuse (.chargeAdjustment "loan.charge.adjustment.invalid.amount"
      ("amount cannot be higher than the available charge amount for adjustment: " ++
        toString available))
  let adjusted ← c.adjusted.add amount
  return { c with adjusted }

end Charge
end LoanLedger
