import LoanLedger.Charge.Relief
import LoanLedger.Ledger.Basic

/-!
Relief from charges of loans in the ledger, by the present status of the loan.
-/

set_option autoImplicit false
set_option relaxedAutoImplicit false

namespace LoanLedger

/-- Why a charge in the ledger is left as it is. -/
inductive ReliefFailure
  | noLoan
  | noCharge
  | failed (f : Failure)
  deriving DecidableEq, Repr

namespace Ledger

/-- Change a charge of a loan; of several charges with the number, the first. -/
def changeCharge (g : Ledger) (loanId : LoanId) (chargeId : ChargeId)
    (change : LoanStatus → Charge → Except Failure Charge) :
    Except ReliefFailure (Charge × Ledger) :=
  match g.loans.find? loanId with
  | none => .error .noLoan
  | some loan =>
    match loan.charges.findIdx? (fun c => c.id == chargeId) with
    | none => .error .noCharge
    | some i =>
      match loan.charges[i]? with
      | none => .error .noCharge
      | some c =>
        match change loan.status c with
        | .error f => .error (.failed f)
        | .ok changed =>
          let loan := { loan with charges := loan.charges.set i changed }
          .ok (changed, { g with loans := g.loans.insert loanId loan })

end Ledger
end LoanLedger
