import LoanLedger.Identity
import LoanLedger.Terms
import LoanLedger.Money.Text

/-!
Why the ledger refuses an operation, and the two ways in which one can fail: by a refusal, which a
run records and survives, or by an arithmetic fault, which ends it.
-/

set_option autoImplicit false
set_option relaxedAutoImplicit false

namespace LoanLedger

/-- Why a charge is not waived. -/
inductive WaiveRefusal
  | loanInactive | alreadyWaived | alreadyPaid
  deriving DecidableEq, Repr

/-- The words for a reason. -/
def WaiveRefusal.text : WaiveRefusal → String
  | .loanInactive => "loan inactive"
  | .alreadyWaived => "already waived"
  | .alreadyPaid => "already paid"

/-- A refusal of the ledger. -/
inductive Refusal
  | loanNotFound (loan : LoanId)
  | chargeNotFound (charge : ChargeId)
  | installmentNotFound (charge : ChargeId) (installment : InstallmentNumber)
  | chargeCannotBeWaived (charge : ChargeId) (reason : WaiveRefusal)
  | chargeNotWaived (charge : ChargeId)
  | chargeAdjustment (code text : String)
  | invalidLoanStatus (status : LoanStatus)
  | invalidAmount (amount : Money)
  | invalidConfiguration (text : String)
  | invalidSchedule (loan : LoanId) (text : String)
  | concurrencyConflict (loan : LoanId) (expected found : UInt64)
  | retriesExhausted (loan : LoanId) (attempts : Nat)
  | storage (text : String)
  | journalPosting (loan : LoanId) (text : String)
  | unreadableSettings
  | runFailed (failed : Nat) (messages : List String)
  deriving DecidableEq, Repr

namespace Refusal

/-- The sentence shown for a refusal. -/
def message : Refusal → String
  | .loanNotFound l => s!"loan not found: {l}"
  | .chargeNotFound c => s!"loan charge not found: {c}"
  | .installmentNotFound c n => s!"installment {n} not found for loan charge {c}"
  | .chargeCannotBeWaived c reason => s!"loan charge {c} cannot be waived: {reason.text}"
  | .chargeNotWaived c => s!"loan charge {c} has no waiver to undo"
  | .chargeAdjustment code text => s!"loan charge adjustment refused ({code}): {text}"
  | .invalidLoanStatus s => s!"invalid loan status for operation: {s.name}"
  | .invalidAmount a => s!"invalid amount: {a}"
  | .invalidConfiguration text => s!"invalid configuration: {text}"
  | .invalidSchedule l text => s!"invalid schedule data for loan {l}: {text}"
  | .concurrencyConflict l expected found =>
    s!"concurrent update on loan {l}: expected version {expected}, found {found}"
  | .retriesExhausted l attempts => s!"loan {l} still conflicting after {attempts} attempts"
  | .storage text => s!"storage error: {text}"
  | .journalPosting l text => s!"journal entry posting failed for loan {l}: {text}"
  | .unreadableSettings => "serialization error"
  | .runFailed failed messages =>
    s!"run failed for {failed} loan(s): " ++ String.intercalate "; " messages

/-- Whether a fresh look at the loan may succeed where this attempt was refused. -/
def isRetryable : Refusal → Bool
  | .concurrencyConflict .. => true
  | _ => false

end Refusal

/-- How an operation fails. -/
inductive Failure
  | refusal (r : Refusal)
  | fault (f : Fault)
  deriving DecidableEq, Repr

instance : MonadLift (Except Fault) (Except Failure) where
  monadLift
    | .ok a => .ok a
    | .error f => .error (.fault f)

instance : MonadLift (Except Refusal) (Except Failure) where
  monadLift
    | .ok a => .ok a
    | .error r => .error (.refusal r)

/-- Fail by a refusal. -/
def refuse {α : Type} (r : Refusal) : Except Failure α := .error (.refusal r)

end LoanLedger
