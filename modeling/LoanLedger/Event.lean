import LoanLedger.Identity
import LoanLedger.Terms
import LoanLedger.Money.Form

/-!
Events: what the ledger announces about a loan, and the business activity on a loan after which its
arrears are recomputed.
-/

set_option autoImplicit false
set_option relaxedAutoImplicit false

namespace LoanLedger

/-- An announcement about a loan. -/
inductive Event
  | accrualCreated (loan : LoanId) (transaction : TransactionId)
      (installment : InstallmentNumber) (amount : Money) (date : Date)
  | accruedTillAdvanced (loan : LoanId) (till : Date)
  | arrearsUpdated (loan : LoanId) (total : Money) (since : Date)
  | arrearsCleared (loan : LoanId)
  deriving DecidableEq, Repr

/-- The loan that an event is about. -/
def Event.loanId : Event → LoanId
  | .accrualCreated loan .. => loan
  | .accruedTillAdvanced loan _ => loan
  | .arrearsUpdated loan .. => loan
  | .arrearsCleared loan => loan

/-- The kinds of business activity after which arrears are recomputed. -/
inductive ActivityKind
  | repayment | refund | adjustTransaction | goodwillCredit | payoutRefund | undoWriteOff
  | waiveInterest | addCharge | waiveCharge | chargePayment | applyOverdueCharge | disbursement
  | foreclosure | balanceChanged
  deriving DecidableEq, Repr

/-- Business activity on a loan. -/
structure Activity where
  kind : ActivityKind
  loanId : LoanId
  deriving DecidableEq, Repr

/-- After a disbursement arrears always follow the live schedule. -/
def Activity.forcesLiveSchedule (a : Activity) : Bool := a.kind == .disbursement

end LoanLedger
