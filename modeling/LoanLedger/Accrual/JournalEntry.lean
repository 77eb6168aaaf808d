import LoanLedger.Accrual.Posting

/-!
Journal entries: the payload by which a posting is handed over for double-entry booking.
-/

set_option autoImplicit false
set_option relaxedAutoImplicit false

namespace LoanLedger

/-- A charge as it appears in a journal entry. -/
structure JournalCharge where
  kind : ChargeKind
  isPenalty : Bool
  chargeId : ChargeId
  amount : Money
  deriving DecidableEq, Repr

/-- A transaction as it appears in a journal entry. -/
structure JournalTransaction where
  id : TransactionId
  officeId : Int64
  reversed : Bool
  date : Date
  currency : Currency
  amount : Money
  principal : Option Money
  interest : Option Money
  fee : Option Money
  penalty : Option Money
  overpayment : Option Money
  charges : List JournalCharge
  deriving DecidableEq, Repr

/-- The payload for double-entry booking. -/
structure JournalEntry where
  loanId : LoanId
  productId : Int64
  officeId : Int64
  currency : Currency
  cashBased : Bool
  upfrontAccrual : Bool
  periodicAccrual : Bool
  isAccountTransfer : Bool
  isChargeOff : Bool
  isFraud : Bool
  transactions : List JournalTransaction
  deriving DecidableEq, Repr

/-- The transaction of a posting, with the charges it consumes. -/
def JournalTransaction.ofPosting (p : Posting) : JournalTransaction :=
  let t := p.transaction
  { id := t.id
    officeId := t.officeId
    reversed := false
    date := t.date
    currency := t.currency
    amount := t.amount
    principal := none
    interest := t.interest
    fee := t.fee
    penalty := t.penalty
    overpayment := none
    charges := p.allocations.map fun a => ⟨a.kind, a.isPenalty, a.chargeId, a.amount⟩ }

/-- The entry for one posting on a row. -/
def JournalEntry.ofPosting (row : ScheduleRow) (p : Posting) (method : AccountingMethod) :
    JournalEntry :=
  { loanId := row.loanId
    productId := row.productId
    officeId := row.officeId
    currency := row.currency
    cashBased := method.isCash
    upfrontAccrual := method.isUpfront
    periodicAccrual := method.isPeriodic
    isAccountTransfer := false
    isChargeOff := false
    isFraud := false
    transactions := [.ofPosting p] }

end LoanLedger
