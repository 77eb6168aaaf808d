import LoanLedger.Ledger.Basic
import LoanLedger.Record.Charge

/-!
JSON forms of accruals: reconciled interest, postings, journal entries, and what is read of a loan
before it is accrued.
-/

set_option autoImplicit false
set_option relaxedAutoImplicit false

namespace LoanLedger

open Json.FieldReader (required optional orDefault)

/-- The mark of an accrual among the types of ledger transactions. -/
inductive AccrualTag
  | accrual
  deriving DecidableEq, Repr

namespace AccrualTag

/-- The name of the type. -/
def ofName? : String → Option AccrualTag
  | "accrual" => some .accrual
  | _ => none

instance : JsonForm AccrualTag := ⟨fun _ => .str "accrual", Json.named? ofName?⟩

end AccrualTag

instance : JsonForm ReconciledInterest where
  toJson r := .obj [
    ("nominalIncome", toJson r.nominal),
    ("accruableIncome", toJson r.accruable),
    ("reduction", toJson r.reduction),
    ("unresolvedShortfall", toJson r.shortfall)]
  ofJson? := Json.FieldReader.read? do
    return {
      nominal := ← optional "nominalIncome"
      accruable := ← optional "accruableIncome"
      reduction := ← required "reduction"
      shortfall := ← required "unresolvedShortfall" }

instance : JsonForm Accrual where
  toJson t := .obj [
    ("id", toJson t.id),
    ("loanId", toJson t.loanId),
    ("officeId", toJson t.officeId),
    ("transactionType", toJson AccrualTag.accrual),
    ("transactionDate", toJson t.date),
    ("submittedOnDate", toJson t.submittedOn),
    ("amount", toJson t.amount),
    ("interestPortion", toJson t.interest),
    ("feeChargesPortion", toJson t.fee),
    ("penaltyChargesPortion", toJson t.penalty),
    ("currency", toJson t.currency)]
  ofJson? := Json.FieldReader.read? do
    let id ← required "id"
    let loanId ← required "loanId"
    let officeId ← required "officeId"
    let _ : AccrualTag ← required "transactionType"
    return {
      id, loanId, officeId
      date := ← required "transactionDate"
      submittedOn := ← required "submittedOnDate"
      amount := ← required "amount"
      interest := ← optional "interestPortion"
      fee := ← optional "feeChargesPortion"
      penalty := ← optional "penaltyChargesPortion"
      currency := ← required "currency" }

instance : JsonForm ChargePayment where
  toJson p := .obj [
    ("loanTransactionId", toJson p.transactionId),
    ("loanChargeId", toJson p.chargeId),
    ("amount", toJson p.amount),
    ("installmentNumber", toJson p.installment)]
  ofJson? := Json.FieldReader.read? do
    return {
      transactionId := ← required "loanTransactionId"
      chargeId := ← required "loanChargeId"
      amount := ← required "amount"
      installment := ← required "installmentNumber" }

instance : JsonForm RowTotals where
  toJson t := .obj [
    ("repaymentScheduleId", toJson t.rowId),
    ("installmentNumber", toJson t.installment),
    ("accruedInterest", toJson t.interest),
    ("accruedFee", toJson t.fee),
    ("accruedPenalty", toJson t.penalty)]
  ofJson? := Json.FieldReader.read? do
    return {
      rowId := ← required "repaymentScheduleId"
      installment := ← required "installmentNumber"
      interest := ← optional "accruedInterest"
      fee := ← optional "accruedFee"
      penalty := ← optional "accruedPenalty" }

instance : JsonForm Posting where
  toJson p := .obj [
    ("transaction", toJson p.transaction),
    ("chargesPaid", toJson p.payments),
    ("allocations", toJson p.allocations),
    ("scheduleUpdate", toJson p.totals),
    ("accruedTill", toJson p.accruedTill)]
  ofJson? := Json.FieldReader.read? do
    return {
      transaction := ← required "transaction"
      payments := ← required "chargesPaid"
      allocations := ← required "allocations"
      totals := ← required "scheduleUpdate"
      accruedTill := ← required "accruedTill" }

instance : JsonForm JournalCharge where
  toJson c := .obj [
    ("chargeId", toJson c.kind),
    ("isPenalty", toJson c.isPenalty),
    ("loanChargeId", toJson c.chargeId),
    ("amount", toJson c.amount)]
  ofJson? := Json.FieldReader.read? do
    return {
      kind := ← required "chargeId"
      isPenalty := ← required "isPenalty"
      chargeId := ← required "loanChargeId"
      amount := ← required "amount" }

/-- The charges of a journal transaction are left out when there are none. -/
instance : JsonForm JournalTransaction where
  toJson t := .obj ([
    ("id", toJson t.id),
    ("officeId", toJson t.officeId),
    ("type", toJson AccrualTag.accrual),
    ("reversed", toJson t.reversed),
    ("date", toJson t.date),
    ("currency", toJson t.currency),
    ("amount", toJson t.amount),
    ("principalPortion", toJson t.principal),
    ("interestPortion", toJson t.interest),
    ("feeChargesPortion", toJson t.fee),
    ("penaltyChargesPortion", toJson t.penalty),
    ("overPaymentPortion", toJson t.overpayment)] ++
    (if t.charges.isEmpty then [] else [("loanChargesPaid", toJson t.charges)]))
  ofJson? := Json.FieldReader.read? do
    let id ← required "id"
    let officeId ← required "officeId"
    let _ : AccrualTag ← required "type"
    return {
      id, officeId
      reversed := ← required "reversed"
      date := ← required "date"
      currency := ← required "currency"
      amount := ← required "amount"
      principal := ← optional "principalPortion"
      interest := ← optional "interestPortion"
      fee := ← optional "feeChargesPortion"
      penalty := ← optional "penaltyChargesPortion"
      overpayment := ← optional "overPaymentPortion"
      charges := ← orDefault "loanChargesPaid" [] }

instance : JsonForm JournalEntry where
  toJson e := .obj [
    ("loanId", toJson e.loanId),
    ("loanProductId", toJson e.productId),
    ("officeId", toJson e.officeId),
    ("currency", toJson e.currency),
    ("cashBasedAccountingEnabled", toJson e.cashBased),
    ("upfrontAccrualBasedAccountingEnabled", toJson e.upfrontAccrual),
    ("periodicAccrualBasedAccountingEnabled", toJson e.periodicAccrual),
    ("isAccountTransfer", toJson e.isAccountTransfer),
    ("isChargeOff", toJson e.isChargeOff),
    ("isFraud", toJson e.isFraud),
    ("newLoanTransactions", toJson e.transactions)]
  ofJson? := Json.FieldReader.read? do
    return {
      loanId := ← required "loanId"
      productId := ← required "loanProductId"
      officeId := ← required "officeId"
      currency := ← required "currency"
      cashBased := ← required "cashBasedAccountingEnabled"
      upfrontAccrual := ← required "upfrontAccrualBasedAccountingEnabled"
      periodicAccrual := ← required "periodicAccrualBasedAccountingEnabled"
      isAccountTransfer := ← required "isAccountTransfer"
      isChargeOff := ← required "isChargeOff"
      isFraud := ← required "isFraud"
      transactions := ← required "newLoanTransactions" }

instance : JsonForm AccrualInput where
  toJson i := .obj [
    ("loanId", toJson i.loanId),
    ("candidates", toJson i.candidates),
    ("charges", toJson i.charges),
    ("waiverPeriods", toJson i.waivedPeriods),
    ("waiverTransactions", toJson i.waivers)]
  ofJson? := Json.FieldReader.read? do
    return {
      loanId := ← required "loanId"
      candidates := ← required "candidates"
      charges := ← required "charges"
      waivedPeriods := ← required "waiverPeriods"
      waivers := ← required "waiverTransactions" }

instance : JsonForm LoanSnapshot where
  toJson s := .obj [
    ("loanId", toJson s.loanId),
    ("version", toJson s.version),
    ("status", toJson s.status),
    ("charges", toJson s.charges),
    ("waiverPeriods", toJson s.waivedPeriods),
    ("waiverTransactions", toJson s.waivers)]
  ofJson? := Json.FieldReader.read? do
    return {
      loanId := ← required "loanId"
      version := ← required "version"
      status := ← required "status"
      charges := ← required "charges"
      waivedPeriods := ← required "waiverPeriods"
      waivers := ← required "waiverTransactions" }

end LoanLedger
