import LoanLedger.Arrears.Issued
import LoanLedger.Record.Schedule

/-!
JSON forms of arrears, of the changes to them, and of announcements and activities.
-/

set_option autoImplicit false
set_option relaxedAutoImplicit false

namespace LoanLedger

open Json.FieldReader (required optional)

instance : JsonForm CoveredPeriod where
  toJson c := .obj [
    ("period", toJson c.period),
    ("principalPaid", toJson c.principal),
    ("interestPaid", toJson c.interest),
    ("feeChargesPaid", toJson c.fee),
    ("penaltyChargesPaid", toJson c.penalty),
    ("complete", toJson c.complete)]
  ofJson? := Json.FieldReader.read? do
    return {
      period := ← required "period"
      principal := ← required "principalPaid"
      interest := ← required "interestPaid"
      fee := ← required "feeChargesPaid"
      penalty := ← required "penaltyChargesPaid"
      complete := ← required "complete" }

instance : JsonForm Arrears where
  toJson a := .obj [
    ("loanId", toJson a.loanId),
    ("principalOverdue", toJson a.principal),
    ("interestOverdue", toJson a.interest),
    ("feeChargesOverdue", toJson a.fee),
    ("penaltyChargesOverdue", toJson a.penalty),
    ("totalOverdue", toJson a.total),
    ("overdueSinceDate", toJson a.since)]
  ofJson? := Json.FieldReader.read? do
    return {
      loanId := ← required "loanId"
      principal := ← required "principalOverdue"
      interest := ← required "interestOverdue"
      fee := ← required "feeChargesOverdue"
      penalty := ← required "penaltyChargesOverdue"
      total := ← required "totalOverdue"
      since := ← required "overdueSinceDate" }

instance : JsonForm ArrearsChange where
  toJson
    | .insert row => .obj [("Insert", toJson row)]
    | .update row => .obj [("Update", toJson row)]
    | .delete loan => .obj [("Delete", toJson loan)]
  ofJson? j :=
    match Json.variant? j with
    | some ("Insert", some v) => (ofJson? v).map .insert
    | some ("Update", some v) => (ofJson? v).map .update
    | some ("Delete", some v) => (ofJson? v).map .delete
    | _ => none

instance : JsonForm AgeingProfile where
  toJson p := .obj [
    ("loanId", toJson p.loanId),
    ("status", toJson p.status),
    ("interestRecalculationEnabled", toJson p.interestRecalculation),
    ("arrearsBasedOnOriginalSchedule", toJson p.onIssuedSchedule),
    ("graceOnArrearsAgeing", toJson p.graceDays)]
  ofJson? := Json.FieldReader.read? do
    return {
      loanId := ← required "loanId"
      status := ← required "status"
      interestRecalculation := ← required "interestRecalculationEnabled"
      onIssuedSchedule := ← required "arrearsBasedOnOriginalSchedule"
      graceDays := ← optional "graceOnArrearsAgeing" }

instance : JsonForm Event where
  toJson
    | .accrualCreated loan transaction installment amount date =>
      .obj [("AccrualTransactionCreated", .obj [
        ("loan_id", toJson loan),
        ("transaction_id", toJson transaction),
        ("installment_number", toJson installment),
        ("amount", toJson amount),
        ("transaction_date", toJson date)])]
    | .accruedTillAdvanced loan till =>
      .obj [("AccruedTillAdvanced", .obj [("loan_id", toJson loan), ("accrued_till", toJson till)])]
    | .arrearsUpdated loan total since =>
      .obj [("ArrearsUpdated", .obj [
        ("loan_id", toJson loan),
        ("total_overdue", toJson total),
        ("overdue_since_date", toJson since)])]
    | .arrearsCleared loan => .obj [("ArrearsCleared", .obj [("loan_id", toJson loan)])]
  ofJson? j :=
    match Json.variant? j with
    | some ("AccrualTransactionCreated", some v) => v |> Json.FieldReader.readNamed? do
      return .accrualCreated (← required "loan_id") (← required "transaction_id")
        (← required "installment_number") (← required "amount") (← required "transaction_date")
    | some ("AccruedTillAdvanced", some v) => v |> Json.FieldReader.readNamed? do
      return .accruedTillAdvanced (← required "loan_id") (← required "accrued_till")
    | some ("ArrearsUpdated", some v) => v |> Json.FieldReader.readNamed? do
      return .arrearsUpdated (← required "loan_id") (← required "total_overdue")
        (← required "overdue_since_date")
    | some ("ArrearsCleared", some v) => v |> Json.FieldReader.readNamed? do
      return .arrearsCleared (← required "loan_id")
    | _ => none

namespace ActivityKind

/-- The name of a kind of activity. -/
def name : ActivityKind → String
  | .repayment => "Repayment"
  | .refund => "Refund"
  | .adjustTransaction => "AdjustTransaction"
  | .goodwillCredit => "GoodwillCredit"
  | .payoutRefund => "PayoutRefund"
  | .undoWriteOff => "UndoWriteOff"
  | .waiveInterest => "WaiveInterest"
  | .addCharge => "AddCharge"
  | .waiveCharge => "WaiveCharge"
  | .chargePayment => "ChargePayment"
  | .applyOverdueCharge => "ApplyOverdueCharge"
  | .disbursement => "Disbursement"
  | .foreclosure => "Foreclosure"
  | .balanceChanged => "BalanceChanged"

/-- All kinds of activity. -/
def all : List ActivityKind :=
  [.repayment, .refund, .adjustTransaction, .goodwillCredit, .payoutRefund, .undoWriteOff,
   .waiveInterest, .addCharge, .waiveCharge, .chargePayment, .applyOverdueCharge, .disbursement,
   .foreclosure, .balanceChanged]

/-- The kind with exactly this name. -/
def ofName? (s : String) : Option ActivityKind := all.find? fun k => k.name == s

@[simp] theorem ofName?_name (k : ActivityKind) : ofName? k.name = some k := by
  cases k <;> decide

end ActivityKind

instance : JsonForm Activity where
  toJson a := .obj [(a.kind.name, .obj [("loan_id", toJson a.loanId)])]
  ofJson? j :=
    match Json.variant? j with
    | some (name, some v) => do
      let kind ← ActivityKind.ofName? name
      v |> Json.FieldReader.readNamed? do
        return ⟨kind, ← required "loan_id"⟩
    | _ => none

end LoanLedger
