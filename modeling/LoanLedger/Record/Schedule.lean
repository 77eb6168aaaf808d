import LoanLedger.Money.Form
import LoanLedger.Schedule

/-!
JSON forms of schedules and of what is paid or waived on them.
-/

set_option autoImplicit false
set_option relaxedAutoImplicit false

namespace LoanLedger

open Json.FieldReader (required optional)

instance : JsonForm ScheduleRow where
  toJson r := .obj [
    ("loanId", toJson r.loanId),
    ("officeId", toJson r.officeId),
    ("loanProductId", toJson r.productId),
    ("repaymentScheduleId", toJson r.rowId),
    ("installmentNumber", toJson r.installment),
    ("fromDate", toJson r.fromDate),
    ("dueDate", toJson r.dueDate),
    ("accruedTill", toJson r.accruedTill),
    ("interestCalculatedFrom", toJson r.interestFrom),
    ("interestIncome", toJson r.interestIncome),
    ("accruedInterestIncome", toJson r.accruedInterest),
    ("accruedFeeIncome", toJson r.accruedFee),
    ("accruedPenaltyIncome", toJson r.accruedPenalty),
    ("waivedInterestIncome", toJson r.waivedInterest),
    ("creditedFee", toJson r.creditedFee),
    ("creditedPenalty", toJson r.creditedPenalty),
    ("currency", toJson r.currency)]
  ofJson? := Json.FieldReader.read? do
    return {
      loanId := ← required "loanId"
      officeId := ← required "officeId"
      productId := ← required "loanProductId"
      rowId := ← required "repaymentScheduleId"
      installment := ← required "installmentNumber"
      fromDate := ← required "fromDate"
      dueDate := ← required "dueDate"
      accruedTill := ← optional "accruedTill"
      interestFrom := ← optional "interestCalculatedFrom"
      interestIncome := ← optional "interestIncome"
      accruedInterest := ← optional "accruedInterestIncome"
      accruedFee := ← optional "accruedFeeIncome"
      accruedPenalty := ← optional "accruedPenaltyIncome"
      waivedInterest := ← optional "waivedInterestIncome"
      creditedFee := ← optional "creditedFee"
      creditedPenalty := ← optional "creditedPenalty"
      currency := ← required "currency" }

instance : JsonForm Window where
  toJson w := .obj [("start", toJson w.start), ("end", toJson w.finish)]
  ofJson? := Json.FieldReader.read? do
    return { start := ← required "start", finish := ← required "end" }

instance : JsonForm WaivedPeriod where
  toJson p := .obj [("dueDate", toJson p.dueDate), ("interestWaived", toJson p.waived)]
  ofJson? := Json.FieldReader.read? do
    return { dueDate := ← required "dueDate", waived := ← required "interestWaived" }

instance : JsonForm InterestWaiver where
  toJson w := .obj [
    ("date", toJson w.date),
    ("interestPortion", toJson w.recognized),
    ("unrecognizedIncomePortion", toJson w.unrecognized)]
  ofJson? := Json.FieldReader.read? do
    return {
      date := ← required "date"
      recognized := ← required "interestPortion"
      unrecognized := ← required "unrecognizedIncomePortion" }

instance : JsonForm IssuedPeriod where
  toJson p := .obj [
    ("loanId", toJson p.loanId),
    ("dueDate", toJson p.dueDate),
    ("principalDue", toJson p.principal),
    ("interestDue", toJson p.interest),
    ("feeChargesDue", toJson p.fee),
    ("penaltyChargesDue", toJson p.penalty)]
  ofJson? := Json.FieldReader.read? do
    return {
      loanId := ← required "loanId"
      dueDate := ← required "dueDate"
      principal := ← required "principalDue"
      interest := ← required "interestDue"
      fee := ← required "feeChargesDue"
      penalty := ← required "penaltyChargesDue" }

instance : JsonForm Component where
  toJson c := .obj [
    ("due", toJson c.due),
    ("paid", toJson c.paid),
    ("waived", toJson c.waived),
    ("writtenOff", toJson c.writtenOff)]
  ofJson? := Json.FieldReader.read? do
    return {
      due := ← required "due"
      paid := ← required "paid"
      waived := ← required "waived"
      writtenOff := ← required "writtenOff" }

instance : JsonForm Installment where
  toJson i := .obj [
    ("installmentNumber", toJson i.number),
    ("fromDate", toJson i.fromDate),
    ("dueDate", toJson i.dueDate),
    ("principal", toJson i.principal),
    ("interest", toJson i.interest),
    ("fee", toJson i.fee),
    ("penalty", toJson i.penalty)]
  ofJson? := Json.FieldReader.read? do
    return {
      number := ← required "installmentNumber"
      fromDate := ← required "fromDate"
      dueDate := ← required "dueDate"
      principal := ← required "principal"
      interest := ← required "interest"
      fee := ← required "fee"
      penalty := ← required "penalty" }

instance : JsonForm RepaymentTotals where
  toJson t := .obj [
    ("loanId", toJson t.loanId),
    ("principalPaid", toJson t.principalPaid),
    ("principalWrittenOff", toJson t.principalWrittenOff),
    ("interestPaid", toJson t.interestPaid),
    ("interestWaived", toJson t.interestWaived),
    ("feePaid", toJson t.feePaid),
    ("feeWaived", toJson t.feeWaived),
    ("penaltyPaid", toJson t.penaltyPaid),
    ("penaltyWaived", toJson t.penaltyWaived)]
  ofJson? := Json.FieldReader.read? do
    return {
      loanId := ← required "loanId"
      principalPaid := ← required "principalPaid"
      principalWrittenOff := ← required "principalWrittenOff"
      interestPaid := ← required "interestPaid"
      interestWaived := ← required "interestWaived"
      feePaid := ← required "feePaid"
      feeWaived := ← required "feeWaived"
      penaltyPaid := ← required "penaltyPaid"
      penaltyWaived := ← required "penaltyWaived" }

end LoanLedger
