import LoanLedger.Charge.Apportionment
import LoanLedger.Charge.Relief
import LoanLedger.Record.Schedule

/-!
JSON forms of charges, of their apportionment and of relief from them.
-/

set_option autoImplicit false
set_option relaxedAutoImplicit false

namespace LoanLedger

open Json.FieldReader (required optional orDefault)

instance : JsonForm ChargeShare where
  toJson s := .obj [
    ("installmentNumber", toJson s.installment),
    ("dueDate", toJson s.dueDate),
    ("amount", toJson s.amount),
    ("amountPaid", toJson s.paid),
    ("amountWaived", toJson s.waived),
    ("amountAccrued", toJson s.accruedSoFar),
    ("amountUnrecognized", toJson s.unrecognizedSoFar)]
  ofJson? := Json.FieldReader.read? do
    return {
      installment := ← required "installmentNumber"
      dueDate := ← required "dueDate"
      amount := ← required "amount"
      paid := ← orDefault "amountPaid" .zero
      waived := ← orDefault "amountWaived" .zero
      accruedSoFar := ← optional "amountAccrued"
      unrecognizedSoFar := ← optional "amountUnrecognized" }

instance : JsonForm Charge where
  toJson c := .obj [
    ("id", toJson c.id),
    ("chargeId", toJson c.kind),
    ("dueDate", toJson c.dueDate),
    ("submittedOnDate", toJson c.submittedOn),
    ("amount", toJson c.amount),
    ("amountPaid", toJson c.paid),
    ("amountWaived", toJson c.waived),
    ("amountAdjusted", toJson c.adjusted),
    ("amountAccrued", toJson c.accruedSoFar),
    ("amountUnrecognized", toJson c.unrecognizedSoFar),
    ("isPenalty", toJson c.isPenalty),
    ("isInstallmentFee", toJson c.isInstallmentFee),
    ("installmentCharges", toJson c.shares)]
  ofJson? := Json.FieldReader.read? do
    return {
      id := ← required "id"
      kind := ← required "chargeId"
      dueDate := ← optional "dueDate"
      submittedOn := ← required "submittedOnDate"
      amount := ← required "amount"
      paid := ← orDefault "amountPaid" .zero
      waived := ← orDefault "amountWaived" .zero
      adjusted := ← orDefault "amountAdjusted" .zero
      accruedSoFar := ← optional "amountAccrued"
      unrecognizedSoFar := ← optional "amountUnrecognized"
      isPenalty := ← required "isPenalty"
      isInstallmentFee := ← required "isInstallmentFee"
      shares := ← orDefault "installmentCharges" [] }

instance : JsonForm Allocation where
  toJson a := .obj [
    ("loanChargeId", toJson a.chargeId),
    ("chargeId", toJson a.kind),
    ("isPenalty", toJson a.isPenalty),
    ("amount", toJson a.amount),
    ("installmentNumber", toJson a.installment)]
  ofJson? := Json.FieldReader.read? do
    return {
      chargeId := ← required "loanChargeId"
      kind := ← required "chargeId"
      isPenalty := ← required "isPenalty"
      amount := ← required "amount"
      installment := ← optional "installmentNumber" }

instance : JsonForm Apportionment where
  toJson a := .obj [
    ("allocations", toJson a.allocations),
    ("feeIncome", toJson a.feeIncome),
    ("penaltyIncome", toJson a.penaltyIncome)]
  ofJson? := Json.FieldReader.read? do
    return {
      allocations := ← required "allocations"
      feeIncome := ← optional "feeIncome"
      penaltyIncome := ← optional "penaltyIncome" }

instance : JsonForm Relief where
  toJson r := .obj [
    ("charge", toJson r.charge),
    ("installmentNumber", toJson r.installment),
    ("amount", toJson r.amount),
    ("recognized", toJson r.recognized),
    ("unrecognized", toJson r.unrecognized)]
  ofJson? := Json.FieldReader.read? do
    return {
      charge := ← required "charge"
      installment := ← optional "installmentNumber"
      amount := ← required "amount"
      recognized := ← required "recognized"
      unrecognized := ← required "unrecognized" }

end LoanLedger
