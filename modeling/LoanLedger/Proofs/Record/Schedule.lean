import LoanLedger.Proofs.Record.Form
import LoanLedger.Record.Schedule

/-!
Schedules come back from their JSON form, and so does what is paid or waived on them.
-/

set_option autoImplicit false
set_option relaxedAutoImplicit false

namespace LoanLedger

open Json.FieldReader (ofJson?_toJson_of_fields)

variable {n : Nat}

instance : RegularForm ScheduleRow (n + 2) := ⟨fun _ => .obj (by simp) (by simp)⟩

instance : HasAmounts ScheduleRow where
  mapAmounts f r := { r with
    interestIncome := mapAmounts f r.interestIncome
    accruedInterest := mapAmounts f r.accruedInterest
    accruedFee := mapAmounts f r.accruedFee
    accruedPenalty := mapAmounts f r.accruedPenalty
    waivedInterest := mapAmounts f r.waivedInterest
    creditedFee := mapAmounts f r.creditedFee
    creditedPenalty := mapAmounts f r.creditedPenalty }
  mapAmounts_id _ := by simp

instance : FaithfulForm ScheduleRow where
  ofJson?_toJson _ := ofJson?_toJson_of_fields rfl rfl (by simp; rfl)

instance : RegularForm Window (n + 1) := ⟨fun _ => .obj (by simp) (by simp)⟩

instance : HasAmounts Window := ⟨fun _ => id, fun _ => rfl⟩

instance : AmountFree Window := ⟨fun _ _ => rfl⟩

instance : FaithfulForm Window where
  ofJson?_toJson _ := ofJson?_toJson_of_fields rfl rfl (by simp)

instance : RegularForm WaivedPeriod (n + 1) := ⟨fun _ => .obj (by simp) (by simp)⟩

instance : HasAmounts WaivedPeriod where
  mapAmounts f p := { p with waived := mapAmounts f p.waived }
  mapAmounts_id _ := by simp

instance : FaithfulForm WaivedPeriod where
  ofJson?_toJson _ := ofJson?_toJson_of_fields rfl rfl (by simp; rfl)

instance : RegularForm InterestWaiver (n + 1) := ⟨fun _ => .obj (by simp) (by simp)⟩

instance : HasAmounts InterestWaiver where
  mapAmounts f w := { w with
    recognized := mapAmounts f w.recognized
    unrecognized := mapAmounts f w.unrecognized }
  mapAmounts_id _ := by simp

instance : FaithfulForm InterestWaiver where
  ofJson?_toJson _ := ofJson?_toJson_of_fields rfl rfl (by simp; rfl)

instance : RegularForm IssuedPeriod (n + 1) := ⟨fun _ => .obj (by simp) (by simp)⟩

instance : HasAmounts IssuedPeriod where
  mapAmounts f p := { p with
    principal := mapAmounts f p.principal
    interest := mapAmounts f p.interest
    fee := mapAmounts f p.fee
    penalty := mapAmounts f p.penalty }
  mapAmounts_id _ := by simp

instance : FaithfulForm IssuedPeriod where
  ofJson?_toJson _ := ofJson?_toJson_of_fields rfl rfl (by simp; rfl)

instance : RegularForm Component (n + 1) := ⟨fun _ => .obj (by simp) (by simp)⟩

instance : HasAmounts Component where
  mapAmounts f c :=
    ⟨mapAmounts f c.due, mapAmounts f c.paid, mapAmounts f c.waived, mapAmounts f c.writtenOff⟩
  mapAmounts_id _ := by simp

instance : FaithfulForm Component where
  ofJson?_toJson _ := ofJson?_toJson_of_fields rfl rfl (by simp; rfl)

instance : RegularForm Installment (n + 2) := ⟨fun _ => .obj (by simp) (by simp)⟩

instance : HasAmounts Installment where
  mapAmounts f i := { i with
    principal := mapAmounts f i.principal
    interest := mapAmounts f i.interest
    fee := mapAmounts f i.fee
    penalty := mapAmounts f i.penalty }
  mapAmounts_id _ := by simp

instance : FaithfulForm Installment where
  ofJson?_toJson _ := ofJson?_toJson_of_fields rfl rfl (by simp; rfl)

instance : RegularForm RepaymentTotals (n + 1) := ⟨fun _ => .obj (by simp) (by simp)⟩

instance : HasAmounts RepaymentTotals where
  mapAmounts f t := { t with
    principalPaid := mapAmounts f t.principalPaid
    principalWrittenOff := mapAmounts f t.principalWrittenOff
    interestPaid := mapAmounts f t.interestPaid
    interestWaived := mapAmounts f t.interestWaived
    feePaid := mapAmounts f t.feePaid
    feeWaived := mapAmounts f t.feeWaived
    penaltyPaid := mapAmounts f t.penaltyPaid
    penaltyWaived := mapAmounts f t.penaltyWaived }
  mapAmounts_id _ := by simp

instance : FaithfulForm RepaymentTotals where
  ofJson?_toJson _ := ofJson?_toJson_of_fields rfl rfl (by simp; rfl)

end LoanLedger
