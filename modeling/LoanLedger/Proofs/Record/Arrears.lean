import LoanLedger.Proofs.Record.Schedule
import LoanLedger.Record.Arrears

/-!
Arrears come back from their JSON form, and so do the changes to them, announcements and activities.
-/

set_option autoImplicit false
set_option relaxedAutoImplicit false

namespace LoanLedger

open Json.FieldReader (ofJson?_toJson_of_fields readNamed?_of_fields)

variable {n : Nat}

instance : RegularForm CoveredPeriod (n + 2) := ⟨fun _ => .obj (by simp) (by simp)⟩

instance : HasAmounts CoveredPeriod where
  mapAmounts f c := { c with
    period := mapAmounts f c.period
    principal := mapAmounts f c.principal
    interest := mapAmounts f c.interest
    fee := mapAmounts f c.fee
    penalty := mapAmounts f c.penalty }
  mapAmounts_id _ := by simp

instance : FaithfulForm CoveredPeriod where
  ofJson?_toJson _ := ofJson?_toJson_of_fields rfl rfl (by simp; rfl)

instance : RegularForm Arrears (n + 1) := ⟨fun _ => .obj (by simp) (by simp)⟩

instance : HasAmounts Arrears where
  mapAmounts f a := { a with
    principal := mapAmounts f a.principal
    interest := mapAmounts f a.interest
    fee := mapAmounts f a.fee
    penalty := mapAmounts f a.penalty
    total := mapAmounts f a.total }
  mapAmounts_id _ := by simp

instance : FaithfulForm Arrears where
  ofJson?_toJson _ := ofJson?_toJson_of_fields rfl rfl (by simp; rfl)

instance : RegularForm AgeingProfile (n + 1) := ⟨fun _ => .obj (by simp) (by simp)⟩

instance : HasAmounts AgeingProfile := ⟨fun _ => id, fun _ => rfl⟩

instance : AmountFree AgeingProfile := ⟨fun _ _ => rfl⟩

instance : FaithfulForm AgeingProfile where
  ofJson?_toJson _ := ofJson?_toJson_of_fields rfl rfl (by simp)

instance : RegularForm ArrearsChange (n + 2) where
  regular
    | .insert _ => .obj (by simp) (by simp)
    | .update _ => .obj (by simp) (by simp)
    | .delete _ => .obj (by simp) (by simp)

instance : HasAmounts ArrearsChange where
  mapAmounts f
    | .insert row => .insert (mapAmounts f row)
    | .update row => .update (mapAmounts f row)
    | .delete loan => .delete loan
  mapAmounts_id c := by cases c <;> simp

instance : FaithfulForm ArrearsChange where
  ofJson?_toJson
    | .insert row => congrArg (Option.map ArrearsChange.insert) (FaithfulForm.ofJson?_toJson row)
    | .update row => congrArg (Option.map ArrearsChange.update) (FaithfulForm.ofJson?_toJson row)
    | .delete loan => congrArg (Option.map ArrearsChange.delete) (FaithfulForm.ofJson?_toJson loan)

instance : RegularForm Event (n + 2) where
  regular
    | .accrualCreated .. => .obj (by simp) (by simp [Json.Regular.obj])
    | .accruedTillAdvanced .. => .obj (by simp) (by simp [Json.Regular.obj])
    | .arrearsUpdated .. => .obj (by simp) (by simp [Json.Regular.obj])
    | .arrearsCleared _ => .obj (by simp) (by simp [Json.Regular.obj])

instance : HasAmounts Event where
  mapAmounts f
    | .accrualCreated loan transaction installment amount date =>
      .accrualCreated loan transaction installment (mapAmounts f amount) date
    | .accruedTillAdvanced loan till => .accruedTillAdvanced loan till
    | .arrearsUpdated loan total since => .arrearsUpdated loan (mapAmounts f total) since
    | .arrearsCleared loan => .arrearsCleared loan
  mapAmounts_id e := by cases e <;> simp

instance : FaithfulForm Event where
  ofJson?_toJson
    | .accrualCreated .. => readNamed?_of_fields (by simp; rfl)
    | .accruedTillAdvanced .. => readNamed?_of_fields (by simp; rfl)
    | .arrearsUpdated .. => readNamed?_of_fields (by simp; rfl)
    | .arrearsCleared _ => readNamed?_of_fields (by simp; rfl)

instance : RegularForm Activity (n + 2) := ⟨fun _ => .obj (by simp) (by simp [Json.Regular.obj])⟩

instance : HasAmounts Activity := ⟨fun _ => id, fun _ => rfl⟩

instance : AmountFree Activity := ⟨fun _ _ => rfl⟩

instance : FaithfulForm Activity where
  ofJson?_toJson a := by
    change (ActivityKind.ofName? a.kind.name).bind _ = _
    rw [ActivityKind.ofName?_name]
    exact readNamed?_of_fields (by simp)

end LoanLedger
