import LoanLedger.Proofs.Record.Form
import LoanLedger.Record.Charge

/-!
Charges come back from their JSON form, and so do their apportionment and relief from them.
-/

set_option autoImplicit false
set_option relaxedAutoImplicit false

namespace LoanLedger

open Json.FieldReader (ofJson?_toJson_of_fields)

variable {n : Nat}

instance : RegularForm ChargeShare (n + 1) := ⟨fun _ => .obj (by simp) (by simp)⟩

instance : HasAmounts ChargeShare where
  mapAmounts f s := { s with
    amount := mapAmounts f s.amount
    paid := mapAmounts f s.paid
    waived := mapAmounts f s.waived
    accruedSoFar := mapAmounts f s.accruedSoFar
    unrecognizedSoFar := mapAmounts f s.unrecognizedSoFar }
  mapAmounts_id _ := by simp

instance : FaithfulForm ChargeShare where
  ofJson?_toJson _ := ofJson?_toJson_of_fields rfl rfl (by simp; rfl)

instance : RegularForm Charge (n + 3) := ⟨fun _ => .obj (by simp) (by simp)⟩

instance : HasAmounts Charge where
  mapAmounts f c := { c with
    amount := mapAmounts f c.amount
    paid := mapAmounts f c.paid
    waived := mapAmounts f c.waived
    adjusted := mapAmounts f c.adjusted
    accruedSoFar := mapAmounts f c.accruedSoFar
    unrecognizedSoFar := mapAmounts f c.unrecognizedSoFar
    shares := mapAmounts f c.shares }
  mapAmounts_id _ := by simp

instance : FaithfulForm Charge where
  ofJson?_toJson _ := ofJson?_toJson_of_fields rfl rfl (by simp; rfl)

instance : RegularForm Allocation (n + 1) := ⟨fun _ => .obj (by simp) (by simp)⟩

instance : HasAmounts Allocation where
  mapAmounts f a := { a with amount := mapAmounts f a.amount }
  mapAmounts_id _ := by simp

instance : FaithfulForm Allocation where
  ofJson?_toJson _ := ofJson?_toJson_of_fields rfl rfl (by simp; rfl)

instance : RegularForm Apportionment (n + 3) := ⟨fun _ => .obj (by simp) (by simp)⟩

instance : HasAmounts Apportionment where
  mapAmounts f a :=
    ⟨mapAmounts f a.allocations, mapAmounts f a.feeIncome, mapAmounts f a.penaltyIncome⟩
  mapAmounts_id _ := by simp

instance : FaithfulForm Apportionment where
  ofJson?_toJson _ := ofJson?_toJson_of_fields rfl rfl (by simp; rfl)

instance : RegularForm Relief (n + 4) := ⟨fun _ => .obj (by simp) (by simp)⟩

instance : HasAmounts Relief where
  mapAmounts f r := { r with
    charge := mapAmounts f r.charge
    amount := mapAmounts f r.amount
    recognized := mapAmounts f r.recognized
    unrecognized := mapAmounts f r.unrecognized }
  mapAmounts_id _ := by simp

instance : FaithfulForm Relief where
  ofJson?_toJson _ := ofJson?_toJson_of_fields rfl rfl (by simp; rfl)

end LoanLedger
