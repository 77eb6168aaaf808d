import LoanLedger.Proofs.Record.Charge
import LoanLedger.Proofs.Record.Schedule
import LoanLedger.Record.Accrual

/-!
Accruals come back from their JSON form: reconciled interest, postings, journal entries, and what is
read of a loan before it is accrued.
-/

set_option autoImplicit false
set_option relaxedAutoImplicit false

namespace LoanLedger

open Json.FieldReader (ofJson?_toJson_of_fields)

variable {n : Nat}

instance : RegularForm AccrualTag n := ⟨fun _ => .str _⟩

instance : HasAmounts AccrualTag := ⟨fun _ => id, fun _ => rfl⟩

instance : AmountFree AccrualTag := ⟨fun _ _ => rfl⟩

instance : FaithfulForm AccrualTag := ⟨fun _ => rfl⟩

instance : RegularForm ReconciledInterest (n + 1) := ⟨fun _ => .obj (by simp) (by simp)⟩

instance : HasAmounts ReconciledInterest where
  mapAmounts f r :=
    ⟨mapAmounts f r.nominal, mapAmounts f r.accruable, mapAmounts f r.reduction,
      mapAmounts f r.shortfall⟩
  mapAmounts_id _ := by simp

instance : FaithfulForm ReconciledInterest where
  ofJson?_toJson _ := ofJson?_toJson_of_fields rfl rfl (by simp; rfl)

instance : RegularForm Accrual (n + 2) := ⟨fun _ => .obj (by simp) (by simp)⟩

instance : HasAmounts Accrual where
  mapAmounts f t := { t with
    amount := mapAmounts f t.amount
    interest := mapAmounts f t.interest
    fee := mapAmounts f t.fee
    penalty := mapAmounts f t.penalty }
  mapAmounts_id _ := by simp

instance : FaithfulForm Accrual where
  ofJson?_toJson _ := ofJson?_toJson_of_fields rfl rfl (by simp; rfl)

instance : RegularForm ChargePayment (n + 1) := ⟨fun _ => .obj (by simp) (by simp)⟩

instance : HasAmounts ChargePayment where
  mapAmounts f p := { p with amount := mapAmounts f p.amount }
  mapAmounts_id _ := by simp

instance : FaithfulForm ChargePayment where
  ofJson?_toJson _ := ofJson?_toJson_of_fields rfl rfl (by simp; rfl)

instance : RegularForm RowTotals (n + 1) := ⟨fun _ => .obj (by simp) (by simp)⟩

instance : HasAmounts RowTotals where
  mapAmounts f t := { t with
    interest := mapAmounts f t.interest
    fee := mapAmounts f t.fee
    penalty := mapAmounts f t.penalty }
  mapAmounts_id _ := by simp

instance : FaithfulForm RowTotals where
  ofJson?_toJson _ := ofJson?_toJson_of_fields rfl rfl (by simp; rfl)

instance : RegularForm Posting (n + 3) := ⟨fun _ => .obj (by simp) (by simp)⟩

instance : HasAmounts Posting where
  mapAmounts f p := { p with
    transaction := mapAmounts f p.transaction
    payments := mapAmounts f p.payments
    allocations := mapAmounts f p.allocations
    totals := mapAmounts f p.totals }
  mapAmounts_id _ := by simp

instance : FaithfulForm Posting where
  ofJson?_toJson _ := ofJson?_toJson_of_fields rfl rfl (by simp; rfl)

instance : RegularForm JournalCharge (n + 1) := ⟨fun _ => .obj (by simp) (by simp)⟩

instance : HasAmounts JournalCharge where
  mapAmounts f c := { c with amount := mapAmounts f c.amount }
  mapAmounts_id _ := by simp

instance : FaithfulForm JournalCharge where
  ofJson?_toJson _ := ofJson?_toJson_of_fields rfl rfl (by simp; rfl)

instance : RegularForm JournalTransaction (n + 3) where
  regular
    | { charges := [], .. } => .obj (by simp) (by simp)
    | { charges := _ :: _, .. } => .obj (by simp) (by simp)

instance : HasAmounts JournalTransaction where
  mapAmounts f t := { t with
    amount := mapAmounts f t.amount
    principal := mapAmounts f t.principal
    interest := mapAmounts f t.interest
    fee := mapAmounts f t.fee
    penalty := mapAmounts f t.penalty
    overpayment := mapAmounts f t.overpayment
    charges := mapAmounts f t.charges }
  mapAmounts_id _ := by simp

/-- Charges that were left out because there are none are read as none. -/
instance : FaithfulForm JournalTransaction where
  ofJson?_toJson
    | { charges := [], .. } => ofJson?_toJson_of_fields rfl rfl (by simp; rfl)
    | { charges := _ :: _, .. } => ofJson?_toJson_of_fields rfl rfl (by simp; rfl)

instance : RegularForm JournalEntry (n + 5) := ⟨fun _ => .obj (by simp) (by simp)⟩

instance : HasAmounts JournalEntry where
  mapAmounts f e := { e with transactions := mapAmounts f e.transactions }
  mapAmounts_id _ := by simp

instance : FaithfulForm JournalEntry where
  ofJson?_toJson _ := ofJson?_toJson_of_fields rfl rfl (by simp; rfl)

instance : RegularForm AccrualInput (n + 5) := ⟨fun _ => .obj (by simp) (by simp)⟩

instance : HasAmounts AccrualInput where
  mapAmounts f i := { i with
    candidates := mapAmounts f i.candidates
    charges := mapAmounts f i.charges
    waivedPeriods := mapAmounts f i.waivedPeriods
    waivers := mapAmounts f i.waivers }
  mapAmounts_id _ := by simp

instance : FaithfulForm AccrualInput where
  ofJson?_toJson _ := ofJson?_toJson_of_fields rfl rfl (by simp; rfl)

instance : RegularForm LoanSnapshot (n + 5) := ⟨fun _ => .obj (by simp) (by simp)⟩

instance : HasAmounts LoanSnapshot where
  mapAmounts f s := { s with
    charges := mapAmounts f s.charges
    waivedPeriods := mapAmounts f s.waivedPeriods
    waivers := mapAmounts f s.waivers }
  mapAmounts_id _ := by simp

instance : FaithfulForm LoanSnapshot where
  ofJson?_toJson _ := ofJson?_toJson_of_fields rfl rfl (by simp; rfl)

end LoanLedger
