import LoanLedger.Proofs.Record.Accrual
import LoanLedger.Proofs.Record.Arrears
import LoanLedger.Proofs.Record.Settings

/-!
Every record comes back from its JSON form and from the document that is its text.
-/

set_option autoImplicit false
set_option relaxedAutoImplicit false

namespace LoanLedger

/-- Every value of the type is read back from its JSON form and from the document that is written of
it. What is read is the same value, in which no amount of zero has a sign. -/
def ComesBack (α : Type) [JsonForm α] [HasAmounts α] : Prop :=
  ∀ a : α, ofJson? (toJson a) = some (mapAmounts Money.unsignedZero a) ∧
    decode? α (toString (toJson a)) = some (mapAmounts Money.unsignedZero a)

theorem comesBack (α : Type) [JsonForm α] [HasAmounts α] [RegularForm α 127] [FaithfulForm α] :
    ComesBack α :=
  fun a => ⟨FaithfulForm.ofJson?_toJson a, decode?_toString a⟩

/-- The records of the ledger come back: amounts with their value and their decimal places, missing
values as missing, and a list of charges that is left out where it is empty as the empty list. The
text of settings is accepted exactly when they are valid. -/
theorem every_record_comesBack :
    (∀ a : Money, a.unsignedZero.units = a.units ∧ a.unsignedZero.scale = a.scale) ∧
      mapAmounts Money.unsignedZero (none : Option Money) = none ∧
      (∀ t : JournalTransaction,
        Json.member? "loanChargesPaid" (toJson { t with charges := [] }) = none) ∧
      (ComesBack Money ∧ ComesBack Currency ∧ ComesBack ChargePolicy ∧ ComesBack AccountingMethod ∧
        ComesBack RoundingMode ∧ ComesBack LoanStatus ∧ ComesBack RunMode) ∧
      (ComesBack ScheduleRow ∧ ComesBack Window ∧ ComesBack WaivedPeriod ∧
        ComesBack InterestWaiver ∧ ComesBack IssuedPeriod ∧ ComesBack Component ∧
        ComesBack Installment ∧ ComesBack RepaymentTotals) ∧
      (ComesBack ChargeShare ∧ ComesBack Charge ∧ ComesBack Allocation ∧
        ComesBack Apportionment ∧ ComesBack Relief) ∧
      (ComesBack ReconciledInterest ∧ ComesBack AccrualTag ∧ ComesBack Accrual ∧
        ComesBack ChargePayment ∧ ComesBack RowTotals ∧ ComesBack Posting ∧
        ComesBack JournalCharge ∧ ComesBack JournalTransaction ∧ ComesBack JournalEntry ∧
        ComesBack AccrualInput ∧ ComesBack LoanSnapshot) ∧
      (ComesBack CoveredPeriod ∧ ComesBack Arrears ∧ ComesBack ArrearsChange ∧
        ComesBack AgeingProfile ∧ ComesBack Event ∧ ComesBack Activity) ∧
      (ComesBack RetryPolicy ∧ ComesBack AgeingSettings ∧ ComesBack Settings) ∧
      ∀ s : Settings, Settings.ofText (toString (toJson s)) = s.validate.map fun _ => s := by
  have hcharges (t : JournalTransaction) :
      Json.member? "loanChargesPaid" (toJson { t with charges := [] }) = none := by
    change List.lookup "loanChargesPaid" (_ ++ _) = none
    simp
  exact ⟨fun a => ⟨Money.units_unsignedZero a, Money.scale_unsignedZero a⟩, rfl, hcharges,
    ⟨comesBack _, comesBack _, comesBack _, comesBack _, comesBack _, comesBack _, comesBack _⟩,
    ⟨comesBack _, comesBack _, comesBack _, comesBack _, comesBack _, comesBack _, comesBack _,
      comesBack _⟩,
    ⟨comesBack _, comesBack _, comesBack _, comesBack _, comesBack _⟩,
    ⟨comesBack _, comesBack _, comesBack _, comesBack _, comesBack _, comesBack _, comesBack _,
      comesBack _, comesBack _, comesBack _, comesBack _⟩,
    ⟨comesBack _, comesBack _, comesBack _, comesBack _, comesBack _, comesBack _⟩,
    ⟨comesBack _, comesBack _, comesBack _⟩, Settings.ofText_toString⟩

end LoanLedger
