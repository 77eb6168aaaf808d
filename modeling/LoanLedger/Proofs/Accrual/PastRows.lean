import LoanLedger.Proofs.Accrual.Unmarked
import LoanLedger.Proofs.Consistency
import LoanLedger.Proofs.Isolation.Renaming

/-!
Rows that are due. A run up to a date by which all candidate rows are due does what a run as of today
does: it accrues each row in full, whatever the loan is accrued to, and no waiver counts that would
not count on the due date of the row.
-/

set_option autoImplicit false
set_option relaxedAutoImplicit false

namespace LoanLedger

variable {input : AccrualInput} {s : Settings} {processedOn till : Date} {row : ScheduleRow}
  {rows : List ScheduleRow}

/-- From the due date on, the interest of a row does not depend on the date up to which waivers
count. -/
theorem ReconciledInterest.ofWaivers_of_due (hdue : row.dueDate ≤ till) (periods : List WaivedPeriod)
    (waivers : List InterestWaiver) :
    ofWaivers row periods waivers till = ofWaivers row periods waivers row.dueDate := by
  simp only [ofWaivers]
  rw [applicable_of_dueDate_le hdue]

namespace AccrualInput

theorem prepare_of_due (hdue : row.dueDate ≤ till) (policy : ChargePolicy) (cs : List Charge)
    (w : Window) : input.prepare policy row cs w till = input.prepare policy row cs w row.dueDate := by
  simp only [prepare]
  rw [ReconciledInterest.ofWaivers_of_due hdue]

theorem accruePeriod_of_due (hdue : row.dueDate ≤ till) (g : Progress) :
    input.accruePeriod s processedOn till g row =
      input.accruePeriod s processedOn row.dueDate g row := by
  simp only [accruePeriod]
  rw [prepare_of_due hdue]

/-- Over rows that are due, a run up to a date differs from a run as of today in its mark alone. -/
private theorem foldlM_accrueRow_of_due (hdue : ∀ row ∈ rows, row.dueDate ≤ till) (g : Progress) :
    (rows.foldlM (input.accrueRow s processedOn till) g).map (·.remark none true) =
      rows.foldlM (input.accrueNext .asOfToday s processedOn) (g.remark none true) := by
  induction rows generalizing g with
  | nil => rfl
  | cons row rows ih =>
    obtain ⟨hrow, hdue⟩ := List.forall_mem_cons.mp hdue
    have hpast : ¬till < row.dueDate := Int.not_lt.mpr hrow
    rw [List.foldlM_cons, List.foldlM_cons, accrueRow, if_neg hpast, accruePeriod_of_due hrow]
    show _ = input.accruePeriod s processedOn row.dueDate (g.remark none true) row >>= _
    rw [accruePeriod_remark]
    cases input.accruePeriod s processedOn row.dueDate g row with
    | error f => rfl
    | ok g' => exact ih hdue { g' with mark := some row.dueDate }

/-- Both modes of a run agree on rows that are due, in their results and in their failures; under
other transaction numbers they differ in these alone. -/
theorem accrue_pastRows (hdue : ∀ row ∈ input.candidates, row.dueDate ≤ till) (s : Settings)
    (processedOn : Date) (n : Nat) :
    input.accrue (.tillDate till) s processedOn n = input.accrue .asOfToday s processedOn n ∧
      ∀ m, ∃ f, Function.Bijective f ∧ input.accrue (.tillDate till) s processedOn m =
        AccrualResult.rename f <$> input.accrue .asOfToday s processedOn n := by
  have hsame : ∀ k, input.accrue (.tillDate till) s processedOn k =
      input.accrue .asOfToday s processedOn k := by
    intro k
    have hrows : (input.accrueRows (.tillDate till) s processedOn k).map (·.remark none true) =
        input.accrueRows .asOfToday s processedOn k := foldlM_accrueRow_of_due hdue _
    simp only [accrue]
    rw [← hrows]
    cases input.validate with
    | error r => rfl
    | ok u => cases input.accrueRows (.tillDate till) s processedOn k <;> rfl
  refine ⟨hsame n, fun m => ?_⟩
  obtain ⟨f, hf, hm⟩ := input.accrue_renumber s processedOn .asOfToday n m
  exact ⟨f, hf, (hsame m).trans hm⟩

end AccrualInput

/-- Two rows of a loan that was accrued to dates within and after them, with a waiver of 57.20 in the
second period for the interest of the first. -/
def lateWaiverInput : AccrualInput where
  loanId := 1
  candidates := [
    { januaryRow with accruedTill := some firstOfMarch, waivedInterest := some (cents 4700) },
    { februaryRow with accruedTill := some midFebruary, waivedInterest := some (cents 1060) }]
  charges := januaryFeeLoan.charges
  waivedPeriods := [⟨januaryRow.dueDate, cents 4700⟩, ⟨februaryRow.dueDate, cents 1060⟩]
  waivers := [⟨midFebruary, cents 5200, cents 520⟩]

/-- The waiver does not count for the first row in either mode. -/
theorem accrue_pastRows_lateWaiver :
    (∀ row ∈ lateWaiverInput.candidates, row.dueDate ≤ firstOfMarch) ∧
    lateWaiverInput.accrue (.tillDate firstOfMarch) .standard firstOfMarch 0 =
      lateWaiverInput.accrue .asOfToday .standard firstOfMarch 0 ∧
    (∃ f, Function.Bijective f ∧
      lateWaiverInput.accrue (.tillDate firstOfMarch) .standard firstOfMarch 7 =
        AccrualResult.rename f <$> lateWaiverInput.accrue .asOfToday .standard firstOfMarch 0) ∧
    (lateWaiverInput.accrue .asOfToday .standard firstOfMarch 0).toOption.map
      (fun r => r.postings.map (·.transaction.amount)) = some [cents 6300, cents 9440] := by
  have hdue : ∀ row ∈ lateWaiverInput.candidates, row.dueDate ≤ firstOfMarch := by decide
  obtain ⟨hsame, hrenamed⟩ :=
    AccrualInput.accrue_pastRows hdue .standard firstOfMarch 0
  exact ⟨hdue, hsame, hrenamed 7, by decide +kernel⟩

end LoanLedger
