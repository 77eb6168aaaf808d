import LoanLedger.Proofs.Accrual.Load
import LoanLedger.Proofs.Arrears.Agreement
import LoanLedger.Proofs.Arrears.Load

/-!
The working range. Amounts of any sign and any scale that stay below `10 ^ 27` together are far
enough from the limit for all that is computed from them: no accrual of a loan and no computation
of arrears can fault.
-/

set_option autoImplicit false
set_option relaxedAutoImplicit false

namespace LoanLedger

/-- In the working range there are results. A loan with distinct charges is accrued in any mode
and with any settings, unless its schedule is refused; installments have their arrears; repayments
can be laid over issued periods, and covered periods, those or any others, have their arrears. -/
theorem exists_results_of_size :
    (∀ (input : AccrualInput) (mode : RunMode) (s : Settings) (processedOn : Date) (firstId : Nat),
      (input.charges.map (·.id)).Nodup → totalSize input.figures < 10 ^ 27 →
        (∃ r, input.accrue mode s processedOn firstId = .ok r) ∨
          ∃ text, input.accrue mode s processedOn firstId =
            .error (.refusal (.invalidSchedule input.loanId text))) ∧
    (∀ (loan : LoanId) (installments : List Installment) (today : Date),
      totalSize (installments.flatMap Installment.amounts) < 10 ^ 27 →
        ∃ r, Arrears.ofInstallments loan installments today = .ok r) ∧
    (∀ (periods : List IssuedPeriod) (t : RepaymentTotals),
      totalSize (t.amounts ++ periods.flatMap IssuedPeriod.amounts) < 10 ^ 27 →
        ∃ covered, CoveredPeriod.ofRepayments periods t = .ok covered ∧
          ∀ (loan : LoanId) (today : Date), ∃ r, Arrears.ofCovered loan covered today = .ok r) ∧
    ∀ (loan : LoanId) (covered : List CoveredPeriod) (today : Date),
      totalSize (covered.flatMap CoveredPeriod.amounts) < 10 ^ 27 →
        ∃ r, Arrears.ofCovered loan covered today = .ok r := by
  have hcapacity : Money.capacity = 7 * 10 ^ 28 := rfl
  refine ⟨fun input mode s processedOn firstId hids h => ?_, fun loan installments today h => ?_,
    fun periods t h => ?_, fun loan covered today h => ?_⟩
  · exact AccrualInput.accrue_total hids h mode s processedOn firstId
  · exact Arrears.exists_ofInstallments_of_load loan today (by linarith)
  · have hroom : 30 * totalSize (t.amounts ++ periods.flatMap IssuedPeriod.amounts) ≤
        Money.capacity := by linarith
    obtain ⟨covered, hcovered, hload⟩ := CoveredPeriod.exists_ofRepayments_of_load hroom
    exact ⟨covered, hcovered, fun loan today => Arrears.exists_ofCovered_of_load loan today hload⟩
  · have hsum : (covered.map fun c => 1 / 10 * c.load).sum ≤
        totalSize (covered.flatMap CoveredPeriod.amounts) :=
      sum_le_totalSize_flatMap fun c _ => by linarith [c.load_le_amounts]
    rw [List.sum_map_mul_left] at hsum
    exact Arrears.exists_ofCovered_of_load loan today (by linarith)

/-! Large amounts inside the range: a row with four hundred septillions of interest, of which some
was waived, up to a day of its period, and as much outstanding on an installment. -/

/-- So many times `10 ^ 26`. -/
def hundredSeptillions (n : Int) : Money := .ofInt (n * 10 ^ 26)

/-- 2024-01-09. -/
def ninthOfJanuary : Date := ⟨739191 + 8, by decide, by decide⟩

/-- A row and a period before it with waived interest, a waiver with both parts, and a fee. -/
def largeInput : AccrualInput where
  loanId := 1
  candidates := [{ januaryRow with
    interestIncome := some (hundredSeptillions 4)
    waivedInterest := some (hundredSeptillions (-1)) }]
  charges := [{ tenFee 501 januaryRow.dueDate with amount := hundredSeptillions 1 }]
  waivedPeriods := [⟨januaryRow.fromDate, hundredSeptillions 1⟩]
  waivers := [⟨januaryRow.fromDate, hundredSeptillions 1, hundredSeptillions 1⟩]

/-- An installment with some of its principal paid and a negative interest. -/
def largeInstallment : Installment where
  number := 1
  fromDate := januaryRow.fromDate
  dueDate := januaryRow.dueDate
  principal := ⟨hundredSeptillions 6, hundredSeptillions 2, .zero, .zero⟩
  interest := .ofDue (hundredSeptillions (-1))
  fee := .ofDue .zero
  penalty := .ofDue .zero

/-- A period with more paid on it than is due. -/
def overpaidPeriod : CoveredPeriod where
  period := ⟨1, januaryRow.dueDate, hundredSeptillions 3, .zero, .zero, .zero⟩
  principal := hundredSeptillions 6
  interest := .zero
  fee := .zero
  penalty := .zero
  complete := false

theorem exists_results_of_size_large :
    (∃ r, largeInput.accrue (.tillDate ninthOfJanuary) .standard midFebruary 1 = .ok r) ∧
    (∃ r, Arrears.ofInstallments 1 [largeInstallment] midFebruary = .ok r) ∧
    (∃ covered, CoveredPeriod.ofRepayments winterPeriods principalOnly = .ok covered ∧
      ∃ r, Arrears.ofCovered 1 covered midFebruary = .ok r) ∧
    ∃ r, Arrears.ofCovered 1 [overpaidPeriod] midFebruary = .ok r := by
  obtain ⟨haccrue, hlive, hissued, hcovered⟩ := exists_results_of_size
  refine ⟨?_, hlive 1 [largeInstallment] midFebruary (by decide +kernel), ?_,
    hcovered 1 [overpaidPeriod] midFebruary (by decide +kernel)⟩
  · refine (haccrue largeInput (.tillDate ninthOfJanuary) .standard midFebruary 1 (by decide)
      (by decide +kernel)).resolve_right ?_
    -- the schedule is valid, and what comes after its validation refuses nothing
    rintro ⟨text, hrefused⟩
    have hvalid : largeInput.validate = .ok () := by decide +kernel
    simp only [AccrualInput.accrue] at hrefused
    rw [hvalid] at hrefused
    cases hrows : largeInput.accrueRows (.tillDate ninthOfJanuary) .standard midFebruary 1 with
    | error f =>
      rw [hrows] at hrefused
      cases hrefused
    | ok g =>
      rw [hrows] at hrefused
      cases hrefused
  · obtain ⟨covered, hcovered, hrow⟩ := hissued winterPeriods principalOnly (by decide +kernel)
    exact ⟨covered, hcovered, hrow 1 midFebruary⟩

end LoanLedger
