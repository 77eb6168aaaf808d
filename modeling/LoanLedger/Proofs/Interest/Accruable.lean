import LoanLedger.Proofs.Interest.Load
import LoanLedger.Proofs.Interest.Pool

/-!
The interest of a row that can accrue. It is exact for a loan in range, it does not depend on what
has accrued, and by an earlier date no more of it can accrue.
-/

set_option autoImplicit false
set_option relaxedAutoImplicit false

namespace LoanLedger.ReconciledInterest

variable {row : ScheduleRow} {periods : List WaivedPeriod} {ws : List InterestWaiver}
  {till till' : Date} {i i' : ReconciledInterest}

/-- What is reported of a row with waived interest is read off the pool that its periods leave. -/
theorem ofWaivers_of_waived {waived : Money} (hwaived : row.waivedInterest = some waived)
    (h : ofWaivers row periods ws till = .ok i) : ∃ p excess accruable,
      periods.foldlM (Pool.replay row) ⟨applicable row till ws, .zero, .zero, .zero⟩ = .ok p ∧
      (if p.recognized < waived then waived.sub p.recognized else pure .zero) = .ok excess ∧
      (Money.orZero row.interestIncome).monus excess = .ok accruable ∧
      (Money.orZero row.interestIncome).sub accruable = .ok i.reduction ∧
      i.nominal = row.interestIncome ∧ i.accruable = (row.interestIncome.map fun _ => accruable) ∧
      i.shortfall = p.uncovered := by
  unfold ofWaivers at h
  rw [hwaived] at h
  obtain ⟨p, hp, hrest⟩ := bind_eq_ok.mp h
  have hfinish : ∀ {excess : Money} {step : Except Fault ReconciledInterest},
      (do
        let accruable ← (Money.orZero row.interestIncome).monus excess
        let reduction ← (Money.orZero row.interestIncome).sub accruable
        return ⟨row.interestIncome, row.interestIncome.map fun _ => accruable, reduction,
          p.uncovered⟩) = step → step = .ok i →
      ∃ accruable, (Money.orZero row.interestIncome).monus excess = .ok accruable ∧
        (Money.orZero row.interestIncome).sub accruable = .ok i.reduction ∧
        i.nominal = row.interestIncome ∧ i.accruable = (row.interestIncome.map fun _ => accruable) ∧
        i.shortfall = p.uncovered := by
    rintro excess step rfl hstep
    obtain ⟨accruable, haccruable, hstep⟩ := bind_eq_ok.mp hstep
    obtain ⟨reduction, hreduction, hi⟩ := bind_eq_ok.mp hstep
    rw [← pure_eq_ok.mp hi]
    exact ⟨accruable, haccruable, hreduction, rfl, rfl, rfl⟩
  dsimp only at hrest
  split at hrest
  · next hlt =>
    obtain ⟨excess, hexcess, hrest⟩ := bind_eq_ok.mp hrest
    obtain ⟨accruable, haccruable, hi⟩ := hfinish rfl hrest
    exact ⟨p, excess, accruable, hp, by rw [if_pos hlt, hexcess], haccruable, hi⟩
  · next hnlt =>
    obtain ⟨excess, hexcess, hrest⟩ := bind_eq_ok.mp hrest
    obtain ⟨accruable, haccruable, hi⟩ := hfinish rfl hrest
    exact ⟨p, excess, accruable, hp, by rw [if_neg hnlt, hexcess], haccruable, hi⟩

theorem ofWaivers_of_unwaived (hnone : row.waivedInterest = none) :
    ofWaivers row periods ws till = .ok (unchanged row.interestIncome) := by
  rw [ofWaivers, hnone]

/-- Without waived interest a row accrues its interest, else what the waivers leave of it. -/
theorem ofWaivers_cases (h : ofWaivers row periods ws till = .ok i) :
    (row.waivedInterest = none ∧ i.accruable = row.interestIncome) ∨
    (∃ waived p excess accruable, row.waivedInterest = some waived ∧
      periods.foldlM (Pool.replay row) ⟨applicable row till ws, .zero, .zero, .zero⟩ = .ok p ∧
      (if p.recognized < waived then waived.sub p.recognized else pure .zero) = .ok excess ∧
      (Money.orZero row.interestIncome).monus excess = .ok accruable ∧
      i.accruable = row.interestIncome.map fun _ => accruable) := by
  cases hwaived : row.waivedInterest with
  | none =>
    rw [ofWaivers_of_unwaived hwaived] at h
    exact .inl ⟨rfl, congrArg accruable (Except.ok.inj h).symm⟩
  | some waived =>
    obtain ⟨p, excess, accruable, hp, hexcess, haccruable, -, -, hsame, -⟩ :=
      ofWaivers_of_waived hwaived h
    exact .inr ⟨waived, p, excess, accruable, rfl, hp, hexcess, haccruable, hsame⟩

theorem ofWaivers_of_dueDate_le (h : row.dueDate ≤ till) :
    ofWaivers row periods ws till = ofWaivers row periods ws row.dueDate := by
  simp only [ofWaivers]
  rw [applicable_of_dueDate_le h]

private theorem row_size : |(Money.orZero row.interestIncome).value| +
    |(Money.orZero row.waivedInterest).value| ≤ totalSize row.amounts := by
  simp only [ScheduleRow.amounts]
  rw [totalSize_reduceOption]
  have h₁ := abs_nonneg (Money.orZero row.accruedInterest).value
  have h₂ := abs_nonneg (Money.orZero row.accruedFee).value
  have h₃ := abs_nonneg (Money.orZero row.accruedPenalty).value
  have h₄ := abs_nonneg (Money.orZero row.creditedFee).value
  have h₅ := abs_nonneg (Money.orZero row.creditedPenalty).value
  simp only [List.map_cons, List.map_nil, List.sum_cons, List.sum_nil]
  linarith

theorem start_nonneg (hwaivers : ∀ a ∈ ws.flatMap InterestWaiver.amounts, 0 ≤ a.value) :
    (⟨applicable row till ws, .zero, .zero, .zero⟩ : Pool).Nonneg := by
  refine ⟨fun a ha => ?_, le_of_eq Money.value_zero.symm, le_of_eq Money.value_zero.symm,
    le_of_eq Money.value_zero.symm⟩
  obtain ⟨v, hv, ha⟩ := List.mem_flatMap.mp ha
  exact hwaivers a (List.mem_flatMap.mpr ⟨v, (applicable_subperm row till ws).subset hv, ha⟩)

section Exact

variable (hrow : row.WaiversInRange periods ws)

include hrow

theorem start_fits : Pool.Fits (totalSize (ws.flatMap InterestWaiver.amounts))
    ⟨applicable row till ws, .zero, .zero, .zero⟩ := by
  obtain ⟨l, hperm, hsub⟩ := applicable_subperm row till ws
  have hsize : totalSize ((applicable row till ws).flatMap InterestWaiver.amounts) =
      totalSize (l.flatMap InterestWaiver.amounts) :=
    ((hperm.symm.flatMap_right _).map _).sum_eq
  refine ⟨fun a ha => ?_, Money.fine_zero, Money.fine_zero, Money.fine_zero, ?_⟩
  · obtain ⟨w, hw, ha⟩ := List.mem_flatMap.mp ha
    exact hrow.waiversFine a (List.mem_flatMap.mpr ⟨w, hsub.subset (hperm.symm.subset hw), ha⟩)
  · rw [Money.value_zero, abs_zero, add_zero, add_zero, zero_add, hsize]
    exact totalSize_le_of_sublist (hsub.flatMap _)

theorem replay_room : totalSize (ws.flatMap InterestWaiver.amounts) +
    totalSize (periods.map (·.waived)) < Money.room := by
  have hsize := hrow.size
  have := totalSize_nonneg row.amounts
  simp only [Money.room]
  linarith

/-- What can accrue, by the recognized part that is left. -/
theorem accruable_value {waived excess accruable : Money} {p : Pool}
    (hwaived : row.waivedInterest = some waived)
    (hp : periods.foldlM (Pool.replay row) ⟨applicable row till ws, .zero, .zero, .zero⟩ = .ok p)
    (hexcess : (if p.recognized < waived then waived.sub p.recognized else pure .zero) = .ok excess)
    (haccruable : (Money.orZero row.interestIncome).monus excess = .ok accruable) :
    accruable.Fine ∧ |accruable.value| < 10 ^ 18 ∧
      accruable.value = max ((Money.orZero row.interestIncome).value -
        max (waived.value - p.recognized.value) 0) 0 := by
  have hfits := (start_fits hrow).foldlM hrow.periodsFine (replay_room hrow) hp
  have hpSize := hfits.size
  have hrowSize : |(Money.orZero row.interestIncome).value| +
      |(Money.orZero row.waivedInterest).value| ≤ totalSize row.amounts := row_size
  have hsize := hrow.size
  have hpending := totalSize_nonneg (p.pending.flatMap InterestWaiver.amounts)
  have h₁ := abs_nonneg p.unrecognized.value
  have h₂ := abs_nonneg p.uncovered.value
  have h₃ := abs_nonneg (Money.orZero row.interestIncome).value
  have h₄ := abs_nonneg p.recognized.value
  have hdiff := abs_sub waived.value p.recognized.value
  have hwaivedFine : waived.Fine :=
    hrow.rowFine _ (ScheduleRow.mem_amounts.mpr (.inr (.inr (.inr (.inr (.inl hwaived))))))
  have hnominalFine : (Money.orZero row.interestIncome).Fine :=
    Money.fine_orZero fun a ha => hrow.rowFine a (ScheduleRow.mem_amounts.mpr (.inl ha))
  rw [hwaived, Money.orZero_some] at hrowSize
  have hexcessExact : excess.Fine ∧ excess.value = max (waived.value - p.recognized.value) 0 ∧
      |excess.value| ≤ |waived.value| + |p.recognized.value| := by
    split at hexcess
    · next hlt =>
      have hlt := Money.lt_iff_value.mp hlt
      obtain ⟨hfine, hvalue⟩ := Money.sub_value hexcess hwaivedFine hfits.recognized
        (by unfold Money.room; linarith)
      exact ⟨hfine, by rw [hvalue, max_eq_left (by linarith)], by rw [hvalue]; exact hdiff⟩
    · next hnlt =>
      have hle := not_lt.mp fun hlt => hnlt (Money.lt_iff_value.mpr hlt)
      rw [← pure_eq_ok.mp hexcess, Money.value_zero, max_eq_right (by linarith), abs_zero]
      have := abs_nonneg waived.value
      exact ⟨Money.fine_zero, rfl, by linarith⟩
  obtain ⟨hexcessFine, hexcessValue, hexcessSize⟩ := hexcessExact
  have htriangle := abs_sub (Money.orZero row.interestIncome).value excess.value
  obtain ⟨hfine, hvalue⟩ := Money.monus_value haccruable hnominalFine hexcessFine
    (by unfold Money.room; linarith)
  refine ⟨hfine, ?_, by rw [hvalue, hexcessValue]⟩
  have hle : |accruable.value| ≤ |(Money.orZero row.interestIncome).value - excess.value| := by
    rw [hvalue, abs_of_nonneg (le_max_right _ _)]
    exact max_le (le_abs_self _) (abs_nonneg _)
  linarith

/-- The interest that can accrue is exact. -/
theorem ofWaivers_fine (h : ofWaivers row periods ws till = .ok i) {a : Money}
    (ha : i.accruable = some a) : a.Fine ∧ |a.value| < 10 ^ 18 := by
  rcases ofWaivers_cases h with ⟨-, hsame⟩ | ⟨w, p, e, x, hw, hp, he, hx, hsame⟩
  · rw [hsame] at ha
    have hmem : a ∈ row.amounts := ScheduleRow.mem_amounts.mpr (.inl ha)
    have hle := abs_le_totalSize hmem
    have hsize := hrow.size
    have hperiods := totalSize_nonneg (periods.map (·.waived))
    have hwaivers := totalSize_nonneg (ws.flatMap InterestWaiver.amounts)
    exact ⟨hrow.rowFine a hmem, by linarith⟩
  · rw [hsame] at ha
    obtain ⟨-, -, rfl⟩ := Option.map_eq_some_iff.mp ha
    obtain ⟨hfine, hlt, -⟩ := accruable_value hrow hw hp he hx
    exact ⟨hfine, hlt⟩

theorem exists_ofWaivers (till : Date) : ∃ i, ofWaivers row periods ws till = .ok i := by
  have hsize := hrow.size
  have hloads := row.interest_loads_le
  have hroom : 2 * 10 ^ 19 ≤ Money.capacity := by norm_num [Money.capacity]
  obtain ⟨i, hi, -⟩ := exists_ofWaivers_of_load row periods ws till (by linarith) hroom
  exact ⟨i, hi⟩

/-- No more interest can accrue than the row has. -/
theorem ofWaivers_le (hincome : ∀ a, row.interestIncome = some a → 0 ≤ a.value)
    (h : ofWaivers row periods ws till = .ok i) {a : Money} (ha : i.accruable = some a) :
    ∃ n, row.interestIncome = some n ∧ a.value ≤ n.value := by
  rcases ofWaivers_cases h with ⟨-, hsame⟩ | ⟨w, p, e, x, hw, hp, he, hx, hsame⟩
  · exact ⟨a, hsame.symm.trans ha, le_rfl⟩
  · rw [hsame] at ha
    obtain ⟨n, hn, rfl⟩ := Option.map_eq_some_iff.mp ha
    obtain ⟨-, -, hvalue⟩ := accruable_value hrow hw hp he hx
    have hnonneg := hincome n hn
    have hexcess := le_max_right (w.value - p.recognized.value) 0
    refine ⟨n, hn, ?_⟩
    rw [hvalue, hn, Money.orZero_some]
    exact max_le (by linarith) hnonneg

/-- Of a row and waivers without negative amounts, no more can accrue by an earlier date. -/
theorem ofWaivers_mono (hincome : ∀ a, row.interestIncome = some a → 0 ≤ a.value)
    (hperiods : ∀ p ∈ periods, 0 ≤ p.waived.value)
    (hwaivers : ∀ a ∈ ws.flatMap InterestWaiver.amounts, 0 ≤ a.value) (htill : till ≤ till')
    (h : ofWaivers row periods ws till = .ok i) (h' : ofWaivers row periods ws till' = .ok i')
    {a : Money} (ha : i.accruable = some a) :
    0 ≤ a.value ∧ ∃ a', i'.accruable = some a' ∧ a.value ≤ a'.value := by
  rcases ofWaivers_cases h with ⟨hnone, hsame⟩ | ⟨w, p, e, x, hw, hp, he, hx, hsame⟩ <;>
    rcases ofWaivers_cases h' with ⟨hnone', hsame'⟩ | ⟨w', p', e', x', hw', hp', he', hx', hsame'⟩
  · rw [hsame] at ha
    exact ⟨hincome a ha, a, hsame'.trans ha, le_rfl⟩
  · rw [hnone] at hw'
    cases hw'
  · rw [hw] at hnone'
    cases hnone'
  · rw [hw] at hw'
    cases hw'
    rw [hsame] at ha
    obtain ⟨income, hincome, rfl⟩ := Option.map_eq_some_iff.mp ha
    obtain ⟨-, -, hvalue⟩ := accruable_value hrow hw hp he hx
    obtain ⟨-, -, hvalue'⟩ := accruable_value hrow hw hp' he' hx'
    have hmirrors : Pool.Mirrors ⟨applicable row till ws, .zero, .zero, .zero⟩
        ⟨applicable row till' ws, .zero, .zero, .zero⟩ := .inl ⟨rfl, applicable_isPrefix htill ws⟩
    have hle := hmirrors.foldlM (start_fits hrow) (start_fits hrow) (start_nonneg hwaivers)
      (start_nonneg hwaivers)
      (fun period hperiod => ⟨hrow.periodsFine period hperiod, hperiods period hperiod⟩)
      (replay_room hrow) hp hp'
    refine ⟨by rw [hvalue]; exact le_max_right _ _, x', by rw [hsame', hincome]; rfl, ?_⟩
    rw [hvalue, hvalue']
    gcongr

end Exact
end LoanLedger.ReconciledInterest
