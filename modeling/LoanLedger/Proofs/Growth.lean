import LoanLedger.Proofs.CatchUp

/-!
Growth of accruals. Whatever runs are made, no column of a row ever loses anything, and none comes to
more than the nominal income of its row, unless it held more from the start.
-/

set_option autoImplicit false
set_option relaxedAutoImplicit false

namespace LoanLedger

/-- The nominal income of a row at the precision of its currency: all of its interest, and the fees
and penalties that an apportionment brings it. -/
def ScheduleRow.nominal (rounding : RoundingMode) (row : ScheduleRow) (a : Apportionment) :
    Column → Option Money
  | .interest => row.interestIncome.map fun m => m.round row.currency rounding
  | .fee => a.feeIncome.map fun m => m.round row.currency rounding
  | .penalty => a.penaltyIncome.map fun m => m.round row.currency rounding

/-- A row that holds no more in a column than its nominal income, less what was credited, unless it
held more at the start. -/
def ScheduleRow.WithinNominal (s : Settings) (cs : List Charge) (row₀ row : ScheduleRow) : Prop :=
  ∃ a, Apportionment.ofCharges s.policy row₀ row₀.period cs = .ok a ∧
    ∀ c, (Money.orZero (row.accrued c)).value + (Money.orZero (row.credited c)).value ≤
      max ((Money.orZero (row₀.accrued c)).value + (Money.orZero (row₀.credited c)).value)
        (Money.orZero (row₀.nominal s.rounding a c)).value

variable {s : Settings} {id : LoanId} {loan₀ loan : Loan} {row₀ row : ScheduleRow}

/-- The targets of a whole period do not exceed the nominal income; fees and penalties reach it. -/
theorem AccrualInput.whole_le_nominal {input : AccrualInput} {cs : List Charge} {x : Targets}
    {a : Apportionment} (hin : input.InRange cs row) (hn : input.Nonneg cs row)
    (hx : input.targets s cs row (.whole row.dueDate) = .ok x)
    (ha : Apportionment.ofCharges s.policy row row.period cs = .ok a) (c : Column) :
    (Money.orZero (x.of c)).value ≤ (Money.orZero (row.nominal s.rounding a c)).value := by
  obtain ⟨fee, penalty, i, hfee, hpenalty, hi, hinterest, hxFee, hxPenalty⟩ :=
    AccrualInput.targets_eq_ok.mp hx
  obtain ⟨fee', penalty', hfee', hpenalty', haFee, haPenalty⟩ := Apportionment.ofCharges_income ha
  cases c with
  | interest =>
    have hxInterest : x.interest = i.accruable.map fun m => m.round row.currency s.rounding :=
      (Except.ok.inj hinterest).symm
    show (Money.orZero x.interest).value ≤
      (Money.orZero (row.interestIncome.map fun m => m.round row.currency s.rounding)).value
    rw [hxInterest]
    cases hm : i.accruable with
    | none =>
      rw [Option.map_none, Money.orZero_none, Money.value_zero]
      cases hincome : row.interestIncome with
      | none => rw [Option.map_none, Money.orZero_none, Money.value_zero]
      | some n => exact Money.roundTo_nonneg (hn.income n hincome) _ _
    | some m =>
      obtain ⟨n, hincome, hle⟩ := ReconciledInterest.ofWaivers_le hin.waivers hn.income hi hm
      obtain ⟨hnonneg, -⟩ := ReconciledInterest.ofWaivers_mono hin.waivers hn.income hn.periods
        hn.waivers (Int.le_refl _) hi hi hm
      rw [hincome]
      exact Money.roundTo_mono hnonneg hle _ _
  | fee =>
    have hsame : fee' = fee := Except.ok.inj (hfee'.symm.trans hfee)
    show (Money.orZero x.fee).value ≤ (Money.orZero (a.feeIncome.map _)).value
    rw [hxFee, haFee, hsame]
  | penalty =>
    have hsame : penalty' = penalty := Except.ok.inj (hpenalty'.symm.trans hpenalty)
    show (Money.orZero x.penalty).value ≤ (Money.orZero (a.penaltyIncome.map _)).value
    rw [hxPenalty, haPenalty, hsame]

/-- A row on its way to the whole of its income stays within its nominal income. -/
theorem Loan.Approaches.withinNominal (h : loan₀.Approaches s loan) (hin : loan₀.InRange)
    (hn : loan₀.Nonneg) (hcharges : ∀ c ∈ loan₀.charges, c.AccruedNonneg) :
    List.Forall₂ (fun row₀ row => row₀.SameTerms row ∧ row₀.WithinNominal s loan₀.charges row)
      loan₀.schedule loan.schedule := by
  refine (forall₂_mem h.rows).imp fun row₀ row ⟨hrow₀, _, happroaches⟩ => ⟨happroaches.terms, ?_⟩
  have hrefl := SameTerms.refl loan₀
  have hrowIn : (loan₀.inputOn loan₀.id []).InRange loan₀.charges row₀ :=
    hrefl.inputInRange hin hrow₀
  obtain ⟨a, ha⟩ := Apportionment.exists_ofCharges s.policy row₀ row₀.period hrowIn.chargesFine
    hrowIn.chargesSize hcharges
  obtain ⟨x, hx⟩ := AccrualInput.exists_targets s (.whole row₀.dueDate) hrowIn hcharges
  refine ⟨a, ha, fun c => ?_⟩
  have hcredited := happroaches.terms.credited c
  have hfull := happroaches.le_full x hx c
  have hnominal := AccrualInput.whole_le_nominal hrowIn (hrefl.inputNonneg hn hrow₀) hx ha c
  rw [hcredited]
  rcases le_max_iff.mp hfull with hkept | hreached
  · exact le_max_of_le_left (add_le_add_left hkept _)
  · exact le_max_of_le_right (by linarith)

/-- Between any two points of a sequence of calls no column loses anything, and at any point each
holds no more than the nominal income of its row, less what was credited, or than at the start. -/
theorem Books.growth_afterCalls {b : Books} {before after : List Call} (hfiled : b.ledger.Filed)
    (hloan : b.ledger.loans.find? id = some loan₀) (hsound : loan₀.Sound id) (hin : loan₀.InRange)
    (hn : loan₀.Nonneg) (hcharges : ∀ c ∈ loan₀.charges, c.AccruedNonneg)
    (hcalls : ∀ call ∈ before ++ after, call.Under s) :
    ∃ mid now, (b.afterCalls before).ledger.loans.find? id = some mid ∧
      (b.afterCalls (before ++ after)).ledger.loans.find? id = some now ∧
      mid.Rises now ∧
      List.Forall₂ (fun row₀ row => row₀.SameTerms row ∧ row₀.WithinNominal s loan₀.charges row)
        loan₀.schedule now.schedule := by
  obtain ⟨hbefore, hafter⟩ := List.forall_mem_append.mp hcalls
  obtain ⟨hfiledMid, mid, hmid, hmidSound, hmidApproaches, -⟩ :=
    afterCalls_approaches hbefore hfiled hin hn hloan hsound (.refl hin)
  obtain ⟨-, now, hnow, -, happroaches, hrises⟩ :=
    afterCalls_approaches hafter hfiledMid hin hn hmid hmidSound hmidApproaches
  refine ⟨mid, now, hmid, ?_, hrises, happroaches.withinNominal hin hn hcharges⟩
  simp only [afterCalls]
  rw [List.foldl_append]
  exact hnow

/-- Up to 2024-01-17, then up to 2024-02-15 after a conflict, then as of 2024-03-01. -/
theorem growth_afterCalls_januaryFee :
    ((booksOf januaryFeeLoan).afterCalls (partialCalls ++
      [.run standardBatch .asOfToday firstOfMarch .never])).ledger.transactions.map (·.amount) =
        [cents 6333, cents 4667, cents 5000, cents 5000] ∧
    ∃ mid now, ((booksOf januaryFeeLoan).afterCalls partialCalls).ledger.loans.find? 1 = some mid ∧
      ((booksOf januaryFeeLoan).afterCalls (partialCalls ++
        [.run standardBatch .asOfToday firstOfMarch .never])).ledger.loans.find? 1 = some now ∧
      mid.Rises now ∧
      List.Forall₂ (fun row₀ row => row₀.SameTerms row ∧
        row₀.WithinNominal .standard januaryFeeLoan.charges row)
        januaryFeeLoan.schedule now.schedule := by
  have hstored : (booksOf januaryFeeLoan).ledger.loans.find? 1 = some januaryFeeLoan :=
    Table.find?_insert_self _ _ _
  refine ⟨by decide +kernel, Books.growth_afterCalls sound_januaryFeeLoan.filed hstored
    (sound_januaryFeeLoan 1 _ hstored) inRange_januaryFeeLoan nonneg_januaryFeeLoan
    accruedNonneg_januaryFeeLoan ?_⟩
  exact List.forall_mem_append.mpr ⟨partialCalls_under, by
    simp only [List.mem_singleton, forall_eq]
    rfl⟩

end LoanLedger
