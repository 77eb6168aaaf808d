import LoanLedger.Proofs.CatchUp
import LoanLedger.Proofs.Isolation.Faults
import LoanLedger.Proofs.Ledger.Watermark

/-!
Runs up to later dates. A run up to a date leaves the rows that are due by then with the interest of
their whole periods, as a run as of a date does. No row has less interest after a run up to a later
date than after one up to an earlier date, as long as the rows are not listed so that one that is due
breaks up those that are due later.
-/

set_option autoImplicit false
set_option relaxedAutoImplicit false

namespace LoanLedger

namespace Loan

/-- No amount that the interest of the loan is computed from is negative, and nothing negative has
accrued on its rows. -/
structure InterestNonneg (loan : Loan) : Prop where
  income : ∀ row ∈ loan.schedule, ∀ a, row.interestIncome = some a → 0 ≤ a.value
  periods : ∀ p ∈ loan.waivedPeriods, 0 ≤ p.waived.value
  waivers : ∀ a ∈ loan.waivers.flatMap InterestWaiver.amounts, 0 ≤ a.value
  accrued : ∀ row ∈ loan.schedule, ∀ c, 0 ≤ (Money.orZero (row.accrued c)).value

/-- The interest of a row of a loan when all that can accrue of its period has accrued, at the
precision of the currency; it keeps what it had if that is more. -/
def FullInterest (loan : Loan) (s : Settings) (row row' : ScheduleRow) : Prop :=
  ∃ i, ReconciledInterest.ofWaivers row loan.waivedPeriods loan.waivers row.dueDate = .ok i ∧
    (Money.orZero row'.accruedInterest).value = max (Money.orZero row.accruedInterest).value
      (Money.orZero (i.accruable.map fun m => m.round row.currency s.rounding)).value

variable {s : Settings} {t : RunTerms} {id : LoanId} {loan : Loan} {row : ScheduleRow} {e : Extent}
  {r : AccrualResult}

theorem InterestNonneg.sized (hn : loan.InterestNonneg) (hin : loan.InRange) : loan.Sized where
  small _ hrow c := ((hin.row hrow).small_accrued c).mono (by norm_num)
  nonneg := hn.accrued

theorem InterestNonneg.input (hn : loan.InterestNonneg) (hrow : row ∈ loan.schedule) :
    (loan.inputOn id []).InterestNonneg row :=
  ⟨hn.income row hrow, hn.periods, hn.waivers⟩

/-- A row that is taken up has the interest that its extent brings, or what it had if that is
more. -/
theorem interest_of_task (hs : loan.Sound id) (hin : loan.InRange) (hn : loan.InterestNonneg)
    (hresult : t.Yields id loan (t.fresh loan) r) (hrow : row ∈ loan.schedule)
    (htask : ({ row with accruedTill := loan.accruedTill }, e) ∈ plan t.mode (t.fresh loan)) :
    ∃ x, loan.targets t.settings row e = .ok x ∧
      (Money.orZero (settledBy r.postings row).accruedInterest).value =
        max (Money.orZero row.accruedInterest).value (Money.orZero x.interest).value := by
  obtain ⟨x, hx, hlift⟩ :=
    (SameTerms.refl loan).accrued_of_task hs hin (hn.sized hin) hresult hrow htask
  have hcredited : (Money.orZero (row.credited .interest)).value = 0 := Money.value_zero
  obtain ⟨-, hvalue⟩ := hlift .interest hcredited.ge
  refine ⟨x, hx, hvalue.trans ?_⟩
  simp only [ScheduleRow.full]
  rw [hcredited, sub_zero]
  rfl

theorem interest_of_due (hs : loan.Sound id) (hin : loan.InRange) (hn : loan.InterestNonneg)
    (hresult : t.Yields id loan (t.fresh loan) r) (hactive : loan.status.isActive = true)
    (hrow : row ∈ loan.schedule) (hdue : row.dueDate ≤ t.mode.reach t.today) :
    ∃ x, loan.targets t.settings row (.whole row.dueDate) = .ok x ∧
      (Money.orZero (settledBy r.postings row).accruedInterest).value =
        max (Money.orZero row.accruedInterest).value (Money.orZero x.interest).value := by
  obtain ⟨till, htill, htask⟩ := exists_task_of_due hactive hrow hdue
  obtain ⟨x, hx, hvalue⟩ := interest_of_task hs hin hn hresult hrow htask
  exact ⟨x, (AccrualInput.targets_whole htill).symm.trans hx, hvalue⟩

theorem fullInterest_of_due (hs : loan.Sound id) (hin : loan.InRange) (hn : loan.InterestNonneg)
    (hresult : t.Yields id loan (t.fresh loan) r) (hactive : loan.status.isActive = true)
    (hrow : row ∈ loan.schedule) (hdue : row.dueDate ≤ t.mode.reach t.today) :
    loan.FullInterest t.settings row (settledBy r.postings row) := by
  obtain ⟨x, hx, hvalue⟩ := interest_of_due hs hin hn hresult hactive hrow hdue
  obtain ⟨-, -, i, -, -, hi, hinterest, -, -⟩ := AccrualInput.targets_eq_ok.mp hx
  refine ⟨i, hi, ?_⟩
  rw [hvalue, ← Except.ok.inj hinterest]

theorem interest_le_settledBy (hs : loan.Sound id) (hin : loan.InRange) (hn : loan.InterestNonneg)
    (hresult : t.Yields id loan (t.fresh loan) r) (hrow : row ∈ loan.schedule) :
    (Money.orZero row.accruedInterest).value ≤
      (Money.orZero (settledBy r.postings row).accruedInterest).value := by
  rcases settledBy_eq_or_task hs hresult hrow with hsame | ⟨e, htask⟩
  · rw [hsame]
  · obtain ⟨x, -, hvalue⟩ := interest_of_task hs hin hn hresult hrow htask
    rw [hvalue]
    exact le_max_left _ _

end Loan

/-! What a run up to a later date takes up. -/

section Later

variable {till till' today today' : Date} {mark : Option Date} {row : ScheduleRow}

theorem isBehind_mono (hle : till ≤ till') (h : isBehind mark till = true) :
    isBehind mark till' = true := by
  cases mark with
  | none => rfl
  | some date =>
    have hdate : date < till := of_decide_eq_true h
    exact decide_eq_true (Int.lt_of_lt_of_le hdate hle)

theorem Ledger.isCandidate_mono (hle : till ≤ till')
    (h : isCandidate (.tillDate till) today row = true) :
    isCandidate (.tillDate till') today' row = true := by
  simp only [isCandidate, Bool.or_eq_true, decide_eq_true_eq] at h ⊢
  exact h.imp (Int.lt_of_lt_of_le · hle) (Date.le_trans · hle)

variable {s : Settings} {id : LoanId} {loan : Loan} {r r' : AccrualResult}

/-- A row that a run up to a date takes up, and that is not due by a later date, is taken up to both
dates by runs up to them. -/
private theorem mem_plan_later {e : Extent} (hle : till ≤ till')
    (hrows : ScheduleRow.Unbroken till (Ledger.candidatesOf (.tillDate till) today loan))
    (hrows' : ScheduleRow.Unbroken till' (Ledger.candidatesOf (.tillDate till') today' loan))
    (hrow : row ∈ loan.schedule) (hdue : till' < row.dueDate)
    (htask : ({ row with accruedTill := loan.accruedTill }, e) ∈
      plan (.tillDate till) (Ledger.candidatesOf (.tillDate till) today loan)) :
    e = .upTo till ∧ ({ row with accruedTill := loan.accruedTill }, .upTo till') ∈
      plan (.tillDate till') (Ledger.candidatesOf (.tillDate till') today' loan) := by
  have hmem := (plan_sublist _ _).subset (List.mem_map_of_mem (f := Prod.fst) htask)
  obtain ⟨hactive, stored, -, hcandidate, hstored⟩ := Ledger.mem_candidatesOf hmem
  have hcandidate : Ledger.isCandidate (.tillDate till) today row = true :=
    (congrArg (Ledger.isCandidate (.tillDate till) today) hstored).trans hcandidate
  cases e with
  | whole date =>
    obtain rfl : date = till := plan_till htask
    have hdate : row.dueDate ≤ date := plan_fits htask
    exact absurd (Date.le_trans hdate hle) (Date.not_le_iff.mpr hdue)
  | upTo date =>
    obtain ⟨-, rfl, -, hbehind⟩ := (mem_plan_upTo_iff hrows fun _ h =>
      RunTerms.accruedTill_fresh (t := ⟨.standard, .tillDate till, today⟩) h).mp htask
    have hcandidate' : Ledger.isCandidate (.tillDate till') today' row = true :=
      Ledger.isCandidate_mono hle hcandidate
    exact ⟨rfl, (mem_plan_upTo_iff hrows' fun _ h =>
      RunTerms.accruedTill_fresh (t := ⟨.standard, .tillDate till', today'⟩) h).mpr
      ⟨RunTerms.mem_fresh (t := ⟨.standard, .tillDate till', today'⟩) hactive hrow hcandidate', rfl,
        hdue, isBehind_mono hle hbehind⟩⟩

/-- The interest of a row after an accrual up to a later date is not less than after one up to an
earlier date. -/
theorem Loan.interest_settledBy_mono (hs : loan.Sound id) (hin : loan.InRange)
    (hn : loan.InterestNonneg) (hle : till ≤ till')
    (hresult : (⟨s, .tillDate till, today⟩ : RunTerms).Yields id loan
      (Ledger.candidatesOf (.tillDate till) today loan) r)
    (hresult' : (⟨s, .tillDate till', today'⟩ : RunTerms).Yields id loan
      (Ledger.candidatesOf (.tillDate till') today' loan) r')
    (hrows : ScheduleRow.Unbroken till (Ledger.candidatesOf (.tillDate till) today loan))
    (hrows' : ScheduleRow.Unbroken till' (Ledger.candidatesOf (.tillDate till') today' loan))
    (hrow : row ∈ loan.schedule) :
    (Money.orZero (settledBy r.postings row).accruedInterest).value ≤
      (Money.orZero (settledBy r'.postings row).accruedInterest).value := by
  rcases settledBy_eq_or_task hs hresult hrow with hsame | ⟨e, htask⟩
  · rw [hsame]
    exact interest_le_settledBy hs hin hn hresult' hrow
  obtain ⟨x, hx, hvalue⟩ := interest_of_task hs hin hn hresult hrow htask
  rw [hvalue]
  have hinput : (loan.inputOn loan.id []).InRange loan.charges row :=
    (SameTerms.refl loan).inputInRange hin hrow
  by_cases hdue : row.dueDate ≤ till'
  · have hmem := (plan_sublist _ _).subset (List.mem_map_of_mem (f := Prod.fst) htask)
    obtain ⟨hactive, -⟩ := Ledger.mem_candidatesOf hmem
    obtain ⟨x', hx', hvalue'⟩ := interest_of_due hs hin hn hresult' hactive hrow hdue
    rw [hvalue']
    refine max_le_max le_rfl ?_
    cases e with
    | whole date =>
      have hdate : row.dueDate ≤ date := plan_fits htask
      have hsame : x = x' :=
        Except.ok.inj (hx.symm.trans ((AccrualInput.targets_whole hdate).trans hx'))
      rw [hsame]
    | upTo date =>
      have hdate : date < row.dueDate := plan_fits htask
      exact AccrualInput.interest_mono hinput (hn.input hrow) (Int.le_of_lt hdate) hx hx'
  · obtain ⟨rfl, htask'⟩ :=
      mem_plan_later hle hrows hrows' hrow (Date.not_le_iff.mp hdue) htask
    obtain ⟨x', hx', hvalue'⟩ := interest_of_task hs hin hn hresult' hrow htask'
    rw [hvalue']
    exact max_le_max le_rfl (AccrualInput.interest_mono hinput (hn.input hrow) hle hx hx')

end Later

namespace Batch

variable {b : Books} {batch : Batch} {s : Settings} {id : LoanId} {loan : Loan} {mode : RunMode}
  {today : Date} {summary : RunSummary}

/-- A run without failures settles the rows of an active loan by what an accrual of it yields. -/
theorem run_settles (hfiled : b.ledger.Filed) (hloan : b.ledger.loans.find? id = some loan)
    (hsound : loan.Sound id) (hactive : loan.status.isActive = true) (hs : batch.settings = .ok s)
    (hok : (batch.run mode today none .never b).result = .ok summary) :
    ∃ loan' r, (batch.run mode today none .never b).books.ledger.loans.find? id =
        some loan' ∧
      (⟨s, mode, today⟩ : RunTerms).Yields id loan (Ledger.candidatesOf mode today loan) r ∧
      loan'.schedule = loan.schedule.map (Loan.settledBy r.postings) := by
  obtain ⟨log, hran⟩ := batch.run_ran_of_filed mode today .never b hs hfiled
  obtain ⟨loan', ok, hloan', hturn, hdone⟩ := hran.loan id loan hloan
  have hschedule := hturn.schedule_eq hsound
  cases hcandidates : Ledger.candidatesOf mode today loan with
  | nil =>
    rcases hturn.yields with hnil | ⟨r, hresult, hlog⟩
    · rw [hnil] at hschedule
      exact ⟨loan', ⟨id, [], [], loan.charges, none⟩, hloan', ⟨0, rfl⟩, hschedule⟩
    · rw [RunTerms.fresh, hcandidates] at hresult
      exact ⟨loan', r, hloan', hresult, hlog ▸ hschedule⟩
  | cons row rows =>
    have hrow : row ∈ Ledger.candidatesOf mode today loan := hcandidates ▸ List.mem_cons_self
    have hread : row ∈ (b.ledger.candidates none mode today).filter fun row => row.loanId = id := by
      rw [Ledger.filter_candidates hfiled, hloan, Option.toList_some, List.flatMap_singleton]
      exact hrow
    obtain ⟨hmem, hid⟩ := List.mem_filter.mp hread
    have hsucceeded := mem_succeeded_of_result hs (fun _ _ => rfl) hok hmem
    rw [of_decide_eq_true hid] at hsucceeded
    obtain rfl : ok = true := hdone hsucceeded
    obtain ⟨r, hresult, hlog⟩ := hturn.yields_of_success hactive
    rw [RunTerms.fresh, hcandidates] at hresult
    exact ⟨loan', r, hloan', hresult, hlog ▸ hschedule⟩

/-- A run without failures leaves the rows that are due by its date with the interest of their whole
periods. -/
theorem run_fullInterest (hfiled : b.ledger.Filed) (hloan : b.ledger.loans.find? id = some loan)
    (hsound : loan.Sound id) (hactive : loan.status.isActive = true) (hin : loan.InRange)
    (hn : loan.InterestNonneg) (hs : batch.settings = .ok s)
    (hok : (batch.run mode today none .never b).result = .ok summary) :
    ∃ loan', (batch.run mode today none .never b).books.ledger.loans.find? id =
        some loan' ∧
      List.Forall₂ (fun row row' => row.dueDate ≤ mode.reach today → loan.FullInterest s row row')
        loan.schedule loan'.schedule := by
  obtain ⟨loan', r, hloan', hresult, hschedule⟩ :=
    run_settles hfiled hloan hsound hactive hs hok
  refine ⟨loan', hloan', ?_⟩
  rw [hschedule]
  exact List.forall₂_map_right_iff.mpr (List.forall₂_same.mpr fun row hrow hdue =>
    Loan.fullInterest_of_due (t := ⟨s, mode, today⟩) hsound hin hn hresult hactive hrow hdue)

/-- A run up to a date that meets no failure leaves the rows that are due by then with the interest of
their whole periods, as a run as of a date does; and every row of the loan has no less interest than
after a run up to an earlier date, as long as none that is due stands between two that are due
later. -/
theorem run_interest {till today : Date} (hfiled : b.ledger.Filed)
    (hloan : b.ledger.loans.find? id = some loan) (hsound : loan.Sound id)
    (hactive : loan.status.isActive = true) (hin : loan.InRange) (hn : loan.InterestNonneg)
    (hs : batch.settings = .ok s)
    (hok : (batch.run (.tillDate till) today none .never b).result = .ok summary) :
    ∃ late, (batch.run (.tillDate till) today none .never b).books.ledger.loans.find? id =
        some late ∧
      List.Forall₂ (fun row row' => row.dueDate ≤ till → loan.FullInterest s row row')
        loan.schedule late.schedule ∧
      (∀ date whole, (batch.run .asOfToday date none .never b).result = .ok whole →
        ∃ due, (batch.run .asOfToday date none .never b).books.ledger.loans.find? id =
            some due ∧
          List.Forall₂ (fun row row' => row.dueDate ≤ date → loan.FullInterest s row row')
            loan.schedule due.schedule) ∧
      ∀ before processedOn cancellation, before ≤ till →
        ScheduleRow.Unbroken before (Ledger.candidatesOf (.tillDate before) processedOn loan) →
        ScheduleRow.Unbroken till (Ledger.candidatesOf (.tillDate till) today loan) →
        ∃ early, (batch.run (.tillDate before) processedOn none
            cancellation b).books.ledger.loans.find? id = some early ∧
          List.Forall₂ (fun row row' => row.SameTerms row' ∧
            (Money.orZero row.accruedInterest).value ≤ (Money.orZero row'.accruedInterest).value)
            early.schedule late.schedule := by
  obtain ⟨late, r', hlate, hresult', hschedule'⟩ :=
    run_settles hfiled hloan hsound hactive hs hok
  refine ⟨late, hlate, ?_, fun date whole hwhole =>
    run_fullInterest hfiled hloan hsound hactive hin hn hs hwhole, ?_⟩
  · obtain ⟨found, hfound, hfull⟩ := run_fullInterest hfiled hloan hsound hactive hin hn hs hok
    rw [Option.some.inj (hlate.symm.trans hfound)]
    exact hfull
  · intro before processedOn cancellation hle hrows hrows'
    obtain ⟨log, hran⟩ :=
      batch.run_ran_of_filed (.tillDate before) processedOn cancellation b hs hfiled
    obtain ⟨early, ok, hearly, hturn, -⟩ := hran.loan id loan hloan
    refine ⟨early, hearly, ?_⟩
    rw [hturn.schedule_eq hsound, hschedule']
    refine List.forall₂_map_left_iff.mpr (List.forall₂_map_right_iff.mpr
      (List.forall₂_same.mpr fun row hrow => ⟨?_, ?_⟩))
    · exact (Loan.settledBy_sameTerms _ row).symm.trans (Loan.settledBy_sameTerms _ row)
    · rcases hturn.yields with hnil | ⟨r, hresult, hlog⟩
      · rw [hnil]
        exact Loan.interest_le_settledBy hsound hin hn hresult' hrow
      · rw [← hlog]
        exact Loan.interest_settledBy_mono hsound hin hn hle hresult hresult' hrows hrows' hrow

end Batch

/-- 2024-01-16. -/
def midJanuary : Date := ⟨739206, by decide, by decide⟩

/-- A loan with a waiver of 45.00 on 2024-01-11, of which 17.00 had been recognized. -/
def waivedLoan : Loan :=
  { monthlyLoan [{ januaryRow with waivedInterest := some (cents 4500) }, februaryRow] [] with
    waivedPeriods := [⟨januaryRow.dueDate, cents 4500⟩]
    waivers := [⟨⟨739201, by decide, by decide⟩, cents 1700, cents 2800⟩] }

theorem Loan.interestNonneg_of_units {loan : Loan}
    (hrows : ∀ row ∈ loan.schedule, ∀ a ∈ row.amounts, 0 ≤ a.units)
    (hperiods : ∀ p ∈ loan.waivedPeriods, 0 ≤ p.waived.units)
    (hwaivers : ∀ a ∈ loan.waivers.flatMap InterestWaiver.amounts, 0 ≤ a.units) :
    loan.InterestNonneg where
  income row hrow a ha :=
    Money.value_nonneg_iff.mpr (hrows row hrow a (ScheduleRow.mem_amounts.mpr (.inl ha)))
  periods p hp := Money.value_nonneg_iff.mpr (hperiods p hp)
  waivers a ha := Money.value_nonneg_iff.mpr (hwaivers a ha)
  accrued row hrow c := by
    cases haccrued : row.accrued c with
    | none => rw [Money.orZero_none, Money.value_zero]
    | some a =>
      exact Money.value_nonneg_iff.mpr
        (hrows row hrow a (ScheduleRow.mem_amounts_of_accrued haccrued))

/-- The interest of the rows of the one loan after a run. -/
def interestAfter (loan : Loan) (mode : RunMode) : Option (List (Option Money)) :=
  ((standardBatch.run mode midFebruary none .never (booksOf loan)).books.ledger.loans.find?
    loan.id).map fun loan => loan.schedule.map (·.accruedInterest)

theorem run_interest_waivedLoan :
    interestAfter waivedLoan (.tillDate midJanuary) = some [some (cents 3600), none] ∧
    interestAfter waivedLoan (.tillDate midFebruary) =
      some [some (cents 7200), some (cents 5000)] ∧
    ∃ early late,
      (standardBatch.run (.tillDate midJanuary) midFebruary none
        .never (booksOf waivedLoan)).books.ledger.loans.find? 1 = some early ∧
      (standardBatch.run (.tillDate midFebruary) midFebruary none
        .never (booksOf waivedLoan)).books.ledger.loans.find? 1 = some late ∧
      List.Forall₂ (fun row row' => row.dueDate ≤ midFebruary →
        waivedLoan.FullInterest .standard row row') waivedLoan.schedule late.schedule ∧
      List.Forall₂ (fun row row' => row.SameTerms row' ∧
        (Money.orZero row.accruedInterest).value ≤ (Money.orZero row'.accruedInterest).value)
        early.schedule late.schedule := by
  have hsound : waivedLoan.Sound 1 := ⟨rfl, by decide, by decide⟩
  have hin : waivedLoan.InRange :=
    ⟨by unfold Money.Fine; decide +kernel, by decide, by decide +kernel⟩
  have hn : waivedLoan.InterestNonneg :=
    Loan.interestNonneg_of_units (by decide +kernel) (by decide +kernel) (by decide +kernel)
  have hok : (standardBatch.run (.tillDate midFebruary) midFebruary none
      .never (booksOf waivedLoan)).result =
        .ok ⟨[⟨1, 2, cents 12200, some midFebruary, 1⟩], [], []⟩ := by decide +kernel
  have hordered : ∀ till, ScheduleRow.Ordered
      (Ledger.candidatesOf (.tillDate till) midFebruary waivedLoan) := by
    intro till
    have hrows : ScheduleRow.Consecutive waivedLoan.schedule := ⟨by decide, by decide⟩
    exact RunTerms.ordered_fresh (t := ⟨.standard, .tillDate till, midFebruary⟩) hrows
  obtain ⟨late, hlate, hfull, -, hmono⟩ := Batch.run_interest (sound_booksOf hsound).filed
    (Table.find?_insert_self _ _ _) hsound rfl hin hn rfl hok
  obtain ⟨early, hearly, hle⟩ := hmono midJanuary midFebruary .never (by decide)
    ((hordered _).unbroken _) ((hordered _).unbroken _)
  exact ⟨by decide +kernel, by decide +kernel, early, late, hearly, hlate, hfull, hle⟩

/-- A loan of three installments, listed by their numbers, of which the second is due on 2024-01-31
and the other two on 2024-03-01. -/
def outOfOrderLoan : Loan :=
  let row (rowId : RowId) (n : InstallmentNumber) : Date → ScheduleRow :=
    monthlyRow rowId n januaryRow.fromDate
  monthlyLoan [row 101 1 firstOfMarch, row 102 2 januaryRow.dueDate, row 103 3 firstOfMarch] []

/-- A run up to a later date can leave a row with less interest: the row that is due on the date of
the run keeps it from a part of the row that is listed after it. -/
theorem interest_not_mono :
    ¬∀ (loan : Loan) (till till' : Date) (summary summary' : RunSummary) (early late : Loan),
      loan.Sound 1 → loan.status.isActive = true → loan.InRange → loan.InterestNonneg →
      till ≤ till' →
      (standardBatch.run (.tillDate till) midFebruary none .never (booksOf loan)).result =
        .ok summary →
      (standardBatch.run (.tillDate till') midFebruary none .never (booksOf loan)).result =
        .ok summary' →
      (standardBatch.run (.tillDate till) midFebruary none
        .never (booksOf loan)).books.ledger.loans.find? 1 = some early →
      (standardBatch.run (.tillDate till') midFebruary none
        .never (booksOf loan)).books.ledger.loans.find? 1 = some late →
      List.Forall₂ (fun row row' : ScheduleRow =>
        (Money.orZero row.accruedInterest).value ≤ (Money.orZero row'.accruedInterest).value)
        early.schedule late.schedule := by
  intro h
  have hsound : outOfOrderLoan.Sound 1 := ⟨rfl, by decide, by decide⟩
  have hin : outOfOrderLoan.InRange :=
    ⟨by unfold Money.Fine; decide +kernel, by decide, by decide +kernel⟩
  have hn : outOfOrderLoan.InterestNonneg :=
    Loan.interestNonneg_of_units (by decide +kernel) (by decide +kernel) (by decide +kernel)
  have hearly : interestAfter outOfOrderLoan (.tillDate midJanuary) =
      some [some (cents 2500), some (cents 5000), some (cents 2500)] := by decide +kernel
  have hlate : interestAfter outOfOrderLoan (.tillDate januaryRow.dueDate) =
      some [some (cents 5000), some (cents 10000), none] := by decide +kernel
  obtain ⟨early, hfound, hrows⟩ := Option.map_eq_some_iff.mp hearly
  obtain ⟨late, hfound', hrows'⟩ := Option.map_eq_some_iff.mp hlate
  have hle := h outOfOrderLoan midJanuary januaryRow.dueDate
    ⟨[⟨1, 3, cents 10000, some midJanuary, 1⟩], [], []⟩
    ⟨[⟨1, 2, cents 15000, some januaryRow.dueDate, 1⟩], [], []⟩ early late hsound rfl hin hn
    (by decide) (by decide +kernel) (by decide +kernel) hfound hfound'
  have hvalues : List.Forall₂ (fun a b : Option Money =>
      (Money.orZero a).value ≤ (Money.orZero b).value) (early.schedule.map (·.accruedInterest))
      (late.schedule.map (·.accruedInterest)) :=
    List.forall₂_map_left_iff.mpr (List.forall₂_map_right_iff.mpr hle)
  rw [hrows, hrows', List.forall₂_cons, List.forall₂_cons, List.forall₂_cons] at hvalues
  obtain ⟨-, -, hlast, -⟩ := hvalues
  exact absurd (Money.le_iff_value.mpr hlast) (by decide)

end LoanLedger
