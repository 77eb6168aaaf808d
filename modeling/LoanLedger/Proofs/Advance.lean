import LoanLedger.Proofs.CatchUp
import LoanLedger.Proofs.Explanation
import LoanLedger.Proofs.Ledger.Announced
import LoanLedger.Proofs.Ledger.Watermark

/-!
The date that a loan with consecutive rows is accrued to. Runs move it forward only, and charges may
be entered between them, as long as they bring nothing to the rows that are due by the date already.
A charge that does is accrued on such a row, and takes the date back to that row.
-/

set_option autoImplicit false
set_option relaxedAutoImplicit false

namespace LoanLedger

namespace Loan

/-- If a loan is accrued to a date, the later one is accrued to that date or to one after it. -/
def Onward (loan loan' : Loan) : Prop :=
  ∀ date, loan.accruedTill = some date → ∃ date', loan'.accruedTill = some date' ∧ date ≤ date'

theorem Onward.of_eq {loan loan' : Loan} (h : loan'.accruedTill = loan.accruedTill) :
    loan.Onward loan' := fun date hdate => ⟨date, h.trans hdate, Int.le_refl _⟩

/-- A loan of the terms of an earlier one with consecutive rows. Those of its rows that are due by the
date that it is accrued to have the whole of their income. The earlier loan is in range with the
charges that are still to be entered. -/
structure Abreast (s : Settings) (pending : List Charge) (loan₀ loan : Loan) : Prop where
  terms : loan₀.SameTerms loan
  inRange : ({ loan₀ with charges := loan₀.charges ++ pending } : Loan).InRange
  nonneg : ({ loan₀ with charges := loan₀.charges ++ pending } : Loan).Nonneg
  rows : ScheduleRow.Consecutive loan₀.schedule
  sized : loan.Sized
  met : ∀ date, loan.accruedTill = some date → loan.MetBy s date

variable {s : Settings} {t : RunTerms} {id : LoanId} {loan₀ loan loan' : Loan} {c : Charge}
  {pending : List Charge}

/-- A turn keeps a loan abreast, and moves the date that it is accrued to forward only. -/
theorem Turn.abreast {ok : Bool} {log : List Posting} (hturn : loan.Turn t id loan' ok log)
    (h : loan₀.Abreast t.settings pending loan) (hs : loan.Sound id) :
    loan₀.Abreast t.settings pending loan' ∧ loan.Onward loan' := by
  have hin : loan₀.InRange := h.inRange.withCharges (List.sublist_append_left _ _).subperm
  have hn : loan₀.Nonneg := h.nonneg.withCharges (List.subset_append_left _ _)
  obtain ⟨hterms, hsized, -⟩ := hturn.lifts h.terms hs hin hn h.sized
  have hwaiting : loan.Reversioned loan' →
      loan₀.Abreast t.settings pending loan' ∧ loan.Onward loan' := by
    intro hr
    have hdate : loan'.accruedTill = loan.accruedTill := congrArg (·.accruedTill) hr.same
    refine ⟨⟨hterms, h.inRange, h.nonneg, h.rows, hsized, fun date heq => ?_⟩, .of_eq hdate⟩
    exact (h.met date (hdate ▸ heq)).reversioned hr
  cases hturn with
  | fails hwaits => exact hwaiting hwaits.reversioned
  | idles hwaits _ => exact hwaiting hwaits.reversioned
  | @posts mid r _ hwaits hposts =>
    have hr := hwaits.reversioned
    have hmid : loan₀.SameTerms mid := h.terms.trans hr.sameTerms
    have hmidRows := h.rows.of_sameTerms hmid.rows
    have hmidSized := h.sized.reversioned hr
    obtain ⟨y, hy, hdate, hmet, -⟩ := hmid.marked_of_posts (hr.sound hs) hin hn hmidSized hmidRows
      hposts
    refine ⟨⟨hterms, h.inRange, h.nonneg, h.rows, hsized, fun date heq => ?_⟩, fun date heq => ?_⟩
    · rw [hdate] at heq
      exact Option.some.inj heq ▸ hmet
    · have hmidDate : mid.accruedTill = some date := (congrArg (·.accruedTill) hr.same).trans heq
      exact ⟨y.accruedTill, hdate, Int.le_of_lt (hmid.lt_accruedTill hin hmidSized hmidRows
        hposts.result hmidDate ((h.met date heq).reversioned hr) hy)⟩

/-- A charge that brings nothing to the rows which are due by the date that a loan is accrued to can be
entered anywhere among its charges. -/
theorem Abreast.enter (h : loan₀.Abreast s (c :: pending) loan)
    (hc : ∀ date, loan.accruedTill = some date → ∀ row ∈ loan.schedule, row.dueDate ≤ date →
      ∀ m, c.incomeIn s.policy row row.period = .ok m → m.value = 0) (position : Nat) :
    ({ loan₀ with charges := loan₀.charges.take position ++ c :: loan₀.charges.drop position } :
      Loan).Abreast s pending
      { loan with charges := loan.charges.take position ++ c :: loan.charges.drop position } := by
  have hall : (loan₀.charges.take position ++ c :: loan₀.charges.drop position ++ pending).Perm
      (loan₀.charges ++ c :: pending) :=
    ((take_cons_drop_perm loan₀.charges position c).append_right pending).trans
      List.perm_middle.symm
  have hterms : ({ loan₀ with
      charges := loan₀.charges.take position ++ c :: loan₀.charges.drop position } : Loan).SameTerms
      { loan with charges := loan.charges.take position ++ c :: loan.charges.drop position } := by
    refine ⟨?_, h.terms.rows, forall₂_take_cons_drop Charge.SameTerms.refl position c h.terms.charges⟩
    rw [h.terms.same]
  have hin := h.inRange.withCharges hall.subperm
  have hn := h.nonneg.withCharges hall.subset
  refine ⟨hterms, hin, hn, h.rows, ⟨h.sized.small, h.sized.nonneg⟩, ?_⟩
  intro date hdate row hrow hdue x hx
  obtain ⟨row₀, hrow₀, hrowTerms : row₀.SameTerms row⟩ := exists_mem_of_forall₂ h.terms.rows.flip hrow
  rw [hterms.targets, Loan.targets_congr _ hrowTerms] at hx
  have hperiod : c.incomeIn s.policy row row.period = c.incomeIn s.policy row₀ row₀.period := by
    rw [hrowTerms]
    rfl
  obtain ⟨y, hy, hle⟩ := loan₀.targets_without
    (hin.withCharges (List.sublist_append_left _ _).subperm)
    (hn.withCharges (List.subset_append_left _ _)) hrow₀
    (fun m hm => hc date hdate row hrow hdue m (hperiod.trans hm)) hx
  rw [List.take_append_drop] at hy
  refine (h.met date hdate row hrow hdue y ?_).mono hle
  rw [h.terms.targets, loan₀.targets_congr hrowTerms]
  exact hy

end Loan

variable {s : Settings} {id k : LoanId} {b : Books} {loan₀ : Loan} {pending : List Charge}

theorem Books.Holds.withCharges {P Q : Loan → Prop} {stored : Loan} {cs : List Charge}
    (h : b.Holds id P) (hstored : b.ledger.loans.find? k = some stored)
    (hsame : k = id → P stored → Q { stored with charges := cs })
    (hother : k ≠ id → ∀ loan, P loan → Q loan) :
    ({ b with ledger := b.ledger.withCharges k stored cs } : Books).Holds id Q := by
  obtain ⟨loan, hloan, hsound, hP⟩ := h.loan
  refine ⟨h.filed.withCharges hstored, ?_⟩
  by_cases hk : k = id
  · subst hk
    obtain rfl : stored = loan := Option.some.inj (hstored.symm.trans hloan)
    exact ⟨_, Table.find?_insert_self _ _ _, ⟨hsound.id_eq, hsound.rows, hsound.rowIds⟩, hsame rfl hP⟩
  · exact ⟨loan, (Table.find?_insert_of_ne _ (Ne.symm hk) _).trans hloan, hsound, hother hk loan hP⟩

theorem Books.Holds.relieve {P : Loan → Prop} (h : b.Holds id P) (hk : k ≠ id) (chargeId : ChargeId)
    (relief : LoanStatus → Charge → Except Failure Relief) :
    (b.relieve k chargeId relief).Holds id P := by
  simp only [Books.relieve]
  split
  · exact h
  · next d ledger hchange =>
    obtain ⟨stored, i, c, hstored, -, -, rfl⟩ := Ledger.changeCharge_eq_ok hchange
    exact h.withCharges hstored (fun heq => absurd heq hk) fun _ _ hP => hP

/-- A dealing that gives no cause to go back behind the date that a loan is accrued to: a run under
the settings, a charge that brings nothing to the rows of the loan which are due by that date, or
whatever is done to another loan. -/
def Dealing.InTime (s : Settings) (id : LoanId) (b : Books) : Dealing → Prop
  | call c => c.Under s
  | enter k _ c => k = id → ∀ loan date, b.ledger.loans.find? id = some loan →
      loan.accruedTill = some date → ∀ row ∈ loan.schedule, row.dueDate ≤ date →
        ∀ m, c.incomeIn s.policy row row.period = .ok m → m.value = 0
  | waive k _ _ => k ≠ id
  | undoWaive k _ _ => k ≠ id

/-- Dealings each of which gives no cause to go back. -/
def Books.InTime (s : Settings) (id : LoanId) : Books → List Dealing → Prop
  | _, [] => True
  | b, d :: ds => d.InTime s id b ∧ InTime s id (d.perform b) ds

/-- A dealing in time keeps the loan abreast. -/
theorem Dealing.perform_abreast {d : Dealing} (hd : d.InTime s id b)
    (h : b.Holds id fun loan => ∃ loan₀ : Loan, loan₀.Abreast s (d.entered id ++ pending) loan) :
    (d.perform b).Holds id fun loan => ∃ loan₀ : Loan, loan₀.Abreast s pending loan := by
  cases d with
  | call c =>
    refine c.perform_holds hd ?_ h
    rintro t loan loan' ok log rfl hturn hs ⟨loan₀, habreast⟩
    exact ⟨loan₀, (hturn.abreast habreast hs).1⟩
  | enter k position c =>
    have hother : k ≠ id → (enter k position c).entered id = [] := fun hk => if_neg hk
    simp only [perform, Books.enter]
    split
    · next hnone =>
      obtain ⟨loan, hloan, -⟩ := h.loan
      have hk : k ≠ id := by
        rintro rfl
        rw [hloan] at hnone
        cases hnone
      rw [hother hk] at h
      exact h
    · next stored hstored =>
      refine h.withCharges hstored ?_ fun hk loan habreast => ?_
      · rintro rfl ⟨loan₀, habreast⟩
        have hself : (enter k position c).entered k = [c] := if_pos rfl
        rw [hself] at habreast
        exact ⟨_, habreast.enter (fun date => hd rfl stored date hstored) position⟩
      · rw [hother hk] at habreast
        exact habreast
  | waive k chargeId requested => exact h.relieve hd chargeId _
  | undoWaive k chargeId requested => exact h.relieve hd chargeId _

theorem Books.afterDealings_abreast {dealings : List Dealing} (hdealings : b.InTime s id dealings)
    (h : b.Holds id fun loan => ∃ loan₀ : Loan,
      loan₀.Abreast s (dealings.flatMap (·.entered id)) loan) :
    (b.afterDealings dealings).Holds id fun loan => ∃ loan₀ : Loan, loan₀.Abreast s [] loan := by
  induction dealings generalizing b with
  | nil => exact h
  | cons d dealings ih =>
    obtain ⟨hd, hrest⟩ := hdealings
    exact ih hrest (d.perform_abreast hd h)

/-- A run after dealings in time leaves the loan accrued to the date that it was accrued to or to one
after it, and that is the date it announces, if any. -/
theorem Books.advances_afterDealings {before : List Dealing} {batch : Batch} (hfiled : b.ledger.Filed)
    (hloan : b.ledger.loans.find? id = some loan₀) (hsound : loan₀.Sound id)
    (hin : ({ loan₀ with charges := loan₀.charges ++ before.flatMap (·.entered id) } :
      Loan).InRange)
    (hn : ({ loan₀ with charges := loan₀.charges ++ before.flatMap (·.entered id) } : Loan).Nonneg)
    (hrows : ScheduleRow.Consecutive loan₀.schedule)
    (hmet : ∀ date, loan₀.accruedTill = some date → loan₀.MetBy s date)
    (hbefore : b.InTime s id before) (hs : batch.settings = .ok s) (mode : RunMode) (today : Date)
    (cancellation : Cancellation) :
    ∃ loan loan', (b.afterDealings before).ledger.loans.find? id = some loan ∧
      (b.afterDealings (before ++
        [.call (.run batch mode today cancellation)])).ledger.loans.find? id = some loan' ∧
      loan.Onward loan' ∧
      ∃ announced, (b.afterDealings (before ++
          [.call (.run batch mode today cancellation)])).events =
            (b.afterDealings before).events ++ announced ∧
        ∀ till, Event.accruedTillAdvanced id till ∈ announced → loan'.accruedTill = some till ∧
          ∀ date, loan.accruedTill = some date → date ≤ till := by
  have hstart : loan₀.Abreast s (before.flatMap (·.entered id)) loan₀ := by
    refine ⟨.refl loan₀, hin, hn, hrows, Loan.sized_of_inRange ?_ ?_, hmet⟩
    · exact hin.withCharges (List.sublist_append_left _ _).subperm
    · exact hn.withCharges (List.subset_append_left _ _)
  obtain ⟨hfiled', loan, hfound, hloanSound, loan₁, habreast⟩ :=
    afterDealings_abreast hbefore ⟨hfiled, loan₀, hloan, hsound, loan₀, hstart⟩
  obtain ⟨log, hran⟩ :=
    batch.run_ran_of_filed mode today cancellation (b.afterDealings before) hs hfiled'
  obtain ⟨loan', ok, hloan', hturn, -⟩ := hran.loan id loan hfound
  have honward := (hturn.abreast habreast hloanSound).2
  obtain ⟨announced, hevents, htold⟩ :=
    batch.run_announced mode today cancellation (b.afterDealings before) hs hfiled'
  have hlast : b.afterDealings (before ++ [.call (.run batch mode today cancellation)]) =
      (batch.run mode today none cancellation (b.afterDealings before)).books :=
    List.foldl_append
  rw [hlast]
  refine ⟨loan, loan', hfound, hloan', honward, announced, hevents, fun till he => ?_⟩
  obtain ⟨found, hfound', htill⟩ := htold id till he
  obtain rfl : found = loan' := Option.some.inj (hfound'.symm.trans hloan')
  refine ⟨htill, fun date hdate => ?_⟩
  obtain ⟨date', hdate', hle⟩ := honward date hdate
  rw [htill] at hdate'
  exact Option.some.inj hdate' ▸ hle

/-- A run up to 2024-02-15, and then a penalty that falls due on 2024-02-20. -/
def penaltyAhead : List Dealing :=
  [.call (.run standardBatch (.tillDate midFebruary) midFebruary .never), .enter 1 0 latePenalty]

private theorem inTime_penaltyAhead : (booksOf januaryFeeLoan).InTime .standard 1 penaltyAhead := by
  refine ⟨rfl, fun _ loan date hloan hdate row _ hdue m hm => ?_, trivial⟩
  have hstored : (((Dealing.call (.run standardBatch (.tillDate midFebruary) midFebruary
      .never)).perform (booksOf januaryFeeLoan)).ledger.loans.find? 1).map (·.accruedTill) =
        some (some midFebruary) := by decide +kernel
  rw [hloan] at hstored
  obtain rfl : date = midFebruary := Option.some.inj (hdate.symm.trans (Option.some.inj hstored))
  have hlater : row.dueDate < ⟨739241, by decide, by decide⟩ := Int.lt_of_le_of_lt hdue (by decide)
  have hnothing := @Charge.incomeIn_of_due .dueDate row latePenalty _ rfl hlater
  rw [Except.ok.inj (hm.symm.trans hnothing), Money.value_zero]

/-- The penalty is accrued as of 2024-03-01, with the rest of the row that it falls due in. -/
theorem advances_afterDealings_penaltyAhead :
    (((booksOf januaryFeeLoan).afterDealings penaltyAhead).ledger.loans.find? 1).map
      (·.accruedTill) = some (some midFebruary) ∧
    ∃ loan loan', ((booksOf januaryFeeLoan).afterDealings penaltyAhead).ledger.loans.find? 1 =
        some loan ∧
      ((booksOf januaryFeeLoan).afterDealings (penaltyAhead ++
        [.call (.run standardBatch .asOfToday firstOfMarch .never)])).ledger.loans.find? 1 =
          some loan' ∧
      loan.Onward loan' ∧
      ∃ announced, ((booksOf januaryFeeLoan).afterDealings (penaltyAhead ++
          [.call (.run standardBatch .asOfToday firstOfMarch .never)])).events =
            ((booksOf januaryFeeLoan).afterDealings penaltyAhead).events ++ announced ∧
        ∀ till, Event.accruedTillAdvanced 1 till ∈ announced → loan'.accruedTill = some till ∧
          ∀ date, loan.accruedTill = some date → date ≤ till := by
  have hstored : (booksOf januaryFeeLoan).ledger.loans.find? 1 = some januaryFeeLoan :=
    Table.find?_insert_self _ _ _
  refine ⟨by decide +kernel, Books.advances_afterDealings sound_januaryFeeLoan.filed hstored
    (sound_januaryFeeLoan 1 _ hstored) ?_ ?_ ⟨by decide, by decide⟩ (fun date hdate => nomatch hdate)
    inTime_penaltyAhead rfl .asOfToday firstOfMarch .never⟩
  · exact ⟨by unfold Money.Fine; decide +kernel, by decide, by decide +kernel⟩
  · exact Loan.nonneg_of_units (by decide +kernel) (by decide +kernel)

/-- A run up to 2024-02-15, and then the fee that fell due on 2024-01-10. -/
def feeBehind : List Dealing :=
  .call (.run standardBatch (.tillDate midFebruary) midFebruary .never) ::
    januaryFeeLoan.charges.map (.enter 1 0)

/-- A loan that is accrued to 2024-02-15. The next run up to that date accrues the fee on the January
row alone; the loan goes back to the end of January, and is announced as advanced to it. -/
theorem feeBehind_goes_back :
    ScheduleRow.Consecutive (monthlyLoan [januaryRow, februaryRow] []).schedule ∧
    (((booksOf (monthlyLoan [januaryRow, februaryRow] [])).afterDealings
      feeBehind).ledger.loans.find? 1).map (·.accruedTill) = some (some midFebruary) ∧
    (((booksOf (monthlyLoan [januaryRow, februaryRow] [])).afterDealings (feeBehind ++
      [.call (.run standardBatch (.tillDate midFebruary) midFebruary .never)])).ledger.loans.find?
        1).map (·.accruedTill) = some (some januaryRow.dueDate) ∧
    ((booksOf (monthlyLoan [januaryRow, februaryRow] [])).afterDealings (feeBehind ++
      [.call (.run standardBatch (.tillDate midFebruary) midFebruary .never)])).events.getLast? =
        some (.accruedTillAdvanced 1 januaryRow.dueDate) ∧
    januaryRow.dueDate < midFebruary := by
  exact ⟨⟨by decide, by decide⟩, by decide +kernel, by decide +kernel, by decide +kernel, by decide⟩

end LoanLedger
