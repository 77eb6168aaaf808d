import LoanLedger.Proofs.Accrual.Unmarked
import LoanLedger.Proofs.Ledger.Lift

/-!
The date that a loan is accrued to, on consecutive rows. A run that posts leaves the rows that are due
by the new date with the whole of their income, and the row whose period the date falls into with its
part; and as long as the former holds of the date before, the run moves it forward.
-/

set_option autoImplicit false
set_option relaxedAutoImplicit false

namespace LoanLedger

/-- The candidate rows of a loan with consecutive rows are in the order of their due dates. -/
theorem RunTerms.ordered_fresh {t : RunTerms} {loan : Loan}
    (h : ScheduleRow.Consecutive loan.schedule) : ScheduleRow.Ordered (t.fresh loan) := by
  simp only [RunTerms.fresh, Ledger.candidatesOf]
  split
  · exact List.pairwise_map.mpr (h.ordered.sublist List.filter_sublist)
  · exact .nil

/-- A run up to a date takes up a part of those rows only whose period the date falls into. -/
theorem RunTerms.within_of_mem_plan {t : RunTerms} {loan : Loan} {row : ScheduleRow}
    {stamp : Option Date} {till : Date}
    (h : ({ row with accruedTill := stamp }, .upTo till) ∈ plan t.mode (t.fresh loan)) :
    row.fromDate < till ∧ till < row.dueDate := by
  have hfits : till < row.dueDate := plan_fits h
  have hfresh : { row with accruedTill := stamp } ∈ t.fresh loan :=
    (plan_sublist t.mode (t.fresh loan)).subset (List.mem_map_of_mem (f := Prod.fst) h)
  obtain ⟨-, stored, -, hcandidate, hstored⟩ := Ledger.mem_candidatesOf hfresh
  have hfrom : row.fromDate = stored.fromDate := congrArg (·.fromDate) hstored
  have hdue : row.dueDate = stored.dueDate := congrArg (·.dueDate) hstored
  rw [eq_tillDate_of_mem_plan h] at hcandidate
  simp only [Ledger.isCandidate, Bool.or_eq_true, decide_eq_true_eq] at hcandidate
  rw [← hfrom, ← hdue] at hcandidate
  exact ⟨hcandidate.resolve_right (Date.not_le_iff.mpr hfits), hfits⟩

namespace Loan

/-- The rows of a loan that are due by a date hold the whole of their income. -/
def MetBy (s : Settings) (date : Date) (loan : Loan) : Prop :=
  ∀ row ∈ loan.schedule, row.dueDate ≤ date →
    ∀ x, loan.targets s row (.whole row.dueDate) = .ok x → row.Meets x

/-- A row of a loan whose period a date falls into holds its income up to the date. -/
def MetWithin (s : Settings) (date : Date) (loan : Loan) : Prop :=
  ∀ row ∈ loan.schedule, row.fromDate < date → date < row.dueDate →
    ∀ x, loan.targets s row (.upTo date) = .ok x → row.Meets x

variable {s : Settings} {t : RunTerms} {id : LoanId} {loan₀ loan loan' : Loan}
  {row later : ScheduleRow} {e : Extent} {r : AccrualResult} {date : Date}

theorem SameTerms.targets (h : loan₀.SameTerms loan) (row : ScheduleRow) (e : Extent) :
    loan.targets s row e = loan₀.targets s row e := by
  rw [h.targets_eq loan.id []]
  exact AccrualInput.targets_congr (.refl row) h.charges

theorem MetBy.reversioned (h : loan.MetBy s date) (hr : loan.Reversioned loan') :
    loan'.MetBy s date := by
  rw [hr.same]
  exact h

theorem MetWithin.reversioned (h : loan.MetWithin s date) (hr : loan.Reversioned loan') :
    loan'.MetWithin s date := by
  rw [hr.same]
  exact h

/-- What a posting of an accrual tells: the task that it came of, and that the row of the task had
not reached its targets. -/
theorem SameTerms.task_of_posting (h : loan₀.SameTerms loan) (hin : loan₀.InRange)
    (hsized : loan.Sized) (hresult : t.Yields id loan (t.fresh loan) r) {y : Posting}
    (hy : y ∈ r.postings) : ∃ row ∈ loan.schedule, ∃ e x,
      ({ row with accruedTill := loan.accruedTill }, e) ∈ plan t.mode (t.fresh loan) ∧
        y.accruedTill = e.accruedTill row ∧ loan₀.targets t.settings row e = .ok x ∧
        ¬row.Meets x := by
  obtain ⟨n, hresult⟩ := hresult
  obtain ⟨-, ⟨os, hos, hpostings⟩, -, -⟩ := AccrualInput.accrue_eq_ok hresult
  obtain ⟨⟨cand, e⟩, htask, cs, id', p, hcs, hpropose⟩ := hos.exists_task (hpostings ▸ hy)
  have hfresh : cand ∈ t.fresh loan :=
    (plan_sublist t.mode (t.fresh loan)).subset (List.mem_map_of_mem (f := Prod.fst) htask)
  obtain ⟨-, row, hrow, -, rfl⟩ := Ledger.mem_candidatesOf hfresh
  obtain ⟨row₀, hrow₀, hterms : row₀.SameTerms row⟩ := exists_mem_of_forall₂ h.rows.flip hrow
  have hcolumn : ∀ c, ({ row with accruedTill := loan.accruedTill } : ScheduleRow).accrued c =
      row.accrued c := fun c => by cases c <;> rfl
  have hstamped : row₀.SameTerms { row with accruedTill := loan.accruedTill } := hterms.trans rfl
  obtain ⟨x, hx, hnot⟩ := AccrualInput.not_meets_of_posts (h.inputInRange hin hrow₀)
    hstamped (Charge.forall₂_sameTerms_trans h.charges hcs)
    (fun c => hcolumn c ▸ hsized.small row hrow c) hpropose
  refine ⟨row, hrow, e, x, htask, (AccrualInput.propose_isFor hpropose).2.2.1, ?_, fun hmeets => ?_⟩
  · rw [loan₀.targets_congr hterms, h.targets_eq id (t.fresh loan), hx]
  · exact hnot fun c => by
      have hc := hmeets c
      cases c <;> exact hc

/-- An accrual posts nothing up to the date that the loan is accrued to, if the rows that are due by
then have the whole of their income. -/
theorem SameTerms.lt_accruedTill (h : loan₀.SameTerms loan) (hin : loan₀.InRange)
    (hsized : loan.Sized) (hrows : ScheduleRow.Consecutive loan.schedule)
    (hresult : t.Yields id loan (t.fresh loan) r) (hdate : loan.accruedTill = some date)
    (hmet : loan.MetBy t.settings date) {y : Posting} (hy : y ∈ r.postings) :
    date < y.accruedTill := by
  obtain ⟨row, hrow, e, x, htask, htill, hx, hnot⟩ := h.task_of_posting hin hsized hresult hy
  rw [htill]
  have hfits := plan_fits htask
  cases e with
  | whole till =>
    have hfits : row.dueDate ≤ till := hfits
    refine Date.not_le_iff.mp fun hdue => hnot (hmet row hrow hdue x ?_)
    rw [h.targets, ← hx]
    exact (AccrualInput.targets_whole hfits).symm
  | upTo till =>
    rw [eq_tillDate_of_mem_plan htask] at htask
    obtain ⟨-, -, -, hbehind⟩ :=
      (mem_plan_upTo_iff ((RunTerms.ordered_fresh hrows).unbroken till)
        fun row hrow => (RunTerms.accruedTill_fresh hrow).trans hdate).mp htask
    exact of_decide_eq_true hbehind

/-- What a run does to a loan with consecutive rows when it posts: the loan is accrued to the date of
the last posting. The rows that are due by then have the whole of their income, and a row whose
period the date falls into has its income up to the date. -/
theorem SameTerms.marked_of_posts {mid : Loan} (h : loan₀.SameTerms mid) (hs : mid.Sound id)
    (hin : loan₀.InRange) (hn : loan₀.Nonneg) (hsized : mid.Sized)
    (hrows : ScheduleRow.Consecutive mid.schedule)
    (hposts : t.Posts id (t.fresh mid) mid loan' r) :
    ∃ y ∈ r.postings, loan'.accruedTill = some y.accruedTill ∧
      loan'.MetBy t.settings y.accruedTill ∧ loan'.MetWithin t.settings y.accruedTill := by
  obtain ⟨n, haccrue⟩ := hposts.result
  obtain ⟨-, -, -, htill⟩ := AccrualInput.accrue_eq_ok haccrue
  obtain ⟨y, hy⟩ := Option.isSome_iff_exists.mp (List.getLast?_isSome.mpr hposts.nonempty)
  have hmem := List.mem_of_getLast? hy
  have hloan' := (hposts.accepted_eq hs).1
  have hterms : mid.SameTerms loan' := by
    rw [hloan']
    exact ⟨rfl, forall₂_settledBy _ _, AccrualInput.accrue_sameTerms haccrue⟩
  have htargets : ∀ row e, loan'.targets t.settings (settledBy r.postings row) e =
      loan₀.targets t.settings row e := by
    intro row e
    rw [(h.trans hterms).targets, loan₀.targets_congr (settledBy_sameTerms r.postings row)]
  obtain ⟨last, hlast, e, -, htask, hdate, -, -⟩ :=
    h.task_of_posting hin hsized hposts.result hmem
  obtain ⟨hreaches, -⟩ := RunTerms.reaches_of_mem_plan htask
  have hreach : y.accruedTill ≤ t.mode.reach t.today := by
    rw [hdate]
    cases e with
    | whole till => exact hreaches
    | upTo till => exact le_of_eq (α := Int) (congrArg Date.day hreaches.1)
  refine ⟨y, hmem, ?_, ?_, ?_⟩
  · rw [hloan', htill, hy]
    rfl
  · intro row' hrow' hdue x hx
    rw [hloan'] at hrow'
    obtain ⟨row, hrow, rfl⟩ := List.mem_map.mp hrow'
    rw [dueDate_settledBy] at hdue hx
    rw [htargets] at hx
    obtain ⟨x', hx', hlift⟩ := h.lifted_of_due hs hin hn hsized hposts.result hposts.active hrow
      (Date.le_trans hdue hreach)
    rw [hx'] at hx
    exact Except.ok.inj hx ▸ hlift.meets
  · intro row' hrow' hfrom hdue x hx
    rw [hloan'] at hrow'
    obtain ⟨row, hrow, rfl⟩ := List.mem_map.mp hrow'
    rw [fromDate_settledBy] at hfrom
    rw [dueDate_settledBy] at hdue
    rw [htargets, hdate] at hx
    rw [hdate] at hfrom hdue
    -- the last task was the one on this row
    cases e with
    | whole till =>
      obtain rfl := hrows.eq_of_between hrow hlast hfrom hdue (hrows.forward last hlast)
        (Int.le_refl _)
      exact absurd hdue (Int.lt_irrefl _)
    | upTo till =>
      obtain ⟨hstarted, hfits⟩ := RunTerms.within_of_mem_plan htask
      obtain rfl := hrows.eq_of_between hrow hlast hfrom hdue (Int.le_of_lt hstarted)
        (Int.le_of_lt hfits)
      obtain ⟨x', hx', hlift⟩ :=
        h.lifted_of_task hs hin hn hsized hposts.result hrow htask
      have hx : loan₀.targets t.settings row (.upTo till) = .ok x := hx
      rw [hx'] at hx
      exact Except.ok.inj hx ▸ hlift.meets

end Loan
end LoanLedger
