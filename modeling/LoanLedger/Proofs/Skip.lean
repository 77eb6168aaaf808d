import LoanLedger.Proofs.CatchUp
import LoanLedger.Proofs.Ledger.Watermark

/-!
Skipped rows. A run up to a date leaves out the later rows of a loan that is accrued to the date
already. On consecutive rows nothing is lost by that: whatever runs came before, every row that is
left out holds its income up to the date.
-/

set_option autoImplicit false
set_option relaxedAutoImplicit false

namespace LoanLedger

namespace Loan

/-- A loan of the same terms, on whose rows and charges nothing negative has accrued, and whose rows
hold their income up to the date that the loan is accrued to. -/
structure Watched (s : Settings) (loan₀ loan : Loan) : Prop where
  terms : loan₀.SameTerms loan
  sized : loan.Sized
  charges : ∀ c ∈ loan.charges, c.AccruedNonneg
  marked : ∀ date, loan.accruedTill = some date → loan.MetBy s date ∧ loan.MetWithin s date

variable {s : Settings} {t : RunTerms} {id : LoanId} {loan₀ loan loan' : Loan} {till today : Date}

theorem Watched.of_unmarked (hin : loan.InRange) (hn : loan.Nonneg)
    (hcharges : ∀ c ∈ loan.charges, c.AccruedNonneg) (hnew : loan.accruedTill = none) :
    loan.Watched s loan where
  terms := .refl loan
  sized := sized_of_inRange hin hn
  charges := hcharges
  marked date hdate := by
    rw [hnew] at hdate
    cases hdate

theorem Watched.reversioned (h : loan₀.Watched s loan) (hr : loan.Reversioned loan') :
    loan₀.Watched s loan' where
  terms := h.terms.trans hr.sameTerms
  sized := h.sized.reversioned hr
  charges := by
    rw [hr.same]
    exact h.charges
  marked date hdate := by
    rw [hr.same] at hdate
    obtain ⟨hmet, hwithin⟩ := h.marked date hdate
    exact ⟨hmet.reversioned hr, hwithin.reversioned hr⟩

/-- A turn keeps a loan with consecutive rows watched. -/
theorem Turn.watched {ok : Bool} {log : List Posting} (hturn : loan.Turn t id loan' ok log)
    (h : loan₀.Watched t.settings loan) (hs : loan.Sound id) (hin : loan₀.InRange)
    (hn : loan₀.Nonneg) (hrows : ScheduleRow.Consecutive loan₀.schedule) :
    loan₀.Watched t.settings loan' := by
  obtain ⟨hterms, hsized, -⟩ := hturn.lifts h.terms hs hin hn h.sized
  cases hturn with
  | fails hwaits => exact h.reversioned hwaits.reversioned
  | idles hwaits _ => exact h.reversioned hwaits.reversioned
  | @posts mid r _ hwaits hposts =>
    have hmid := h.reversioned hwaits.reversioned
    have hmidSound := hwaits.reversioned.sound hs
    obtain ⟨n, hresult⟩ := hposts.result
    obtain ⟨-, ⟨os, hos, -⟩, -, -⟩ := AccrualInput.accrue_eq_ok hresult
    obtain ⟨y, -, hdate, hmet, hwithin⟩ := hmid.terms.marked_of_posts hmidSound hin hn hmid.sized
      (hrows.of_sameTerms hmid.terms.rows) hposts
    refine ⟨hterms, hsized, ?_, fun date heq => ?_⟩
    · rw [(hposts.accepted_eq hmidSound).1]
      exact hos.accruedNonneg hmid.charges
    · rw [hdate] at heq
      obtain rfl := Option.some.inj heq
      exact ⟨hmet, hwithin⟩

/-- What a candidate row that is due later owes up to a date, a watched loan that is accrued to the
date holds on that row. -/
theorem Watched.meets (h : loan₀.Watched s loan) (hin : loan₀.InRange) (hn : loan₀.Nonneg)
    (hcharges : ∀ c ∈ loan₀.charges, c.AccruedNonneg) {date : Date}
    (hdate : loan.accruedTill = some date) (hreached : till ≤ date) {row : ScheduleRow}
    (hrow : row ∈ loan.schedule) (hcandidate : Ledger.isCandidate (.tillDate till) today row = true)
    (hlater : till < row.dueDate) {x : Targets} (hx : loan.targets s row (.upTo till) = .ok x) :
    row.Meets x := by
  obtain ⟨hmet, hwithin⟩ := h.marked date hdate
  obtain ⟨row₀, hrow₀, hterms : row₀.SameTerms row⟩ := exists_mem_of_forall₂ h.terms.rows.flip hrow
  have hinput : (loan.inputOn loan.id []).InRange loan₀.charges row₀ := h.terms.inputInRange hin hrow₀
  have hnonneg : (loan.inputOn loan.id []).Nonneg loan₀.charges row₀ := h.terms.inputNonneg hn hrow₀
  have htargets : ∀ e, loan.targets s row e =
      (loan.inputOn loan.id []).targets s loan₀.charges row₀ e := by
    intro e
    rw [h.terms.targets, loan₀.targets_congr hterms, h.terms.targets_eq loan.id []]
  have hdue : row.dueDate = row₀.dueDate := congrArg (·.dueDate) hterms
  have hlater' : till < row₀.dueDate := hdue ▸ hlater
  rw [htargets] at hx
  by_cases hover : row.dueDate ≤ date
  · obtain ⟨y, hy⟩ := AccrualInput.exists_targets s (.whole row.dueDate) hinput hcharges
    refine (hmet row hrow hover y ((htargets _).trans hy)).mono ?_
    refine AccrualInput.targets_mono hinput hnonneg hlater' ?_ hx hy
    exact Int.le_of_lt hlater
  · have hfrom : row.fromDate < date := by
      simp only [Ledger.isCandidate, Bool.or_eq_true, decide_eq_true_eq] at hcandidate
      exact Int.lt_of_lt_of_le (hcandidate.resolve_right (Date.not_le_iff.mpr hlater)) hreached
    obtain ⟨y, hy⟩ := AccrualInput.exists_targets s (.upTo date) hinput hcharges
    refine (hwithin row hrow hfrom (Date.not_le_iff.mp hover) y ((htargets _).trans hy)).mono ?_
    refine AccrualInput.targets_mono hinput hnonneg hlater' ?_ hx hy
    exact hreached

/-- The rows that a run up to a date leaves out of a watched loan have nothing to post up to it. -/
theorem Watched.rests (h : loan₀.Watched s loan) (hin : loan₀.InRange) (hn : loan₀.Nonneg)
    (hcharges : ∀ c ∈ loan₀.charges, c.AccruedNonneg)
    (hmark : isBehind loan.accruedTill till = false) {row : ScheduleRow}
    (hrow : row ∈ Ledger.candidatesOf (.tillDate till) today loan) (hlater : till < row.dueDate)
    (rows : List ScheduleRow) :
    (loan.inputOn id rows).RestsUpTo s today till loan.charges row := by
  obtain ⟨-, stored, hstored, hcandidate, rfl⟩ := Ledger.mem_candidatesOf hrow
  obtain ⟨row₀, hrow₀, hterms : row₀.SameTerms stored⟩ :=
    exists_mem_of_forall₂ h.terms.rows.flip hstored
  obtain ⟨date, hdate, hreached⟩ : ∃ date, loan.accruedTill = some date ∧ till ≤ date := by
    cases hdate : loan.accruedTill with
    | none =>
      rw [hdate] at hmark
      cases hmark
    | some date =>
      rw [hdate] at hmark
      exact ⟨date, rfl, Int.not_lt.mp (of_decide_eq_false hmark)⟩
  have hinput : (loan.inputOn id rows).InRange loan₀.charges row₀ :=
    h.terms.inputInRange hin hrow₀
  obtain ⟨x, hx⟩ := AccrualInput.exists_targets s (.upTo till) hinput hcharges
  have htargets : loan.targets s stored (.upTo till) = .ok x := by
    rw [h.terms.targets, loan₀.targets_congr hterms, h.terms.targets_eq id rows, hx]
  have hmeets := h.meets hin hn hcharges hdate hreached hstored hcandidate hlater htargets
  have hstamped : row₀.SameTerms { stored with accruedTill := loan.accruedTill } :=
    hterms.trans rfl
  have hcolumn : ∀ c, ({ stored with accruedTill := loan.accruedTill } : ScheduleRow).accrued c =
      stored.accrued c := fun c => by cases c <;> rfl
  intro ds hkept k
  refine AccrualInput.exists_rest hinput hstamped
    (Charge.forall₂_sameTerms_trans h.terms.charges hkept.terms)
    (fun c => hcolumn c ▸ h.sized.small stored hstored c) hkept.nonneg hx (fun c => ?_) k
  have hc := hmeets c
  cases c <;> exact hc

/-- A run up to a date accrues a watched loan with consecutive rows as if no date that the loan is
accrued to were known. -/
theorem Watched.accrue_eq (h : loan₀.Watched s loan) (hin : loan₀.InRange) (hn : loan₀.Nonneg)
    (hcharges : ∀ c ∈ loan₀.charges, c.AccruedNonneg)
    (hrows : ScheduleRow.Consecutive loan₀.schedule) (id : LoanId) (till today : Date) (n : Nat) :
    (loan.inputOn id (Ledger.candidatesOf (.tillDate till) today loan)).accrue (.tillDate till) s
        today n =
      (loan.inputOn id (Ledger.candidatesOf (.tillDate till) today loan)).accrueUnmarked till s
        today n := by
  have hconsecutive := hrows.of_sameTerms h.terms.rows
  have hordered : ScheduleRow.Ordered (Ledger.candidatesOf (.tillDate till) today loan) :=
    RunTerms.ordered_fresh (t := ⟨s, .tillDate till, today⟩) hconsecutive
  exact AccrualInput.accrue_eq_accrueUnmarked hordered
    (fun row hrow => RunTerms.accruedTill_fresh (t := ⟨s, .tillDate till, today⟩) hrow) h.charges
    (fun hmark row hrow hlater => h.rests hin hn hcharges hmark hrow hlater _) n

end Loan

variable {s : Settings} {id : LoanId} {loan₀ loan : Loan} {till today : Date}

/-- The rows that a run up to a date leaves out have nothing to post. After any calls, an accrual of a
loan with consecutive rows up to a date has the result that it has when every later candidate row is
accrued to the date, whatever the loan is accrued to; and the postings of a run up to the date in
which the loan succeeds are those. -/
theorem Books.unmarked_afterCalls {b : Books} {calls : List Call} (hfiled : b.ledger.Filed)
    (hloan : b.ledger.loans.find? id = some loan₀) (hsound : loan₀.Sound id) (hin : loan₀.InRange)
    (hn : loan₀.Nonneg) (hcharges : ∀ c ∈ loan₀.charges, c.AccruedNonneg)
    (hrows : ScheduleRow.Consecutive loan₀.schedule) (hnew : loan₀.accruedTill = none)
    (hcalls : ∀ call ∈ calls, call.Under s) (till today : Date) :
    ∃ loan, (b.afterCalls calls).ledger.loans.find? id = some loan ∧
      (∀ n, (loan.inputOn id (Ledger.candidatesOf (.tillDate till) today loan)).accrue
          (.tillDate till) s today n =
        (loan.inputOn id (Ledger.candidatesOf (.tillDate till) today loan)).accrueUnmarked till s
          today n) ∧
      ∀ (batch : Batch) (cancellation : Cancellation), batch.settings = .ok s →
        ∃ log, Books.Records log (b.afterCalls calls)
            (b.afterCalls (calls ++ [.run batch (.tillDate till) today cancellation])) ∧
          (id ∈ batch.succeeded (.tillDate till) today cancellation (b.afterCalls calls) →
            ∃ n r, (loan.inputOn id (Ledger.candidatesOf (.tillDate till) today
                loan)).accrueUnmarked till s today n = .ok r ∧ postingsOf id log = r.postings) := by
  have hstart : b.Holds id (loan₀.Watched s) :=
    ⟨hfiled, loan₀, hloan, hsound, .of_unmarked hin hn hcharges hnew⟩
  obtain ⟨hfiled', loan, hfound, -, hwatched⟩ :=
    afterCalls_holds hcalls (fun ht hturn hs h => ht ▸ hturn.watched (ht ▸ h) hs hin hn hrows) hstart
  have haccrue := hwatched.accrue_eq hin hn hcharges hrows id till today
  refine ⟨loan, hfound, haccrue, fun batch cancellation hs => ?_⟩
  obtain ⟨log, hran⟩ :=
    batch.run_ran_of_filed (.tillDate till) today cancellation (b.afterCalls calls) hs hfiled'
  refine ⟨log, ?_, fun hid => ?_⟩
  · simp only [afterCalls]
    rw [List.foldl_append]
    exact hran.records
  · obtain ⟨loan', ok, -, hturn, hok⟩ := hran.loan id loan hfound
    rw [hok hid] at hturn
    obtain ⟨r, ⟨n, hresult⟩, hlog⟩ :=
      hturn.yields_of_success (Batch.active_of_mem_succeeded hs hfiled' hid hfound)
    exact ⟨n, r, (haccrue n).symm.trans hresult, hlog.symm⟩

/-- A loan accrued to 2024-02-15: a run up to 2024-02-10 leaves its second row out. -/
theorem unmarked_afterCalls_januaryFee :
    (((booksOf januaryFeeLoan).afterCalls partialCalls).ledger.loans.find? 1).map (·.accruedTill) =
      some (some midFebruary) ∧
    ∃ loan, ((booksOf januaryFeeLoan).afterCalls partialCalls).ledger.loans.find? 1 = some loan ∧
      ∀ n, (loan.inputOn 1 (Ledger.candidatesOf (.tillDate ⟨739231, by decide, by decide⟩)
          midFebruary loan)).accrue (.tillDate ⟨739231, by decide, by decide⟩) .standard midFebruary
            n =
        (loan.inputOn 1 (Ledger.candidatesOf (.tillDate ⟨739231, by decide, by decide⟩) midFebruary
          loan)).accrueUnmarked ⟨739231, by decide, by decide⟩ .standard midFebruary n := by
  have hstored : (booksOf januaryFeeLoan).ledger.loans.find? 1 = some januaryFeeLoan :=
    Table.find?_insert_self _ _ _
  have hrows : ScheduleRow.Consecutive januaryFeeLoan.schedule := ⟨by decide, by decide⟩
  obtain ⟨loan, hloan, haccrue, -⟩ := Books.unmarked_afterCalls sound_januaryFeeLoan.filed hstored
    (sound_januaryFeeLoan 1 _ hstored) inRange_januaryFeeLoan nonneg_januaryFeeLoan
    accruedNonneg_januaryFeeLoan hrows rfl partialCalls_under ⟨739231, by decide, by decide⟩
    midFebruary
  exact ⟨by decide +kernel, loan, hloan, haccrue⟩

end LoanLedger
