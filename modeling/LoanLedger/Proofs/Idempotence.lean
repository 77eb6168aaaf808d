import LoanLedger.Proofs.Accrual.Repeat
import LoanLedger.Proofs.Consistency

/-!
Running twice. A second run leaves alone every loan that succeeded in the first one, unless the
first run moved the loan's accrued-till date back behind the till date: then rows that the first run
took for accrued are taken up by the second.
-/

set_option autoImplicit false
set_option relaxedAutoImplicit false

namespace LoanLedger

variable {t : RunTerms} {id : LoanId} {loan loan' loan'' : Loan}

/-- All that a run would do with the loan as it is stored posts nothing. -/
def RunTerms.AtRest (t : RunTerms) (id : LoanId) (loan : Loan) : Prop :=
  ∀ task ∈ plan t.mode (t.fresh loan),
    (loan.inputOn id (t.fresh loan)).Rests t.settings t.today loan.charges task

/-- The accrued-till date of a loan was at the till date or later and is behind it now, and some
opening row has income to accrue up to the till date. -/
def RunTerms.Reopens (t : RunTerms) (id : LoanId) (loan loan' : Loan) : Prop :=
  ∃ till, t.mode = .tillDate till ∧ isBehind loan.accruedTill till = false ∧
    isBehind loan'.accruedTill till = true ∧ ∃ row ∈ opening till (t.fresh loan'),
      ¬(loan'.inputOn id (t.fresh loan')).Rests t.settings t.today loan'.charges (row, .upTo till)

namespace RunTerms

theorem AtRest.not_owes (h : t.AtRest id loan) : ¬t.Owes id loan (t.fresh loan) := by
  rintro ⟨-, r, ⟨n, hresult⟩, hne⟩
  obtain ⟨-, ⟨os, hos, hpostings⟩, -, -⟩ := AccrualInput.accrue_eq_ok hresult
  exact hne (hpostings.trans (hos.eq_nil_of_rests h))

theorem Idle.atRest (h : t.Idle id loan (t.fresh loan)) : t.AtRest id loan := by
  rcases h with hinactive | ⟨r, ⟨n, hresult⟩, hnil⟩
  · have hfresh : t.fresh loan = [] := by
      simp only [fresh, Ledger.candidatesOf]
      rw [hinactive, if_neg Bool.false_ne_true]
    intro task htask
    rw [hfresh] at htask
    cases hmode : t.mode <;> rw [hmode] at htask <;> cases htask
  · obtain ⟨-, ⟨os, hos, hpostings⟩, -, -⟩ := AccrualInput.accrue_eq_ok hresult
    exact hos.rests_of_eq_nil (hpostings ▸ hnil)

/-- The candidate rows after postings are those before, as they were settled. -/
theorem fresh_settled {ps : List Posting} (hstatus : loan'.status = loan.status)
    (hschedule : loan'.schedule = loan.schedule.map (Loan.settledBy ps)) :
    t.fresh loan' = (t.fresh loan).map fun row =>
      { Loan.settledBy ps row with accruedTill := loan'.accruedTill } := by
  have hcandidate : ∀ row, Ledger.isCandidate t.mode t.today (Loan.settledBy ps row) =
      Ledger.isCandidate t.mode t.today row := by
    intro row
    simp only [Loan.settledBy]
    split <;> rfl
  have hsettled : ∀ row w, ({ Loan.settledBy ps { row with accruedTill := w } with
      accruedTill := loan'.accruedTill } : ScheduleRow) =
      { Loan.settledBy ps row with accruedTill := loan'.accruedTill } := by
    intro row w
    simp only [Loan.settledBy]
    split <;> rfl
  simp only [fresh, Ledger.candidatesOf]
  rw [hstatus, hschedule]
  split
  · rw [List.filter_map, List.map_map, List.map_map]
    have hfilter : (Ledger.isCandidate t.mode t.today) ∘ Loan.settledBy ps =
        Ledger.isCandidate t.mode t.today := funext hcandidate
    rw [hfilter]
    exact List.map_congr_left fun row _ => (hsettled row loan.accruedTill).symm
  · rfl

end RunTerms

namespace Loan.Turn

variable {log : List Posting} {ok : Bool}

private theorem inRange_of_reversioned (h : loan.Reversioned loan') (hin : loan.InRange) :
    loan'.InRange := by
  rw [h.same]
  exact ⟨hin.fine, hin.places, hin.size⟩

private theorem input_inRange (hin : loan.InRange) {row : ScheduleRow} (hrow : row ∈ t.fresh loan) :
    (loan.inputOn id (t.fresh loan)).InRange loan.charges row := by
  obtain ⟨-, stored, hstored, -, rfl⟩ := Ledger.mem_candidatesOf hrow
  have hinput : (loan.inputOn id (t.fresh loan)).InRange loan.charges stored :=
    (SameTerms.refl loan).inputInRange hin hstored
  exact ⟨⟨hinput.waivers.rowFine, hinput.waivers.periodsFine, hinput.waivers.waiversFine,
    hinput.waivers.size⟩, hinput.places, hinput.chargesFine, hinput.chargesSize⟩

/-- After a turn that succeeds the loan is at rest, unless it reopens. -/
theorem atRest (h : loan.Turn t id loan' true log) (hs : loan.Sound id) (hin : loan.InRange)
    (hreopens : ¬t.Reopens id loan loan') : t.AtRest id loan' := by
  cases h with
  | idles _ hidle => exact hidle.atRest
  | @posts mid r _ hwaits hposts =>
    have hmid : mid.Sound id := hwaits.reversioned.sound hs
    have hmidIn : mid.InRange := inRange_of_reversioned hwaits.reversioned hin
    have htill : mid.accruedTill = loan.accruedTill := by rw [hwaits.reversioned.same]
    obtain ⟨n, hresult⟩ := hposts.result
    obtain ⟨-, ⟨os, hos, hpostings⟩, -, -⟩ := AccrualInput.accrue_eq_ok hresult
    have hloan' := (hposts.accepted_eq hmid).1
    have hcharges : loan'.charges = r.charges := by rw [hloan']
    have hfresh : t.fresh loan' = (t.fresh mid).map fun row =>
        { Loan.settledBy r.postings row with accruedTill := loan'.accruedTill } :=
      RunTerms.fresh_settled (by rw [hloan']) (by rw [hloan'])
    have hinput : ∀ task ∈ plan t.mode (t.fresh mid),
        (mid.inputOn id (t.fresh mid)).InRange mid.charges task.1 := by
      intro task htask
      exact input_inRange hmidIn
        ((plan_sublist t.mode (t.fresh mid)).subset (List.mem_map_of_mem htask))
    have hrests := hos.rests_settled (RunTerms.nodup_plan hmid) hinput loan'.accruedTill
    -- the second run reads the same waivers, and charges of the same terms
    have hsame : ∀ task, (mid.inputOn id (t.fresh mid)).Rests t.settings t.today r.charges task →
        (loan'.inputOn id (t.fresh loan')).Rests t.settings t.today loan'.charges task := by
      intro task htask
      rw [hcharges]
      intro i p x hpropose
      apply htask i p x
      rw [← hpropose, hloan']
      rfl
    intro task htask
    have hfreshTask := htask
    rw [hfresh] at hfreshTask
    rcases mem_plan_map
      (f := fun row => { Loan.settledBy r.postings row with accruedTill := loan'.accruedTill })
      (fun row => Loan.dueDate_settledBy r.postings row)
      (fun row hrow => RunTerms.accruedTill_fresh hrow) (fun _ => rfl) hfreshTask with
      ⟨task₀, htask₀, rfl⟩ | ⟨till, hmode, hbefore, hbehind, row, hrow, rfl⟩
    · apply hsame _
      rw [hpostings]
      exact hrests task₀ htask₀
    · rw [← hfresh] at hrow
      rw [htill] at hbefore
      exact not_not.mp fun hposts => hreopens ⟨till, hmode, hbefore, hbehind, row, hrow, hposts⟩

theorem eq_of_atRest (h : loan.Turn t id loan' ok log) (hrest : t.AtRest id loan) :
    loan' = loan ∧ log = [] := by
  have hkeeps : ∀ {mid}, t.Waits id loan mid → mid = loan :=
    fun hwaits => hwaits.keeps.resolve_right hrest.not_owes
  cases h with
  | fails hwaits => exact ⟨hkeeps hwaits, rfl⟩
  | idles hwaits _ => exact ⟨hkeeps hwaits, rfl⟩
  | posts hwaits hposts =>
    rw [hkeeps hwaits] at hposts
    exact absurd ⟨hposts.active, _, hposts.result, hposts.nonempty⟩ hrest.not_owes

/-- A loan that reopened takes postings in its next turn, if that succeeds. -/
theorem log_ne_nil (h : loan'.Turn t id loan'' true log) (hreopens : t.Reopens id loan loan') :
    log ≠ [] := by
  cases h with
  | idles hwaits hidle =>
    obtain ⟨till, hmode, -, hbehind, row, hrow, hposts⟩ := hreopens
    have hloan'' := hwaits.reversioned.same
    have hrest := hidle.atRest
    have hmem : (row, Extent.upTo till) ∈ plan t.mode (t.fresh loan') := by
      rw [hmode]
      exact mem_plan_of_opening (fun row hrow => RunTerms.accruedTill_fresh hrow) hbehind hrow
    rw [hloan''] at hrest
    exact absurd (hrest _ hmem) hposts
  | posts _ hposts => exact hposts.nonempty

end Loan.Turn

/-- Books in which nothing about a loan has changed. -/
structure Books.LeavesAlone (id : LoanId) (b b' : Books) : Prop where
  loan : b'.ledger.loans.find? id = b.ledger.loans.find? id
  transactions : b'.ledger.transactionsFor id = b.ledger.transactionsFor id
  entries : b'.journal.entries.filter (fun e => e.loanId == id) =
    b.journal.entries.filter fun e => e.loanId == id
  events : b'.eventsFor id = b.eventsFor id

/-- A loan of the books reopens. -/
def Books.Reopens (t : RunTerms) (id : LoanId) (b b' : Books) : Prop :=
  ∃ loan loan', b.ledger.loans.find? id = some loan ∧ b'.ledger.loans.find? id = some loan' ∧
    t.Reopens id loan loan'

namespace Books

variable {b b' : Books} {log : List Posting}

private theorem filter_eq_self_of_postingsOf {α : Type} {as bs es : List α} {key : α → LoanId}
    (hes : bs = as ++ es) (hlog : postingsOf id log = [])
    (hkey : ∀ e ∈ es, ∃ p ∈ log, key e = p.transaction.loanId) :
    bs.filter (fun a => key a == id) = as.filter fun a => key a == id := by
  have hnil : es.filter (fun a => key a == id) = [] := by
    apply List.filter_eq_nil_iff.mpr
    intro e he hid
    obtain ⟨p, hp, heq⟩ := hkey e he
    have hmem : p ∈ postingsOf id log :=
      List.mem_filter.mpr ⟨hp, decide_eq_true (heq.symm.trans (beq_iff_eq.mp hid))⟩
    rw [hlog] at hmem
    cases hmem
  rw [hes, List.filter_append, hnil, List.append_nil]

/-- Where a loan has no postings, nothing is written about it. -/
theorem Records.leavesAlone (h : Records log b b')
    (hloan : b'.ledger.loans.find? id = b.ledger.loans.find? id) (hlog : postingsOf id log = []) :
    b.LeavesAlone id b' where
  loan := hloan
  transactions := by
    apply filter_eq_self_of_postingsOf h.transactions hlog
    intro e he
    obtain ⟨p, hp, rfl⟩ := List.mem_map.mp he
    exact ⟨p, hp, rfl⟩
  entries := by
    obtain ⟨es, hes, hrecords⟩ := h.entries
    apply filter_eq_self_of_postingsOf hes hlog
    intro e he
    obtain ⟨p, hp, hrecord⟩ := exists_mem_of_forall₂ hrecords.flip he
    exact ⟨p, hp, hrecord.loanId⟩
  events := by
    obtain ⟨es, hes, -, hloans⟩ := h.events
    exact filter_eq_self_of_postingsOf hes hlog hloans

theorem Records.transactionsFor_ne (h : Records log b b') (hlog : postingsOf id log ≠ []) :
    b'.ledger.transactionsFor id ≠ b.ledger.transactionsFor id := by
  obtain ⟨p, hp⟩ := List.exists_mem_of_ne_nil _ hlog
  obtain ⟨hp, hid⟩ := List.mem_filter.mp hp
  intro heq
  simp only [Ledger.transactionsFor] at heq
  rw [h.transactions, List.filter_append] at heq
  have hnil := List.append_right_eq_self.mp heq
  have hmem : p.transaction ∈ (log.map (·.transaction)).filter fun t => t.loanId == id :=
    List.mem_filter.mpr ⟨List.mem_map_of_mem hp, beq_iff_eq.mpr (of_decide_eq_true hid)⟩
  rw [hnil] at hmem
  cases hmem

end Books

/-- A second run leaves alone every loan that succeeded in the first, unless the loan reopens; and
one that reopens is posted again, if it succeeds again. -/
theorem Batch.run_twice {batch : Batch} {mode : RunMode} {today : Date} {c : Cancellation}
    {st : Books} {s : Settings} (hs : batch.settings = .ok s) (hsound : st.ledger.Sound)
    (hin : ∀ loan, st.ledger.loans.find? id = some loan → loan.InRange)
    (hid : id ∈ batch.succeeded mode today c st) (again : Cancellation) :
    let once := (batch.run mode today none c st).books
    let twice := (batch.run mode today none again once).books
    (¬Books.Reopens ⟨s, mode, today⟩ id st once → once.LeavesAlone id twice) ∧
    (Books.Reopens ⟨s, mode, today⟩ id st once →
      id ∈ batch.succeeded mode today again once → ¬once.LeavesAlone id twice) := by
  intro once twice
  obtain ⟨log, hran⟩ := batch.run_ran mode today c st hs hsound
  obtain ⟨log', hran'⟩ := batch.run_ran mode today again once hs (hran.sound hsound)
  cases hloan : st.ledger.loans.find? id with
  | none => exact absurd hid (hran.noLoan id hloan).2.2
  | some loan =>
    obtain ⟨loan', ok, hloan', hturn, hok⟩ := hran.loan id loan hloan
    rw [hok hid] at hturn
    obtain ⟨loan'', ok', hloan'', hturn', hok'⟩ := hran'.loan id loan' hloan'
    constructor
    · intro hstays
      have hrest : (⟨s, mode, today⟩ : RunTerms).AtRest id loan' :=
        hturn.atRest (hsound id loan hloan) (hin loan hloan)
          fun hreopens => hstays ⟨loan, loan', hloan, hloan', hreopens⟩
      obtain ⟨heq, hlog⟩ := hturn'.eq_of_atRest hrest
      exact hran'.records.leavesAlone (by rw [hloan', ← heq]; exact hloan'') hlog
    · rintro ⟨before, after, hbefore, hafter, hreopens⟩ hagain hleaves
      rw [hloan] at hbefore
      rw [hloan'] at hafter
      cases hbefore
      cases hafter
      rw [hok' hagain] at hturn'
      exact hran'.records.transactionsFor_ne (hturn'.log_ne_nil hreopens) hleaves.transactions

/-! Runs up to 2024-02-15, made on that day. -/

/-- Books after a run up to 2024-02-15. -/
def Books.toMidFebruary (b : Books) : Books :=
  (standardBatch.run (.tillDate midFebruary) midFebruary none .never b).books

theorem run_twice_januaryFee :
    (booksOf januaryFeeLoan).toMidFebruary.ledger.transactions.map (·.amount) =
      [cents 11000, cents 5000] ∧
    (booksOf januaryFeeLoan).toMidFebruary.LeavesAlone 1
      (booksOf januaryFeeLoan).toMidFebruary.toMidFebruary := by
  have hsound : (booksOf januaryFeeLoan).ledger.Sound :=
    sound_booksOf ⟨rfl, by decide, by decide⟩
  have hin : ∀ loan, (booksOf januaryFeeLoan).ledger.loans.find? 1 = some loan → loan.InRange := by
    intro loan hloan
    obtain ⟨-, rfl⟩ := find?_booksOf hloan
    exact ⟨by unfold Money.Fine; decide +kernel, by decide, by decide +kernel⟩
  have hsucceeded : 1 ∈ standardBatch.succeeded (.tillDate midFebruary) midFebruary
      .never (booksOf januaryFeeLoan) := by decide +kernel
  have hstays : ¬Books.Reopens ⟨.standard, .tillDate midFebruary, midFebruary⟩ 1
      (booksOf januaryFeeLoan) (booksOf januaryFeeLoan).toMidFebruary := by
    rintro ⟨loan, loan', hloan, -, till, -, hbefore, -⟩
    obtain ⟨-, rfl⟩ := find?_booksOf hloan
    cases hbefore
  exact ⟨by decide +kernel, (@Batch.run_twice 1 standardBatch (.tillDate midFebruary) midFebruary
    .never (booksOf januaryFeeLoan) .standard rfl hsound hin hsucceeded .never).1 hstays⟩

/-- The loan of both rows, accrued to 2024-02-15, after two fees of 10.00 were entered that are due
on 2024-01-10 and on 2024-02-10. -/
def backdatedFeeLoan : Loan :=
  { monthlyLoan
      [{ januaryRow with accruedInterest := januaryRow.interestIncome },
        { februaryRow with accruedInterest := some (cents 5000) }]
      (januaryFeeLoan.charges ++ [tenFee 12 ⟨739231, by decide, by decide⟩]) with
    version := 2
    accruedTill := some midFebruary }

/-- The first run posts the January fee, which sets the loan back to 2024-01-31; so the second run
takes up the February row, which the first one left out, and posts the other fee. -/
theorem run_twice_backdatedFee :
    (booksOf backdatedFeeLoan).ledger.Sound ∧ backdatedFeeLoan.InRange ∧
    1 ∈ standardBatch.succeeded (.tillDate midFebruary) midFebruary
      .never (booksOf backdatedFeeLoan) ∧
    (booksOf backdatedFeeLoan).toMidFebruary.toMidFebruary.ledger.transactions.map (·.amount) =
      [cents 1000, cents 1000] ∧
    ¬(booksOf backdatedFeeLoan).toMidFebruary.LeavesAlone 1
      (booksOf backdatedFeeLoan).toMidFebruary.toMidFebruary := by
  have hposted : (booksOf backdatedFeeLoan).toMidFebruary.toMidFebruary.ledger.transactionsFor 1 ≠
      (booksOf backdatedFeeLoan).toMidFebruary.ledger.transactionsFor 1 := by decide +kernel
  refine ⟨sound_booksOf ⟨rfl, by decide, by decide⟩, ?_, by decide +kernel, by decide +kernel,
    fun hleaves => hposted hleaves.transactions⟩
  exact ⟨by unfold Money.Fine; decide +kernel, by decide, by decide +kernel⟩

end LoanLedger
