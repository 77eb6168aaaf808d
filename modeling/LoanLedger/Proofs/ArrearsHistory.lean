import LoanLedger.Proofs.Arrears.Refresh
import LoanLedger.Proofs.Consistency

/-!
The arrears table over a history in which loans change in any way between the calls that bring their
arrears up to date. A call is refused only for an unknown loan, and then does nothing; else the rows
of its loans become those computed from the loans, each is announced once, and no other row changes.
Every row goes back to a call that computed it.
-/

set_option autoImplicit false
set_option relaxedAutoImplicit false

namespace LoanLedger

/-- The announcement of what the row of a loan is now. -/
def Arrears.announcement (id : LoanId) : Option Arrears → Event
  | some row => .arrearsUpdated id row.total row.since
  | none => .arrearsCleared id

theorem ArrearsChange.event_plan {id : LoanId} (existing : Option Arrears) {row? : Option Arrears}
    (h : ∀ row ∈ row?, row.loanId = id) :
    (plan id existing row?).event = Arrears.announcement id row? := by
  cases row? with
  | none => cases existing <;> rfl
  | some row =>
    obtain rfl := h row rfl
    cases existing <;> rfl

/-- A call that brings arrears up to date: after an activity on a loan, or for a list of loans. -/
inductive ArrearsCall
  | after (s : Settings) (today : Date) (a : Activity)
  | update (s : Settings) (today : Date) (ids : List LoanId)

namespace ArrearsCall

variable {call : ArrearsCall} {b b' : Books} {g : Ledger} {id : LoanId}

/-- The settings of a call. -/
def settings : ArrearsCall → Settings
  | after s _ _ | update s _ _ => s

/-- The business date of a call. -/
def today : ArrearsCall → Date
  | after _ today _ | update _ today _ => today

/-- The loans that a call is for. -/
def addressed : ArrearsCall → List LoanId
  | after _ _ a => [a.loanId]
  | update _ _ ids => ids

/-- Whether a call follows the live schedules, whatever the loans ask for. -/
def forcesLive : ArrearsCall → Bool
  | after _ _ a => a.forcesLiveSchedule
  | update _ _ _ => false

/-- Make a call. -/
def perform (b : Books) : ArrearsCall → Books × Except Failure (List ArrearsChange)
  | after s today a =>
    let (b, r) := b.handle s today a
    (b, r.map fun change => [change])
  | update s today ids => b.updateArrears s today ids

/-- The first loan of a call that the ledger does not have. -/
def unknown? (call : ArrearsCall) (g : Ledger) : Option LoanId :=
  call.addressed.find? fun id => !g.loans.contains id

/-- What a call does that is not refused. Each of its loans has a row exactly when any principal is
overdue on it, computed from the loan as it is now by the schedule that it follows or the call
forces; each is announced once; and all else stays, but for the count of reads. -/
structure Settles (call : ArrearsCall) (b b' : Books) (changes : List ArrearsChange) : Prop where
  row : ∀ id ∈ call.addressed, ∃ loan totals since, b.ledger.loans.find? id = some loan ∧
    loan.overdue call.settings call.today call.forcesLive = .ok (totals, since) ∧
    totals.Leaves id since (b'.ledger.arrears.find? id)
  others : ∀ id, id ∉ call.addressed → b'.ledger.arrears.find? id = b.ledger.arrears.find? id
  announced : ∃ order : List LoanId, order.Perm call.addressed ∧
    changes = order.map (fun id =>
      .plan id (b.ledger.arrears.find? id) (b'.ledger.arrears.find? id)) ∧
    b'.events = b.events ++ order.map fun id =>
      Arrears.announcement id (b'.ledger.arrears.find? id)
  rest : b' = { b with
    ledger := { b.ledger with
      arrears := b'.ledger.arrears
      issuedReads := b'.ledger.issuedReads }
    events := b'.events }

/-- A call on known loans settles their arrears. On unknown ones it names the first and does
nothing. -/
structure Answered (call : ArrearsCall) (b : Books) : Prop where
  known : call.unknown? b.ledger = none →
    ∃ b' changes, call.perform b = (b', .ok changes) ∧ call.Settles b b' changes
  unknown : ∀ id, call.unknown? b.ledger = some id →
    call.perform b = (b, refuse (.loanNotFound id))

/-- What a call does to the ledger. -/
def compute (g : Ledger) : ArrearsCall → Ledger × Except Failure (List ArrearsChange)
  | after s today a => Ledger.single (g.updateAfter s today a)
  | update s today ids => g.updateArrears s today ids

/-- Announce the changes to the ledger, once they are made. -/
def publish (b : Books) (x : Ledger × Except Failure (List ArrearsChange)) :
    Books × Except Failure (List ArrearsChange) :=
  match x with
  | (ledger, .error f) => ({ b with ledger }, .error f)
  | (ledger, .ok changes) =>
    ({ b with ledger, events := b.events ++ changes.map (·.event) }, .ok changes)

theorem perform_eq (call : ArrearsCall) (b : Books) :
    call.perform b = publish b (call.compute b.ledger) := by
  cases call with
  | after s today a =>
    rw [perform, Books.handle, compute]
    rcases b.ledger.updateAfter s today a with ⟨g, f | change⟩ <;> rfl
  | update s today ids => rfl

theorem exists_of_known (h : call.unknown? g = none) :
    ∀ id ∈ call.addressed, ∃ loan, g.loans.find? id = some loan := by
  intro id hid
  have hfound := List.find?_eq_none.mp h id hid
  rw [Table.contains, Bool.not_eq_true, Bool.not_eq_false', Option.isSome_iff_exists] at hfound
  exact hfound

theorem compute_refreshing (hg : g.Issued) (hn : call.addressed.Nodup)
    (hknown : call.unknown? g = none) : ∃ order : List LoanId, order.Perm call.addressed ∧
      g.Refreshing call.settings call.today call.forcesLive order (call.compute g) := by
  have hknown := exists_of_known hknown
  cases call with
  | after s today a =>
    obtain ⟨loan, hloan⟩ := hknown a.loanId List.mem_cons_self
    exact ⟨[a.loanId], .refl _, Ledger.updateAfter_refreshing hg hloan⟩
  | update s today ids => exact Ledger.updateArrears_refreshing hg hn hknown

theorem compute_of_unknown (h : call.unknown? g = some id) :
    call.compute g = (g, refuse (.loanNotFound id)) := by
  cases call with
  | after s today a =>
    obtain rfl := List.mem_singleton.mp (List.mem_of_find?_eq_some h)
    have hnone : g.loans.find? a.loanId = none := by
      simpa [Table.contains] using List.find?_some h
    rw [compute, Ledger.updateAfter_of_unknown hnone]
    rfl
  | update s today ids => exact Ledger.updateArrears_of_unknown h

theorem settles_publish {g' : Ledger} {order : List LoanId} {changes : List ArrearsChange}
    (hb : b.ledger.Issued) (hperm : order.Perm call.addressed)
    (h : b.ledger.Refreshes call.settings call.today call.forcesLive order g' changes) :
    call.Settles b { b with ledger := g', events := b.events ++ changes.map (·.event) } changes := by
  have hrow : ∀ id ∈ order, ∃ loan totals since, b.ledger.loans.find? id = some loan ∧
      loan.overdue call.settings call.today call.forcesLive = .ok (totals, since) ∧
      totals.Leaves id since (g'.arrears.find? id) := by
    intro id hid
    obtain ⟨loan, hloan, hfresh⟩ := h.row id hid
    obtain ⟨totals, since, htotals, hleaves⟩ := Loan.leaves_freshArrears hfresh
    exact ⟨loan, totals, since, hloan, htotals, (hb id loan hloan).id_eq ▸ hleaves⟩
  refine ⟨fun id hid => hrow id (hperm.mem_iff.mpr hid), fun id hid => h.others id fun hmem =>
    hid (hperm.mem_iff.mp hmem), ⟨order, hperm, h.changes_eq, ?_⟩, ?_⟩
  · dsimp only
    rw [h.changes_eq, List.map_map]
    congr 1
    refine List.map_congr_left fun id hid => ?_
    obtain ⟨loan, totals, since, -, -, hleaves⟩ := hrow id hid
    exact ArrearsChange.event_plan _ fun row hmem => by rw [hleaves.eq row hmem]
  · dsimp only
    exact congrArg (fun ledger : Ledger => { b with
      ledger, events := b.events ++ changes.map ArrearsChange.event }) h.rest

/-- A call that no fault ends is answered. -/
theorem answered (hb : b.ledger.Issued) (hn : call.addressed.Nodup)
    (hfault : ∀ f, (call.perform b).2 ≠ .error (.fault f)) : call.Answered b := by
  rw [perform_eq] at hfault
  refine ⟨fun hknown => ?_, fun id hid => ?_⟩
  · obtain ⟨order, hperm, h⟩ := compute_refreshing hb hn hknown
    rw [perform_eq]
    rcases h with ⟨g', f, hcompute⟩ | ⟨g', changes, hcompute, h⟩
    · rw [hcompute] at hfault
      exact absurd rfl (hfault f)
    · rw [hcompute]
      exact ⟨_, changes, rfl, settles_publish hb hperm h⟩
  · rw [perform_eq, compute_of_unknown hid]
    rfl

/-- A call leaves all else on the ledger as it is. -/
theorem loans_perform (hb : b.ledger.Issued) (hn : call.addressed.Nodup)
    (hfault : ∀ f, (call.perform b).2 ≠ .error (.fault f)) :
    (call.perform b).1.ledger.loans = b.ledger.loans := by
  have hanswered := answered hb hn hfault
  cases hunknown : call.unknown? b.ledger with
  | none =>
    obtain ⟨b', changes, hperform, hsettles⟩ := hanswered.known hunknown
    rw [hperform, hsettles.rest]
  | some id => rw [hanswered.unknown id hunknown]

end ArrearsCall

/-- A step of a history: anything but the arrears table changes, or a call is made. -/
inductive ArrearsStep
  | change (rest : Books)
  | call (c : ArrearsCall)

namespace ArrearsStep

/-- The books after a step. -/
def perform (b : Books) : ArrearsStep → Books
  | change rest => { rest with ledger := { rest.ledger with arrears := b.ledger.arrears } }
  | call c => (c.perform b).1

/-- A step that leaves the loans filed under their numbers, or a call for distinct loans that no
fault ends. -/
def Proceeds (b : Books) : ArrearsStep → Prop
  | change rest => rest.ledger.Issued
  | call c => c.addressed.Nodup ∧ ∀ f, (c.perform b).2 ≠ .error (.fault f)

theorem Proceeds.issued {b : Books} {step : ArrearsStep} (h : step.Proceeds b)
    (hb : b.ledger.Issued) : (step.perform b).ledger.Issued := by
  cases step with
  | change rest => exact h
  | call c => exact hb.of_loans (c.loans_perform hb h.1 h.2)

end ArrearsStep

/-- A row that a call for its loan computed from the books as they were, where any principal was
overdue since an earlier date than that of the call. -/
structure Arrears.ComputedBy (row : Arrears) (id : LoanId) (call : ArrearsCall) (b : Books) :
    Prop where
  addressed : id ∈ call.addressed
  computed : ∃ loan totals since, b.ledger.loans.find? id = some loan ∧
    loan.overdue call.settings call.today call.forcesLive = .ok (totals, since) ∧
    totals.Leaves id since (some row)
  since_lt : row.since < call.today

theorem ArrearsCall.Settles.computedBy {call : ArrearsCall} {b b' : Books}
    {changes : List ArrearsChange} {id : LoanId} {row : Arrears} (h : call.Settles b b' changes)
    (hid : id ∈ call.addressed) (hrow : b'.ledger.arrears.find? id = some row) :
    row.ComputedBy id call b := by
  obtain ⟨loan, totals, since, hloan, htotals, hleaves⟩ := h.row id hid
  rw [hrow] at hleaves
  refine ⟨hid, ⟨loan, totals, since, hloan, htotals, hleaves⟩, ?_⟩
  rw [hleaves.eq row rfl]
  exact (Loan.since_overdue htotals).lt (hleaves.isSome_iff.mp rfl)

namespace Books

variable {b : Books} {steps : List ArrearsStep}

/-- The books after steps, one after the other. -/
def afterSteps (b : Books) (steps : List ArrearsStep) : Books :=
  steps.foldl (fun b step => step.perform b) b

/-- Steps that proceed one after the other. -/
def Proceeds (b : Books) : List ArrearsStep → Prop
  | [] => True
  | step :: steps => step.Proceeds b ∧ (step.perform b).Proceeds steps

theorem proceeds_append {later : List ArrearsStep} :
    b.Proceeds (steps ++ later) ↔ b.Proceeds steps ∧ (b.afterSteps steps).Proceeds later := by
  induction steps generalizing b with
  | nil => exact ⟨fun h => ⟨trivial, h⟩, fun h => h.2⟩
  | cons step steps ih =>
    rw [List.cons_append, Proceeds, Proceeds, ih, and_assoc]
    rfl

theorem issued_afterSteps (hissued : b.ledger.Issued) (hsteps : b.Proceeds steps) :
    (b.afterSteps steps).ledger.Issued := by
  induction steps generalizing b with
  | nil => exact hissued
  | cons step steps ih => exact ih (hsteps.1.issued hissued) hsteps.2

/-- A row of the table goes back to a call of the history. -/
def Accounts (b : Books) (steps : List ArrearsStep) (id : LoanId) (row : Arrears) : Prop :=
  ∃ before call later, steps = before ++ .call call :: later ∧
    row.ComputedBy id call (b.afterSteps before)

theorem Accounts.later {id : LoanId} {row : Arrears} (h : b.Accounts steps id row)
    (more : List ArrearsStep) : b.Accounts (steps ++ more) id row := by
  obtain ⟨before, call, later, rfl, hcomputed⟩ := h
  exact ⟨before, call, later ++ more, by rw [List.append_assoc, List.cons_append], hcomputed⟩

theorem accounts_afterSteps (hissued : b.ledger.Issued) (hempty : b.ledger.arrears = .empty)
    (hsteps : b.Proceeds steps) {id : LoanId} {row : Arrears}
    (hrow : (b.afterSteps steps).ledger.arrears.find? id = some row) :
    b.Accounts steps id row := by
  induction steps using List.reverseRecOn generalizing row with
  | nil =>
    change b.ledger.arrears.find? id = some row at hrow
    rw [hempty] at hrow
    cases hrow
  | append_singleton steps step ih =>
    obtain ⟨hbefore, hstep, -⟩ := proceeds_append.mp hsteps
    rw [afterSteps, List.foldl_concat, ← afterSteps] at hrow
    cases step with
    | change rest => exact (ih hbefore hrow).later _
    | call c =>
      have hanswered := c.answered (issued_afterSteps hissued hbefore) hstep.1 hstep.2
      rw [ArrearsStep.perform] at hrow
      cases hunknown : c.unknown? (b.afterSteps steps).ledger with
      | some k =>
        rw [hanswered.unknown k hunknown] at hrow
        exact (ih hbefore hrow).later _
      | none =>
        obtain ⟨b', changes, hperform, hsettles⟩ := hanswered.known hunknown
        rw [hperform] at hrow
        by_cases hid : id ∈ c.addressed
        · exact ⟨steps, c, [], rfl, hsettles.computedBy hid hrow⟩
        · rw [hsettles.others id hid] at hrow
          exact (ih hbefore hrow).later _

/-- From an empty arrears table and after any history, a call for distinct loans that no fault ends
is answered: known loans are settled, and for an unknown one nothing is done. Every row of the table
carries the number of its loan and the sum of its components, and was computed by a call of the
history, as overdue since a date before that of the call. -/
theorem arrears_afterSteps (hissued : b.ledger.Issued) (hempty : b.ledger.arrears = .empty)
    (hsteps : b.Proceeds steps) :
    (∀ call : ArrearsCall, call.addressed.Nodup →
      (∀ f, (call.perform (b.afterSteps steps)).2 ≠ .error (.fault f)) →
      call.Answered (b.afterSteps steps)) ∧
    ∀ id row, (b.afterSteps steps).ledger.arrears.find? id = some row →
      row.loanId = id ∧ row.Totalled ∧ b.Accounts steps id row := by
  refine ⟨fun call hn hfault => call.answered (issued_afterSteps hissued hsteps) hn hfault,
    fun id row hrow => ?_⟩
  have haccounts := accounts_afterSteps hissued hempty hsteps hrow
  have ⟨before, call, later, _, hcomputed⟩ := haccounts
  obtain ⟨loan, totals, since, -, -, hleaves⟩ := hcomputed.computed
  exact ⟨by rw [hleaves.eq row rfl], hleaves.totalled row rfl, haccounts⟩

end Books

theorem Ledger.Issued.putLoan {g : Ledger} {loan : Loan} (hg : g.Issued)
    (hloan : loan.Issued loan.id) : (g.putLoan loan).Issued := by
  intro id found hfound
  by_cases hid : id = loan.id
  · subst hid
    obtain rfl := Option.some.inj ((Table.find?_insert_self _ _ _).symm.trans hfound)
    exact hloan
  · exact hg id found ((Table.find?_insert_of_ne _ hid _).symm.trans hfound)

/-! A loan that follows its live schedule, and one that follows its issued schedule. -/

/-- A loan of 120.00 principal and 12.00 interest that fell due on 2024-01-31. -/
def januaryDueLoan (paid : Money) : Loan :=
  { Loan.blank 1 .active with
    installments := [{
      number := 1
      fromDate := januaryRow.fromDate
      dueDate := januaryRow.dueDate
      principal := { Component.ofDue (cents 12000) with paid }
      interest := .ofDue (cents 1200)
      fee := .ofDue .zero
      penalty := .ofDue .zero }] }

/-- A loan of which 54.00 principal and 5.40 interest was to be paid on 2024-02-15, with three days
of grace; 24.00 principal and all interest was repaid. -/
def februaryIssuedLoan : Loan :=
  { Loan.blank 2 .active with
    profile := ⟨2, .active, true, true, some 3⟩
    issuedSchedule := [⟨2, midFebruary, cents 5400, cents 540, .zero, .zero⟩]
    repayments := { RepaymentTotals.none 2 with
      principalPaid := cents 2400
      interestPaid := cents 540 } }

/-- Books with both loans, when some principal was paid on the first. -/
def twoLoanBooks (paid : Money) : Books :=
  { Books.empty with ledger := (Ledger.empty.putLoan (januaryDueLoan paid)).putLoan februaryIssuedLoan }

/-- Both loans fall into arrears; the first is paid in full, and that is acted upon. -/
def arrearsSteps : List ArrearsStep :=
  [.call (.update .standard firstOfMarch [2, 1]), .change (twoLoanBooks (cents 12000)),
    .call (.after .standard firstOfMarch ⟨.repayment, 1⟩)]

theorem issued_twoLoanBooks (paid : Money) : (twoLoanBooks paid).ledger.Issued :=
  Ledger.Issued.putLoan
    (Ledger.Issued.putLoan (fun _ _ h => nomatch h) ⟨rfl, fun _ h => nomatch h⟩)
    ⟨rfl, List.forall_mem_singleton.mpr rfl⟩

/-- Whether a computation was not ended by a fault. -/
private def endsWell {α : Type} : Except Failure α → Bool
  | .error (.fault _) => false
  | _ => true

private theorem not_fault_of_endsWell {α : Type} {x : Except Failure α} (h : endsWell x = true)
    (f : Fault) : x ≠ .error (.fault f) := by
  rintro rfl
  exact Bool.false_ne_true h

/-- Then a disbursement makes the second loan follow its live schedule, by which nothing is due. -/
theorem arrears_afterSteps_twoLoans :
    (twoLoanBooks (cents 4000)).ledger.Issued ∧
    (twoLoanBooks (cents 4000)).Proceeds arrearsSteps ∧
    (ArrearsCall.after .standard firstOfMarch ⟨.disbursement, 2⟩).Answered
      ((twoLoanBooks (cents 4000)).afterSteps arrearsSteps) ∧
    (ArrearsCall.update .standard firstOfMarch [1, 9]).Answered
      ((twoLoanBooks (cents 4000)).afterSteps arrearsSteps) ∧
    ((twoLoanBooks (cents 4000)).afterSteps arrearsSteps).ledger.arrears.find? 1 = none ∧
    ∃ row, ((twoLoanBooks (cents 4000)).afterSteps arrearsSteps).ledger.arrears.find? 2 = some row ∧
      row.total = cents 3000 ∧ row.since = midFebruary ∧ row.Totalled ∧
      (twoLoanBooks (cents 4000)).Accounts arrearsSteps 2 row := by
  have hsteps : (twoLoanBooks (cents 4000)).Proceeds arrearsSteps :=
    ⟨⟨by decide, not_fault_of_endsWell (by decide +kernel)⟩, issued_twoLoanBooks _,
      ⟨by decide, not_fault_of_endsWell (by decide +kernel)⟩, trivial⟩
  obtain ⟨hcalls, hrows⟩ := Books.arrears_afterSteps (issued_twoLoanBooks (cents 4000)) rfl hsteps
  have hrow : ((twoLoanBooks (cents 4000)).afterSteps arrearsSteps).ledger.arrears.find? 2 =
      some ⟨2, cents 3000, cents 0, .zero, .zero, cents 3000, midFebruary⟩ := by decide +kernel
  obtain ⟨-, htotalled, haccounts⟩ := hrows 2 _ hrow
  exact ⟨issued_twoLoanBooks _, hsteps,
    hcalls _ (by decide) (not_fault_of_endsWell (by decide +kernel)),
    hcalls _ (by decide) (not_fault_of_endsWell (by decide +kernel)), by decide +kernel,
    _, hrow, rfl, rfl, htotalled, haccounts⟩

end LoanLedger
