import LoanLedger.Proofs.Ledger.Settle

/-!
Consistency of the books over any sequence of calls. The transactions, the charge payments, the
journal entries and the announcements tell of the same postings in the same order, and every
column, charge and share has grown by exactly what was posted for it.
-/

set_option autoImplicit false
set_option relaxedAutoImplicit false

namespace LoanLedger

/-- A loan after the given postings of its own: its rows and charges advanced by them, and nothing
else changed but the version and the date that it is accrued to. -/
structure Loan.AdvancedBy (ps : List Posting) (loan loan' : Loan) : Prop where
  terms : loan' = { loan with
    version := loan'.version
    accruedTill := loan'.accruedTill
    schedule := loan'.schedule
    charges := loan'.charges }
  rows : List.Forall₂ (ScheduleRow.AdvancedBy ps) loan.schedule loan'.schedule
  charges : List.Forall₂ (Charge.AdvancedBy (ps.flatMap (·.payments))) loan.charges loan'.charges

namespace Loan

theorem AdvancedBy.of_reversioned {loan loan' : Loan} (h : loan.Reversioned loan') :
    loan.AdvancedBy [] loan' := by
  rw [h.same]
  exact ⟨rfl, List.forall₂_same.mpr fun row _ => .refl row, Charge.forall₂_advancedBy_refl _⟩

theorem AdvancedBy.trans {ps qs : List Posting} {loan loan' loan'' : Loan}
    (h : loan.AdvancedBy ps loan') (h' : loan'.AdvancedBy qs loan'') :
    loan.AdvancedBy (ps ++ qs) loan'' where
  terms := by rw [h'.terms, h.terms]
  rows := forall₂_comp h.rows h'.rows fun _ _ _ h h' => h.trans h'
  charges := by
    rw [List.flatMap_append]
    exact Charge.forall₂_advancedBy_trans h.charges h'.charges

end Loan

/-! The values of the amounts that grow. -/

/-- The portions of a column that postings have for a row. -/
def ScheduleRow.portionsIn (ps : List Posting) (row : ScheduleRow) (c : Column) : List Money :=
  (ps.filter fun p => p.totals.rowId = row.rowId).filterMap (·.portion c)

/-- The payments that name a charge. -/
def Charge.paymentsIn (paid : List ChargePayment) (c : Charge) : List ChargePayment :=
  paid.filter fun p => p.chargeId = c.id

/-- The payments into a share of an installment fee. The shares of other charges are not paid. -/
def Charge.sharePaymentsIn (paid : List ChargePayment) (c : Charge) (s : ChargeShare) :
    List ChargePayment :=
  if c.dueDate.isSome then [] else (c.paymentsIn paid).filter fun p => p.installment = s.installment

/-- A loan after the given postings of its own, by value: where there is room for it, every column
of a row, every charge and every share of one comes to what it held and the exact sum of what was
posted for it. -/
structure Loan.TalliesBy (ps : List Posting) (loan loan' : Loan) : Prop where
  columns : List.Forall₂ (fun row row' => ∀ c, (Money.orZero (row.accrued c)).Tallies
    (row.portionsIn ps c) (Money.orZero (row'.accrued c))) loan.schedule loan'.schedule
  charges : List.Forall₂ (fun c d => c.accrued.Tallies
    ((c.paymentsIn (ps.flatMap (·.payments))).map (·.amount)) d.accrued) loan.charges loan'.charges
  shares : List.Forall₂ (fun c d => List.Forall₂ (fun s t => s.accrued.Tallies
    ((c.sharePaymentsIn (ps.flatMap (·.payments)) s).map (·.amount)) t.accrued) c.shares d.shares)
    loan.charges loan'.charges

theorem Loan.AdvancedBy.talliesBy {ps : List Posting} {loan loan' : Loan}
    (h : loan.AdvancedBy ps loan') : loan.TalliesBy ps loan' where
  columns := h.rows.imp fun _ _ hrow c => ((ScheduleRow.advancedBy_iff.mp hrow).2 c).tallies
  charges := h.charges.imp fun _ _ hcharge => Money.tallies_of_addAll hcharge.accrued
  shares := by
    refine h.charges.imp fun c d hcharge => hcharge.shares.imp fun s t hshare => ?_
    have haccrued := hshare.accrued
    refine Money.tallies_of_addAll ?_
    rw [Charge.sharePaymentsIn, Charge.paymentsIn]
    split
    · next hdated =>
      rw [if_pos hdated] at haccrued
      exact haccrued
    · next hdated =>
      rw [if_neg hdated] at haccrued
      exact haccrued

/-- A turn advances the loan by its postings. -/
theorem Loan.Turn.advancedBy {t : RunTerms} {id : LoanId} {loan loan' : Loan} {ok : Bool}
    {log : List Posting} (h : loan.Turn t id loan' ok log) (hs : loan.Sound id)
    (hcharges : (loan.charges.map (·.id)).Nodup) : loan.AdvancedBy log loan' := by
  cases h with
  | fails h => exact .of_reversioned h.reversioned
  | idles h _ => exact .of_reversioned h.reversioned
  | @posts mid r ok h hposts =>
    obtain ⟨n, hresult⟩ := hposts.result
    have hmid : mid.Sound id := h.reversioned.sound hs
    have hmidCharges : (mid.charges.map (·.id)).Nodup := by
      rw [h.reversioned.same]
      exact hcharges
    have hloan' := (hposts.accepted_eq hmid).1
    refine (AdvancedBy.of_reversioned h.reversioned).trans ⟨?_, ?_, ?_⟩
    · rw [hloan']
    · rw [hloan']
      refine List.forall₂_map_right_iff.mpr (List.forall₂_same.mpr fun row hrow => ?_)
      refine settledBy_advancedBy (AccrualInput.accrue_isFor hresult)
        (AccrualInput.accrue_nodup hresult (RunTerms.nodup_fresh hmid)) ?_
      intro p _ c hc _ hid column
      obtain ⟨-, stored, hstored, -, rfl⟩ := Ledger.mem_candidatesOf hc
      have hsame : stored = row := List.inj_on_of_nodup_map hmid.rowIds hstored hrow hid
      rw [← hsame]
      cases column <;> exact .refl _
    · rw [hloan']
      exact AccrualInput.accrue_charges hresult hmidCharges

theorem Loan.Turn.balanced {t : RunTerms} {id : LoanId} {loan loan' : Loan} {ok : Bool}
    {log : List Posting} (h : loan.Turn t id loan' ok log) : ∀ p ∈ log, p.Balanced := by
  cases h with
  | fails _ => exact fun p hp => nomatch hp
  | idles _ _ => exact fun p hp => nomatch hp
  | posts _ hposts =>
    obtain ⟨n, hresult⟩ := hposts.result
    intro p hp
    obtain ⟨row, -, hisFor⟩ := exists_mem_of_sublistForall₂ (AccrualInput.accrue_isFor hresult) hp
    exact hisFor.balanced

/-- No two charges of a loan have the same number. -/
def Ledger.DistinctCharges (g : Ledger) : Prop :=
  ∀ id loan, g.loans.find? id = some loan → (loan.charges.map (·.id)).Nodup

/-- Books that differ by the given postings, in whatever they consist of. -/
structure Books.Grown (log : List Posting) (b b' : Books) : Prop where
  records : Books.Records log b b'
  balanced : ∀ p ∈ log, p.Balanced
  loan : ∀ id loan, b.ledger.loans.find? id = some loan →
    ∃ loan', b'.ledger.loans.find? id = some loan' ∧ loan.AdvancedBy (postingsOf id log) loan'
  noLoan : ∀ id, b.ledger.loans.find? id = none →
    b'.ledger.loans.find? id = none ∧ postingsOf id log = []

namespace Books

theorem Grown.refl (b : Books) : Grown [] b b where
  records := .refl b
  balanced _ h := nomatch h
  loan _ loan h := ⟨loan, h, .of_reversioned (.refl loan)⟩
  noLoan _ h := ⟨h, rfl⟩

theorem Grown.trans {ps qs : List Posting} {b b' b'' : Books} (h : Grown ps b b')
    (h' : Grown qs b' b'') : Grown (ps ++ qs) b b'' where
  records := h.records.trans h'.records
  balanced p hp := by
    rcases List.mem_append.mp hp with hp | hp
    · exact h.balanced p hp
    · exact h'.balanced p hp
  loan id loan hloan := by
    obtain ⟨loan', hloan', hadvanced⟩ := h.loan id loan hloan
    obtain ⟨loan'', hloan'', hadvanced'⟩ := h'.loan id loan' hloan'
    rw [postingsOf_append]
    exact ⟨loan'', hloan'', hadvanced.trans hadvanced'⟩
  noLoan id hnone := by
    obtain ⟨hnone', hps⟩ := h.noLoan id hnone
    obtain ⟨hnone'', hqs⟩ := h'.noLoan id hnone'
    rw [postingsOf_append, hps, hqs]
    exact ⟨hnone'', rfl⟩

theorem Grown.distinctCharges {log : List Posting} {b b' : Books} (h : Grown log b b')
    (hb : b.ledger.DistinctCharges) : b'.ledger.DistinctCharges := by
  intro id loan' hloan'
  cases hloan : b.ledger.loans.find? id with
  | none =>
    rw [(h.noLoan id hloan).1] at hloan'
    cases hloan'
  | some loan =>
    obtain ⟨found, hfound, hadvanced⟩ := h.loan id loan hloan
    have hsame : found = loan' := Option.some.inj (hfound.symm.trans hloan')
    rw [← hsame, Charge.map_id_of_advancedBy hadvanced.charges]
    exact hb id loan hloan

/-- A run grows the books by its postings. -/
theorem Ran.grown {t : RunTerms} {done : List LoanId} {log : List Posting} {b b' : Books}
    (h : Ran t done log b b') (hb : b.ledger.Sound) (hcharges : b.ledger.DistinctCharges) :
    Grown log b b' where
  records := h.records
  balanced p hp := by
    have hmem : p ∈ postingsOf p.transaction.loanId log :=
      List.mem_filter.mpr ⟨hp, decide_eq_true rfl⟩
    cases hloan : b.ledger.loans.find? p.transaction.loanId with
    | none =>
      rw [(h.noLoan _ hloan).2.1] at hmem
      cases hmem
    | some loan =>
      obtain ⟨loan', ok, -, hturn, -⟩ := h.loan _ loan hloan
      exact hturn.balanced p hmem
  loan id loan hloan := by
    obtain ⟨loan', ok, hloan', hturn, -⟩ := h.loan id loan hloan
    exact ⟨loan', hloan', hturn.advancedBy (hb id loan hloan) (hcharges id loan hloan)⟩
  noLoan id hnone := ⟨(h.noLoan id hnone).1, (h.noLoan id hnone).2.1⟩

end Books

/-- What can be asked of the books: a run over all candidate rows, or that writers will come before
the next commits of a loan, or that the journal will refuse a loan from now on. -/
inductive Call
  | run (batch : Batch) (mode : RunMode) (today : Date) (cancellation : Cancellation)
  | expectConflicts (id : LoanId) (count : UInt32)
  | refuseEntries (id : LoanId)

/-- The books after a call, also when the run ended in a fault. -/
def Call.perform (b : Books) : Call → Books
  | run batch mode today cancellation => (batch.run mode today none cancellation b).books
  | expectConflicts id count => { b with ledger := b.ledger.expectConflicts id count }
  | refuseEntries id => { b with journal := b.journal.refusing id }

/-- The books after several calls. -/
def Books.afterCalls (b : Books) (calls : List Call) : Books := calls.foldl Call.perform b

/-- A call grows the books by postings, and leaves them sound. -/
theorem Call.perform_grown {b : Books} (hb : b.ledger.Sound) (hcharges : b.ledger.DistinctCharges)
    (call : Call) : ∃ log, Books.Grown log b (call.perform b) ∧ (call.perform b).ledger.Sound := by
  cases call with
  | run batch mode today cancellation =>
    cases hs : batch.settings with
    | error r =>
      refine ⟨[], ?_⟩
      rw [perform, Batch.run_of_error hs]
      exact ⟨.refl b, hb⟩
    | ok s =>
      obtain ⟨log, hran⟩ : ∃ log, Books.Ran ⟨s, mode, today⟩
          (batch.succeeded mode today cancellation b) log b
          (perform b (.run batch mode today cancellation)) := Batch.run_ran _ _ _ _ hs hb
      exact ⟨log, hran.grown hb hcharges, hran.sound hb⟩
  | expectConflicts id count =>
    exact ⟨[], ⟨.silent rfl rfl rfl rfl, (fun p hp => nomatch hp), (Books.Grown.refl b).loan,
      (Books.Grown.refl b).noLoan⟩, hb⟩
  | refuseEntries id =>
    exact ⟨[], ⟨.silent rfl rfl rfl rfl, (fun p hp => nomatch hp), (Books.Grown.refl b).loan,
      (Books.Grown.refl b).noLoan⟩, hb⟩

theorem Books.afterCalls_grown {b : Books} (hb : b.ledger.Sound)
    (hcharges : b.ledger.DistinctCharges) (calls : List Call) :
    ∃ log, Books.Grown log b (b.afterCalls calls) ∧ (b.afterCalls calls).ledger.Sound := by
  induction calls generalizing b with
  | nil => exact ⟨[], .refl b, hb⟩
  | cons call calls ih =>
    obtain ⟨ps, hps, hsound⟩ := call.perform_grown hb hcharges
    obtain ⟨qs, hqs, hsound'⟩ := ih hsound (hps.distinctCharges hcharges)
    exact ⟨ps ++ qs, hps.trans hqs, hsound'⟩

/-- Books in which nothing has been written yet. -/
structure Books.Fresh (b : Books) : Prop where
  transactions : b.ledger.transactions = []
  payments : b.ledger.payments = []
  entries : b.journal.entries = []
  events : b.events = []

/-! What the ledger, the journal and the announcements tell of a transaction. -/

/-- A transaction as it is told of: its number, its loan, its amount and its date. -/
structure Mention where
  id : TransactionId
  loanId : LoanId
  amount : Money
  date : Date

/-- What the ledger tells of a transaction. -/
def Accrual.mention (a : Accrual) : Mention := ⟨a.id, a.loanId, a.amount, a.date⟩

/-- What a journal entry tells of its transactions. -/
def JournalEntry.mentions (e : JournalEntry) : List Mention :=
  e.transactions.map fun t => ⟨t.id, e.loanId, t.amount, t.date⟩

/-- What an announcement tells of a transaction, if it is of one. -/
def Event.mention? : Event → Option Mention
  | .accrualCreated loan id _ amount date => some ⟨id, loan, amount, date⟩
  | _ => none

/-- The charges that a journal entry says its transactions paid, and how much into each. -/
def JournalEntry.chargesPaid (e : JournalEntry) : List (TransactionId × ChargeId × Money) :=
  e.transactions.flatMap fun t => t.charges.map fun c => (t.id, c.chargeId, c.amount)

theorem JournalEntry.Records.mentions {p : Posting} {e : JournalEntry}
    (h : JournalEntry.Records p e) : e.mentions = [p.transaction.mention] := by
  obtain ⟨t, ht, hrecords⟩ := h.transactions
  rw [JournalEntry.mentions, ht, List.map_singleton, h.loanId, hrecords.id, hrecords.amount,
    hrecords.date, Accrual.mention]

theorem JournalEntry.Records.chargesPaid {p : Posting} {e : JournalEntry}
    (h : JournalEntry.Records p e) :
    e.chargesPaid = p.payments.map fun c => (c.transactionId, c.chargeId, c.amount) := by
  obtain ⟨t, ht, hrecords⟩ := h.transactions
  rw [JournalEntry.chargesPaid, ht, List.flatMap_singleton, hrecords.payments]

theorem Event.filterMap_mention? (es : List Event) :
    es.filterMap Event.mention? = (es.filter Event.isCreation).filterMap Event.mention? := by
  rw [List.filterMap_filter]
  refine List.filterMap_congr fun e _ => ?_
  cases e <;> rfl

/-- Books that hold the postings of `log` and nothing else, over loans that have grown by them from
those of `start`. -/
structure Books.Consistent (start now : Books) (log : List Posting) : Prop where
  transactions : now.ledger.transactions = log.map (·.transaction)
  payments : now.ledger.payments = log.flatMap (·.payments)
  entries : List.Forall₂ JournalEntry.Records log now.journal.entries
  events : now.events.filter Event.isCreation = log.map Posting.announcement
  /-- The journal and the announcements tell of the transactions of the ledger, in their order. -/
  journal : now.journal.entries.flatMap (·.mentions) =
    now.ledger.transactions.map (·.mention)
  announced : now.events.filterMap Event.mention? = now.ledger.transactions.map (·.mention)
  /-- The charges in the journal are the payments in the ledger. -/
  charges : now.journal.entries.flatMap (·.chargesPaid) =
    now.ledger.payments.map fun c => (c.transactionId, c.chargeId, c.amount)
  balanced : ∀ p ∈ log, p.Balanced
  loan : ∀ id loan, start.ledger.loans.find? id = some loan →
    ∃ loan', now.ledger.loans.find? id = some loan' ∧
      loan.AdvancedBy (postingsOf id log) loan' ∧ loan.TalliesBy (postingsOf id log) loan'
  noLoan : ∀ id, start.ledger.loans.find? id = none →
    now.ledger.loans.find? id = none ∧ postingsOf id log = []

/-- The books stay consistent over any sequence of runs, conflicts and refusals. -/
theorem Books.consistent_afterCalls {b : Books} (hfresh : b.Fresh) (hsound : b.ledger.Sound)
    (hcharges : b.ledger.DistinctCharges) (calls : List Call) :
    ∃ log, Books.Consistent b (b.afterCalls calls) log := by
  obtain ⟨log, hgrown, -⟩ := Books.afterCalls_grown hsound hcharges calls
  have htransactions := hgrown.records.transactions
  have hpayments := hgrown.records.payments
  obtain ⟨entries, hentries, hrecords⟩ := hgrown.records.entries
  obtain ⟨events, hevents, hcreated, -⟩ := hgrown.records.events
  rw [hfresh.transactions, List.nil_append] at htransactions
  rw [hfresh.payments, List.nil_append] at hpayments
  rw [hfresh.entries, List.nil_append] at hentries
  rw [hfresh.events, List.nil_append] at hevents
  have hmentions : log.map (·.transaction.mention) = (b.afterCalls calls).ledger.transactions.map
      (·.mention) := by rw [htransactions, List.map_map]; rfl
  refine ⟨log, {
    transactions := htransactions
    payments := hpayments
    entries := hentries ▸ hrecords
    events := hevents ▸ hcreated
    journal := ?_
    announced := ?_
    charges := ?_
    balanced := hgrown.balanced
    loan := fun id loan hloan => ?_
    noLoan := hgrown.noLoan }⟩
  · rw [hentries, ← hmentions, ← List.flatMap_pure_eq_map]
    exact (flatMap_eq_of_forall₂ hrecords fun p e h => h.mentions.symm).symm
  · rw [hevents, Event.filterMap_mention?, hcreated, ← hmentions, List.filterMap_map]
    exact congrFun List.filterMap_eq_map' log
  · rw [hentries, hpayments, List.map_flatMap]
    exact (flatMap_eq_of_forall₂ hrecords fun p e h => h.chargesPaid.symm).symm
  · obtain ⟨loan', hloan', hadvanced⟩ := hgrown.loan id loan hloan
    exact ⟨loan', hloan', hadvanced, hadvanced.talliesBy⟩

/-! Two monthly installments of 100.00 interest each, with a fee of 10.00 in the first. -/

/-- An amount in cents. -/
def cents (n : Nat) (h : n < Money.limit := by decide) : Money := ⟨false, n, 2, h, by decide⟩

/-- A row of 100.00 interest on which nothing has accrued. -/
def monthlyRow (rowId : RowId) (installment : InstallmentNumber) (fromDate dueDate : Date) :
    ScheduleRow where
  loanId := 1
  officeId := 3
  productId := 7
  rowId
  installment
  fromDate
  dueDate
  accruedTill := none
  interestFrom := none
  interestIncome := some (cents 10000)
  accruedInterest := none
  accruedFee := none
  accruedPenalty := none
  waivedInterest := none
  creditedFee := none
  creditedPenalty := none
  currency := ⟨"USD", 2⟩

/-- The first row: 2024-01-01 to 2024-01-31. -/
def januaryRow : ScheduleRow :=
  monthlyRow 101 1 ⟨739191, by decide, by decide⟩ ⟨739221, by decide, by decide⟩

/-- The second row: 2024-01-31 to 2024-03-01. -/
def februaryRow : ScheduleRow :=
  monthlyRow 102 2 ⟨739221, by decide, by decide⟩ ⟨739251, by decide, by decide⟩

/-- A fee of 10.00. -/
def tenFee (id : ChargeId) (dueDate : Date) : Charge :=
  .dueOn id (900 + id) dueDate dueDate (cents 1000) false

/-- An active loan with the given rows and charges. -/
def monthlyLoan (schedule : List ScheduleRow) (charges : List Charge) : Loan :=
  { Loan.blank 1 .active with schedule, charges }

/-- Books with one loan and nothing written. -/
def booksOf (loan : Loan) : Books := { Books.empty with ledger := Ledger.empty.putLoan loan }

theorem find?_booksOf {loan found : Loan} {id : LoanId}
    (h : (booksOf loan).ledger.loans.find? id = some found) : id = loan.id ∧ found = loan := by
  by_cases hid : id = loan.id
  · subst hid
    exact ⟨rfl, (Option.some.inj ((Table.find?_insert_self _ _ _).symm.trans h)).symm⟩
  · have hnone : (booksOf loan).ledger.loans.find? id = none :=
      Table.find?_insert_of_ne _ hid _
    rw [hnone] at h
    cases h

theorem sound_booksOf {loan : Loan} (h : loan.Sound loan.id) : (booksOf loan).ledger.Sound := by
  intro id found hfound
  obtain ⟨rfl, rfl⟩ := find?_booksOf hfound
  exact h

theorem fresh_booksOf (loan : Loan) : (booksOf loan).Fresh := ⟨rfl, rfl, rfl, rfl⟩

/-- A loan of both rows, with the fee due on 2024-01-10. -/
def januaryFeeLoan : Loan :=
  monthlyLoan [januaryRow, februaryRow] [tenFee 11 ⟨739200, by decide, by decide⟩]

/-- 2024-02-15. -/
def midFebruary : Date := ⟨739236, by decide, by decide⟩

/-- Runs with standard settings. -/
def standardBatch : Batch := ⟨.standard, none⟩

/-- 2024-03-01. -/
def firstOfMarch : Date := ⟨739251, by decide, by decide⟩

/-- Up to 2024-02-15, then as of 2024-03-01, with a conflict before and a refusal between. -/
def januaryFeeCalls : List Call :=
  [.expectConflicts 1 1, .run standardBatch (.tillDate midFebruary) midFebruary .never,
    .refuseEntries 1, .run standardBatch .asOfToday firstOfMarch .never]

theorem consistent_afterCalls_januaryFee :
    (∃ log, Books.Consistent (booksOf januaryFeeLoan)
      ((booksOf januaryFeeLoan).afterCalls januaryFeeCalls) log) ∧
    ((booksOf januaryFeeLoan).afterCalls januaryFeeCalls).ledger.transactions.map (·.amount) =
      [cents 11000, cents 5000] ∧
    ((booksOf januaryFeeLoan).afterCalls januaryFeeCalls).journal.entries.map
      (fun e => e.chargesPaid.map (·.2)) = [[(11, cents 1000)], []] := by
  refine ⟨Books.consistent_afterCalls (fresh_booksOf _) (sound_booksOf ?_) ?_ _, ?_, ?_⟩
  · exact ⟨rfl, by decide, by decide⟩
  · intro id found hfound
    obtain ⟨rfl, rfl⟩ := find?_booksOf hfound
    decide
  · decide +kernel
  · decide +kernel

end LoanLedger
