import LoanLedger.Proofs.Interleaving.Balance

/-!
Stale rows. In the exact range a column never falls back to a value that it had, so a commit from
rows that are no longer current leaves the column behind what was posted. The columns are balanced
at all times exactly if all that is accepted was computed from current rows.
-/

set_option autoImplicit false
set_option relaxedAutoImplicit false

namespace LoanLedger

/-- A ledger of loans in range. -/
def Ledger.InRange (g : Ledger) : Prop :=
  ∀ id loan, g.loans.find? id = some loan → loan.InRange

namespace World

variable {w w' : World} {step : Step} {a : Attempt} {g : Ledger}

/-- A row as it was read at some time: its columns have grown since, if they have changed. -/
def Lags (w : World) (row : ScheduleRow) : Prop :=
  ∃ loan, w.books.ledger.loans.find? row.loanId = some loan ∧
    ∃ stored ∈ loan.schedule, stored.SameTerms row ∧
      ∀ c, Small (21 * 10 ^ 17) (row.accrued c) ∧ Grows (row.accrued c) (stored.accrued c)

/-- A world in which the loans have kept their terms, all columns are small, and no row that was
read is ahead of the loan. -/
structure Ranged (g : Ledger) (w : World) : Prop where
  loan : ∀ id loan, w.books.ledger.loans.find? id = some loan →
    ∃ loan₀, g.loans.find? id = some loan₀ ∧ loan₀.SameTerms loan ∧
      ∀ row ∈ loan.schedule, ∀ c, Small (21 * 10 ^ 17) (row.accrued c)
  readings : ∀ r ∈ w.readings, ∀ row ∈ r.rows, w.Lags row
  attempts : ∀ a ∈ w.attempts, ∀ row ∈ a.rows, w.Lags row

theorem ranged_start {b : Books} (hin : b.ledger.InRange) : (start b).Ranged b.ledger where
  loan id loan hloan := ⟨loan, hloan, .refl loan, fun row hrow c =>
    (((hin id loan hloan).row hrow).small_accrued c).mono (by norm_num)⟩
  readings _ h := nomatch h
  attempts _ h := nomatch h

/-- What is posted when an attempt is accepted: it advances, exactly, a row that lags behind. -/
theorem Ranged.exact (hranged : w.Ranged g) (hw : w.Valid) (hin : g.InRange) (ha : a ∈ w.attempts)
    (hloan : w.books.ledger.loans.find? a.loanId = some a.loan) {p : Posting}
    (hp : p ∈ a.result.postings) :
    ∃ row ∈ a.rows, p.IsFor row ∧
      (∃ stored ∈ a.loan.schedule, stored.rowId = row.rowId ∧
        ∀ c, Grows (row.accrued c) (stored.accrued c)) ∧
      ∀ c, Small (21 * 10 ^ 17) (row.accrued c) ∧ Small (21 * 10 ^ 17) (p.total c) ∧
        Small (42 * 10 ^ 17) (p.portion c) ∧
        (Money.orZero (p.total c)).value =
          (Money.orZero (row.accrued c)).value + (Money.orZero (p.portion c)).value := by
  obtain ⟨n, hresult⟩ := (hw.attempts a ha).result
  obtain ⟨loan₀, hloan₀, hterms, -⟩ := hranged.loan _ _ hloan
  have hlags : ∀ row ∈ a.rows, ∃ stored ∈ a.loan.schedule, stored.SameTerms row ∧
      ∀ c, Small (21 * 10 ^ 17) (row.accrued c) ∧ Grows (row.accrued c) (stored.accrued c) := by
    intro row hrow
    obtain ⟨loan, hfound, hstored⟩ := hranged.attempts a ha row hrow
    have hid : row.loanId = a.loanId :=
      (AccrualInput.validate_eq_ok (AccrualInput.accrue_eq_ok hresult).1 hrow).1
    rw [hid, hloan] at hfound
    exact Option.some.inj hfound ▸ hstored
  have hknows : ∀ row ∈ a.rows, loan₀.Knows row := by
    intro row hrow
    obtain ⟨stored, hstored, hsame, hcolumns⟩ := hlags row hrow
    exact hterms.knows ⟨⟨stored, hstored, hsame⟩, fun c => (hcolumns c).1⟩
  obtain ⟨row, hrow, hisFor, hexact⟩ :=
    hterms.accrue_exact (hin _ _ hloan₀) hknows hresult hp
  obtain ⟨stored, hstored, hsame, hcolumns⟩ := hlags row hrow
  exact ⟨row, hrow, hisFor, ⟨stored, hstored, hsame.rowId.symm, fun c => (hcolumns c).2⟩,
    fun c => ⟨(hcolumns c).1, hexact c⟩⟩

/-- A row that takes postings from current rows grows, and stays small. -/
theorem Ranged.settledBy_grows (hranged : w.Ranged g) (hw : w.Valid) (hin : g.InRange)
    (ha : a ∈ w.attempts) (hloan : w.books.ledger.loans.find? a.loanId = some a.loan)
    (hcurrent : a.Current) {row : ScheduleRow} (hrow : row ∈ a.loan.schedule) (c : Column) :
    Grows (row.accrued c) ((Loan.settledBy a.result.postings row).accrued c) ∧
      Small (21 * 10 ^ 17) ((Loan.settledBy a.result.postings row).accrued c) := by
  cases hp : a.result.postings.find? fun p => p.totals.rowId == row.rowId with
  | none =>
    obtain ⟨-, -, -, hsmall⟩ := hranged.loan _ _ hloan
    rw [Loan.settledBy_of_find?_eq_none hp]
    exact ⟨.refl _, hsmall row hrow c⟩
  | some p =>
    have hmem := List.mem_of_find?_eq_some hp
    have hid := List.find?_some hp
    rw [beq_iff_eq] at hid
    obtain ⟨read, hread, hisFor, -, hexact⟩ := hranged.exact hw hin ha hloan hmem
    obtain ⟨hbefore, htotal, hportion, -⟩ := hexact c
    have hagree : (Money.orZero (read.accrued c)).Agree (Money.orZero (row.accrued c)) :=
      hcurrent p hmem read hread hisFor.rowId.symm row hrow (hid.symm.trans hisFor.rowId) c
    have hgrows : Grows (row.accrued c) (read.accrued c) := .inl hagree.symm
    rw [Loan.settledBy_of_find?_eq_some hp, Loan.accrued_settle]
    exact ⟨hgrows.trans ((hisFor.advances c).grows hbefore hportion), htotal⟩

/-- Rows that were read are not ahead of the loan after a step either. -/
theorem Transition.lags {o : Option Attempt} (h : w.Transition w' o) (hranged : w.Ranged g)
    (hw : w.Valid) (hin : g.InRange) (hcurrent : ∀ a, o = some a → a.Current) {row : ScheduleRow}
    (hlags : w.Lags row) : w'.Lags row := by
  obtain ⟨loan, hloan, stored, hstored, hsame, hcolumns⟩ := hlags
  obtain ⟨loan', hloan', ⟨hreversioned, -⟩ | ⟨a, ho, ha, hid, rfl, haccept, -⟩⟩ := h.next hw hloan
  · refine ⟨loan', hloan', stored, ?_, hsame, hcolumns⟩
    rw [hreversioned.same]
    exact hstored
  · refine ⟨loan', hloan', Loan.settledBy a.result.postings stored, ?_,
      (Loan.settledBy_sameTerms _ _).symm.trans hsame, fun c => ⟨(hcolumns c).1, ?_⟩⟩
    · rw [((hw.attempts a ha).accepted_eq haccept).1]
      exact List.mem_map_of_mem hstored
    · exact (hcolumns c).2.trans
        (hranged.settledBy_grows hw hin ha (hid ▸ hloan) (hcurrent a ho) hstored c).1

private theorem Transition.loan {o : Option Attempt} (h : w.Transition w' o)
    (hranged : w.Ranged g) (hw : w.Valid) (hin : g.InRange)
    (hcurrent : ∀ a, o = some a → a.Current) {id : LoanId} {loan' : Loan}
    (hloan' : w'.books.ledger.loans.find? id = some loan') :
    ∃ loan₀, g.loans.find? id = some loan₀ ∧ loan₀.SameTerms loan' ∧
      ∀ row ∈ loan'.schedule, ∀ c, Small (21 * 10 ^ 17) (row.accrued c) := by
  obtain ⟨loan, hloan, hreversioned | ⟨a, ho, ha, hid, rfl, haccept⟩⟩ := h.before hw hloan'
  · obtain ⟨loan₀, hloan₀, hterms, hsmall⟩ := hranged.loan id loan hloan
    refine ⟨loan₀, hloan₀, hterms.trans hreversioned.sameTerms, ?_⟩
    rw [hreversioned.same]
    exact hsmall
  · obtain ⟨loan₀, hloan₀, hterms, -⟩ := hranged.loan id _ hloan
    obtain ⟨n, hresult⟩ := (hw.attempts a ha).result
    have hsame := ((hw.attempts a ha).accepted_eq haccept).1
    refine ⟨loan₀, hloan₀, hterms.trans ⟨?_, ?_, ?_⟩, ?_⟩
    · rw [hsame]
    · rw [hsame]
      exact Loan.forall₂_settledBy _ _
    · rw [hsame]
      exact AccrualInput.accrue_sameTerms hresult
    · rw [hsame]
      intro row hrow c
      obtain ⟨stored, hstored, rfl⟩ := List.mem_map.mp hrow
      exact (hranged.settledBy_grows hw hin ha (hid ▸ hloan) (hcurrent a ho) hstored c).2

theorem Ranged.perform (hranged : w.Ranged g) (hw : w.Valid) (hin : g.InRange)
    (hcurrent : ∀ a, w.Accepts step a → a.Current) : (w.perform step).Ranged g := by
  obtain ⟨o, htransition, haccepts⟩ := perform_transition hw step
  have hcurrent : ∀ a, o = some a → a.Current := fun a ha => hcurrent a ((haccepts a).mpr ha)
  have hlags : ∀ row, w.Lags row → (w.perform step).Lags row :=
    fun row => htransition.lags hranged hw hin hcurrent
  refine ⟨fun id found hfound => htransition.loan hranged hw hin hcurrent hfound,
    fun r hr row hrow => ?_, fun a ha row hrow => ?_⟩
  · rcases mem_readings_perform hr with hr | ⟨-, terms, only, rfl⟩
    · exact hlags row (hranged.readings r hr row hrow)
    · obtain ⟨loan, hloan, hcandidate⟩ := Ledger.mem_candidates hw.sound.filed hrow
      obtain ⟨-, stored, hstored, -, rfl⟩ := Ledger.mem_candidatesOf hcandidate
      obtain ⟨-, -, -, hsmall⟩ := hranged.loan _ loan hloan
      refine hlags _ ⟨loan, hloan, stored, hstored, rfl, fun c => ?_⟩
      cases c
      · exact ⟨hsmall stored hstored .interest, .refl _⟩
      · exact ⟨hsmall stored hstored .fee, .refl _⟩
      · exact ⟨hsmall stored hstored .penalty, .refl _⟩
  · rcases mem_attempts_perform ha with ha | ⟨-, r, hr, id, ha⟩
    · exact hlags row (hranged.attempts a ha row hrow)
    · obtain ⟨-, -, -, -, -, -, hrows⟩ := attempt?_eq_some ha
      rw [hrows] at hrow
      refine hlags row (hranged.readings r hr row ?_)
      simp only [Reading.rowsOf] at hrow
      split at hrow
      · exact List.mem_of_mem_filter hrow
      · exact hrow

/-- Where an accepted commit keeps the balance, its portions are added to the columns that the loan
has. -/
theorem Transition.advancesBy (h : w.Transition w' (some a)) (hw : w.Valid)
    (hbalanced : w.Balanced g) (hbalanced' : w'.Balanced g)
    (hloan₀ : ∃ loan₀, g.loans.find? a.loanId = some loan₀) {p : Posting}
    (hp : p ∈ a.result.postings) {stored : ScheduleRow} (hstored : stored ∈ a.loan.schedule)
    (hid : stored.rowId = p.totals.rowId) (c : Column) :
    AdvancesBy (p.portion c).toList (stored.accrued c) (p.total c) := by
  cases h with
  | @accepts _ loan' ha hloan haccept hloans _ hcommitted =>
    have hvalid := hw.attempts a ha
    obtain ⟨loan₀, hloan₀⟩ := hloan₀
    obtain ⟨before, hbefore, hrows⟩ := hbalanced _ _ hloan₀
    have hbefore : before = a.loan := Option.some.inj (hbefore.symm.trans hloan)
    subst hbefore
    obtain ⟨after, hafter, hrows'⟩ := hbalanced' _ _ hloan₀
    rw [hloans, Table.find?_insert_self] at hafter
    rw [← Option.some.inj hafter, (hvalid.accepted_eq haccept).1, hcommitted, postingsOf_append,
      postingsOf_eq_self hvalid.loanId_postings] at hrows'
    obtain ⟨row₀, -, hadvanced, hadvanced'⟩ := exists_mem_of_forall₂
      (forall₂_and hrows (List.forall₂_map_right_iff.mp hrows')).flip hstored
    have hid₀ : row₀.rowId = stored.rowId := (congrArg (·.rowId) hadvanced.terms).symm
    have hbefore := (ScheduleRow.advancedBy_iff.mp hadvanced).2 c
    have hafter := (ScheduleRow.advancedBy_iff.mp hadvanced').2 c
    rw [List.filter_append, List.filterMap_append] at hafter
    have hadded := hbefore.cancel hafter
    have hfound : a.result.postings.find? (fun q => q.totals.rowId == stored.rowId) = some p := by
      rw [hid]
      exact find?_key_eq_some (fun q : Posting => q.totals.rowId) hvalid.nodup_postings hp
    rw [hid₀, Loan.portions_eq hvalid.nodup_postings, hfound, Option.bind_some,
      Loan.settledBy_of_find?_eq_some hfound, Loan.accrued_settle] at hadded
    exact hadded

/-- An attempt whose commit keeps the balance was computed from current rows. -/
theorem Transition.current (h : w.Transition w' (some a)) (hranged : w.Ranged g) (hw : w.Valid)
    (hin : g.InRange) (hbalanced : w.Balanced g) (hbalanced' : w'.Balanced g) : a.Current := by
  intro p hp row hrow hid stored hstored hstoredId c
  obtain ⟨ha, hloan⟩ : a ∈ w.attempts ∧ w.books.ledger.loans.find? a.loanId = some a.loan := by
    cases h with
    | accepts ha hloan _ _ _ _ => exact ⟨ha, hloan⟩
  have hvalid := hw.attempts a ha
  obtain ⟨loan₀, hloan₀, -, hsmall⟩ := hranged.loan _ _ hloan
  obtain ⟨read, hread, hisFor, ⟨known, hknown, hknownId, hgrows⟩, hexact⟩ :=
    hranged.exact hw hin ha hloan hp
  have hsame : read = row :=
    List.inj_on_of_nodup_map hvalid.nodup hread hrow (hisFor.rowId.symm.trans hid.symm)
  subst hsame
  have hsame : known = stored :=
    List.inj_on_of_nodup_map hvalid.sound.rowIds hknown hstored (hknownId.trans hstoredId.symm)
  subst hsame
  obtain ⟨-, -, hportion, htotal⟩ := hexact c
  rcases hgrows c with hagree | hlt
  · exact hagree
  · -- the portion was computed for the column as it was read, and added to the column as it is
    have hadded := h.advancesBy hw hbalanced hbalanced' ⟨loan₀, hloan₀⟩ hp hstored
      (hstoredId.trans hid) c
    have hvalue := hadded.value_eq (hsmall known hstored c) hportion
    rw [htotal] at hvalue
    linarith

theorem commitsCurrent_of_balanced {steps : List Step} (hranged : w.Ranged g) (hw : w.Valid)
    (hin : g.InRange) (hbalanced : ∀ n, (w.after (steps.take n)).Balanced g) :
    w.CommitsCurrent steps := by
  induction steps generalizing w with
  | nil => trivial
  | cons step steps ih =>
    obtain ⟨o, htransition, haccepts⟩ := perform_transition hw step
    have hstep : ∀ a, w.Accepts step a → a.Current := by
      intro a ha
      rw [(haccepts a).mp ha] at htransition
      exact htransition.current hranged hw hin (hbalanced 0) (hbalanced 1)
    exact ⟨hstep, ih (hranged.perform hw hin hstep) (hw.perform step) fun n => hbalanced (n + 1)⟩

/-- Runs side by side. In any order of steps the books hold what was committed. The columns are
balanced at all times if all that is accepted was computed from current rows; and in the exact range
only then. -/
theorem balanced_iff_commitsCurrent {b : Books} (hb : b.ledger.Sound) (steps : List Step) :
    (∀ n, Books.Records ((start b).after (steps.take n)).committed b
      ((start b).after (steps.take n)).books) ∧
    ((start b).CommitsCurrent steps →
      ∀ n, ((start b).after (steps.take n)).Balanced b.ledger) ∧
    (b.ledger.InRange → (∀ n, ((start b).after (steps.take n)).Balanced b.ledger) →
      (start b).CommitsCurrent steps) :=
  ⟨fun n => records_after (valid_start hb) (.refl b) (steps.take n),
    fun hcurrent n => hcurrent.balanced (valid_start hb) (balanced_start b) n,
    fun hin hbalanced => commitsCurrent_of_balanced (ranged_start hin) (valid_start hb) hin hbalanced⟩

end World

/-! Two runs as of 2024-02-01 over the first monthly installment of 100.00. -/

/-- A loan of the first row alone. -/
def januaryLoan : Loan := monthlyLoan [januaryRow] []

/-- Standard terms, as of 2024-02-01. -/
def februaryFirst : RunTerms := ⟨.standard, .asOfToday, ⟨739222, by decide, by decide⟩⟩

/-- Both runs load the loan before one of them commits. -/
def freshSteps : List Step :=
  [.read februaryFirst none, .read februaryFirst none, .load 0 1, .load 1 1, .commit 0, .commit 1]

theorem balanced_iff_commitsCurrent_january :
    (∀ n, ((World.start (booksOf januaryLoan)).after (freshSteps.take n)).Balanced
      (booksOf januaryLoan).ledger) ∧
    ((World.start (booksOf januaryLoan)).after freshSteps).books.ledger.transactions.map
      (·.amount) = [cents 10000] := by
  have hsound : (booksOf januaryLoan).ledger.Sound :=
    sound_booksOf ⟨rfl, by decide, by decide⟩
  have hcurrent : (World.start (booksOf januaryLoan)).CommitsCurrent freshSteps :=
    World.commitsCurrent_of_attempts (by decide +kernel)
  exact ⟨(World.balanced_iff_commitsCurrent hsound freshSteps).2.1 hcurrent, by decide +kernel⟩

/-- The first run loads the loan after the second has committed, on the rows that it had read
before. -/
def staleSteps : List Step :=
  [.read februaryFirst none, .read februaryFirst none, .load 1 1, .commit 0, .load 0 1, .commit 1]

/-- The books after a run on rows that were read before, or on all candidate rows. -/
def Books.toFebruaryFirst (b : Books) (rows : Option (List ScheduleRow)) : Books :=
  (Batch.run ⟨.standard, none⟩ .asOfToday februaryFirst.today rows .never b).books

/-- The income is posted twice, and the column holds it once; so it is when one run follows the
other, on rows that were read before the first. -/
theorem balanced_staleSteps :
    let w := (World.start (booksOf januaryLoan)).after staleSteps
    let twice := ((booksOf januaryLoan).toFebruaryFirst none).toFebruaryFirst (some [januaryRow])
    w.books.ledger.transactions.map (·.amount) = [cents 10000, cents 10000] ∧
      ¬w.Balanced (booksOf januaryLoan).ledger ∧
      twice.ledger.transactions.map (·.amount) = [cents 10000, cents 10000] ∧
      (twice.ledger.loans.find? 1).map (fun loan => loan.schedule.map (·.accruedInterest)) =
        some [some (cents 10000)] := by
  intro w twice
  refine ⟨by decide +kernel, fun hbalanced => ?_, by decide +kernel, by decide +kernel⟩
  obtain ⟨loan, hloan, hrows⟩ := hbalanced 1 januaryLoan (Table.find?_insert_self _ _ _)
  have hcolumn : (w.books.ledger.loans.find? 1).map
      (fun loan => loan.schedule.map (·.accruedInterest)) = some [some (cents 10000)] := by
    decide +kernel
  rw [hloan] at hcolumn
  have hschedule : loan.schedule.map (·.accruedInterest) = [some (cents 10000)] :=
    Option.some.inj hcolumn
  have hrows : List.Forall₂ _ [januaryRow] loan.schedule := hrows
  obtain ⟨row, rows, hrow, -, heq⟩ := List.forall₂_cons_left_iff.mp hrows
  rw [heq, List.map_cons] at hschedule
  have hrowColumn : row.accruedInterest = some (cents 10000) := (List.cons.inj hschedule).1
  have hportions : ((postingsOf 1 w.committed).filter fun p =>
      p.totals.rowId = januaryRow.rowId).filterMap (·.transaction.interest) =
      [cents 10000, cents 10000] := by decide +kernel
  obtain ⟨total, htotal, hagree⟩ := hrow.interest
  rw [hportions] at htotal
  have htotal : cents 20000 = total := Except.ok.inj htotal
  rw [hrowColumn, ← htotal] at hagree
  exact absurd hagree (by decide)

end LoanLedger
