import LoanLedger.Proofs.Accrual.Faultless
import LoanLedger.Proofs.Consistency
import LoanLedger.Proofs.Ledger.Lift

/-!
Catching up. Whatever runs came before, a run as of a date leaves the rows that are due by then with
the whole of their income, as if it had been the only run.
-/

set_option autoImplicit false
set_option relaxedAutoImplicit false

namespace LoanLedger

namespace Loan

/-- The targets of a row for its whole period. -/
def wholeTargets (loan : Loan) (s : Settings) (row : ScheduleRow) : Except Fault Targets :=
  (loan.inputOn loan.id []).targets s loan.charges row (.whole row.dueDate)

/-- A loan on its way: its rows are. -/
structure Approaches (s : Settings) (loan₀ loan : Loan) : Prop where
  terms : loan₀.SameTerms loan
  rows : List.Forall₂ (fun row₀ row => row₀.Approaches (loan₀.wholeTargets s row₀) row)
    loan₀.schedule loan.schedule

/-- The rows of a loan that are due by a date have the whole of their income. -/
def CaughtUp (s : Settings) (today : Date) (loan₀ loan : Loan) : Prop :=
  List.Forall₂ (fun row₀ row => row₀.SameTerms row ∧
    (row₀.dueDate ≤ today → row₀.CaughtUp (loan₀.wholeTargets s row₀) row))
    loan₀.schedule loan.schedule

variable {s : Settings} {id : LoanId} {loan₀ loan loan' : Loan} {rows : List ScheduleRow}

theorem Approaches.refl (h : loan.InRange) : loan.Approaches s loan where
  terms := .refl loan
  rows := List.forall₂_same.mpr fun _ hrow => .refl (h.row hrow)

theorem Approaches.sized (h : loan₀.Approaches s loan) (hn : loan₀.Nonneg) : loan.Sized := by
  have hrow : ∀ row ∈ loan.schedule, ∃ row₀ ∈ loan₀.schedule,
      row₀.Approaches (loan₀.wholeTargets s row₀) row :=
    fun row hrow => exists_mem_of_forall₂ h.rows.flip hrow
  refine ⟨fun row hmem c => ?_, fun row hmem c => ?_⟩
  · obtain ⟨row₀, -, happroaches⟩ := hrow row hmem
    exact happroaches.small c
  · obtain ⟨row₀, hrow₀, happroaches⟩ := hrow row hmem
    exact (hn.orZero hrow₀ fun _ ha => ScheduleRow.mem_amounts_of_accrued ha).trans
      (happroaches.le_accrued c)

/-- A loan whose rows are lifted comes closer to its whole income. -/
theorem Approaches.of_lifts (h : loan₀.Approaches s loan) (hin : loan₀.InRange) (hn : loan₀.Nonneg)
    (hterms : loan₀.SameTerms loan')
    (hlifts : List.Forall₂ (Lifts s loan₀) loan.schedule loan'.schedule) :
    loan₀.Approaches s loan' where
  terms := hterms
  rows := by
    refine (forall₂_comp (forall₂_mem h.rows) hlifts fun row₀ row row' hrow hlift => ?_)
    obtain ⟨hrow₀, -, happroaches⟩ := hrow
    rcases hlift with rfl | ⟨e, x, hfits, hx, hlift⟩
    · exact happroaches
    · have hdueDate : row.dueDate = row₀.dueDate := congrArg (·.dueDate) happroaches.terms
      rw [loan₀.targets_congr happroaches.terms] at hx
      refine happroaches.lifted hlift fun y hy c => ?_
      have hrefl := SameTerms.refl loan₀
      refine AccrualInput.targets_le_whole (hrefl.inputInRange hin hrow₀)
        (hrefl.inputNonneg hn hrow₀) ?_ hx hy c
      cases e <;> simpa only [Extent.Fits, hdueDate] using hfits

/-- An accrual as of a date brings the rows that are due by then their whole income. -/
theorem Approaches.caughtUp {t : RunTerms} {r : AccrualResult}
    (h : loan₀.Approaches t.settings loan) (hs : loan.Sound id) (hin : loan₀.InRange)
    (hn : loan₀.Nonneg) (hresult : t.Yields id loan (t.fresh loan) r)
    (hactive : loan.status.isActive = true) (hmode : t.mode = .asOfToday) :
    List.Forall₂ (fun row₀ row => row₀.SameTerms (settledBy r.postings row) ∧
      (row₀.dueDate ≤ t.today →
        row₀.CaughtUp (loan₀.wholeTargets t.settings row₀) (settledBy r.postings row)))
      loan₀.schedule loan.schedule := by
  refine (forall₂_mem h.rows).imp fun row₀ row ⟨hrow₀, hrow, happroaches⟩ => ?_
  refine ⟨happroaches.terms.trans (settledBy_sameTerms _ _), fun hdue => ?_⟩
  have hdueDate : row.dueDate = row₀.dueDate := congrArg (·.dueDate) happroaches.terms
  have hreach : row.dueDate ≤ t.mode.reach t.today := by
    rw [hmode, hdueDate]
    exact hdue
  obtain ⟨x, hx, hlift⟩ :=
    h.terms.lifted_of_due hs hin hn (h.sized hn) hresult hactive hrow hreach
  rw [loan₀.targets_congr happroaches.terms, hdueDate] at hx
  exact happroaches.caughtUp hx hlift

/-- A turn brings the loan closer to its whole income and takes nothing back; if it succeeds as of a
date, the rows that are due by then have it. -/
theorem Turn.approaches {t : RunTerms} {ok : Bool} {log : List Posting}
    (hturn : loan.Turn t id loan' ok log) (h : loan₀.Approaches t.settings loan)
    (hs : loan.Sound id) (hin : loan₀.InRange) (hn : loan₀.Nonneg) :
    loan₀.Approaches t.settings loan' ∧ loan.Rises loan' ∧
      (ok = true → loan.status.isActive = true → t.mode = .asOfToday →
        loan₀.CaughtUp t.settings t.today loan') := by
  obtain ⟨hterms, -, hlifts⟩ := hturn.lifts h.terms hs hin hn (h.sized hn)
  refine ⟨h.of_lifts hin hn hterms hlifts, .of_lifts hlifts, ?_⟩
  rintro rfl hactive hmode
  obtain ⟨r, hresult, rfl⟩ := hturn.yields_of_success hactive
  simp only [CaughtUp]
  rw [hturn.schedule_eq hs]
  exact List.forall₂_map_right_iff.mpr (h.caughtUp hs hin hn hresult hactive hmode)

/-- Two loans that caught up from the same one agree on the rows that are due. -/
theorem CaughtUp.values_eq {today : Date} (h : loan₀.CaughtUp s today loan)
    (h' : loan₀.CaughtUp s today loan') :
    List.Forall₂ (fun row row' => row.dueDate ≤ today →
      ∀ c, (Money.orZero (row.accrued c)).value = (Money.orZero (row'.accrued c)).value)
      loan.schedule loan'.schedule := by
  refine forall₂_comp h.flip h' fun row row₀ row' ⟨hterms, hrow⟩ ⟨_, hrow'⟩ hdue c => ?_
  have hdueDate : row.dueDate = row₀.dueDate := congrArg (·.dueDate) hterms
  obtain ⟨x, hx, hvalue⟩ := hrow (hdueDate ▸ hdue)
  obtain ⟨x', hx', hvalue'⟩ := hrow' (hdueDate ▸ hdue)
  rw [hx] at hx'
  rw [hvalue, hvalue', Except.ok.inj hx']

end Loan

variable {s : Settings} {id : LoanId} {loan₀ loan : Loan} {today : Date}

/-- A call that is a run under the given settings, or no run at all. -/
def Call.Under (s : Settings) : Call → Prop
  | .run batch _ _ _ => batch.settings = .ok s
  | .expectConflicts _ _ => True
  | .refuseEntries _ => True

/-- Books that file their loans, with a sound one of which something holds. -/
structure Books.Holds (id : LoanId) (P : Loan → Prop) (b : Books) : Prop where
  filed : b.ledger.Filed
  loan : ∃ loan, b.ledger.loans.find? id = some loan ∧ loan.Sound id ∧ P loan

theorem Call.perform_holds {b : Books} {call : Call} {P : Loan → Prop} (hcall : call.Under s)
    (hkept : ∀ {t : RunTerms} {loan loan' : Loan} {ok : Bool} {log : List Posting}, t.settings = s →
      loan.Turn t id loan' ok log → loan.Sound id → P loan → P loan')
    (h : b.Holds id P) : (call.perform b).Holds id P := by
  obtain ⟨loan, hloan, hsound, hP⟩ := h.loan
  cases call with
  | run batch mode day cancellation =>
    obtain ⟨log, hran⟩ := batch.run_ran_of_filed mode day cancellation b hcall h.filed
    obtain ⟨loan', ok, hloan', hturn, -⟩ := hran.loan id loan hloan
    exact ⟨hran.filed h.filed, loan', hloan', hturn.sound hsound, hkept rfl hturn hsound hP⟩
  | expectConflicts k count => exact ⟨h.filed, loan, hloan, hsound, hP⟩
  | refuseEntries k => exact ⟨h.filed, loan, hloan, hsound, hP⟩

/-- What the turns of a loan keep, any sequence of calls keeps. -/
theorem Books.afterCalls_holds {b : Books} {calls : List Call} {P : Loan → Prop}
    (hcalls : ∀ call ∈ calls, call.Under s)
    (hkept : ∀ {t : RunTerms} {loan loan' : Loan} {ok : Bool} {log : List Posting}, t.settings = s →
      loan.Turn t id loan' ok log → loan.Sound id → P loan → P loan')
    (h : b.Holds id P) : (b.afterCalls calls).Holds id P := by
  induction calls generalizing b with
  | nil => exact h
  | cons call calls ih =>
    obtain ⟨hcall, hcalls⟩ := List.forall_mem_cons.mp hcalls
    exact ih hcalls (call.perform_holds hcall hkept h)

/-- Whatever is called, a loan comes closer to its whole income and takes nothing back. -/
theorem Books.afterCalls_approaches {b : Books} {calls : List Call}
    (hcalls : ∀ call ∈ calls, call.Under s) (hfiled : b.ledger.Filed) (hin : loan₀.InRange)
    (hn : loan₀.Nonneg) (hloan : b.ledger.loans.find? id = some loan) (hsound : loan.Sound id)
    (h : loan₀.Approaches s loan) :
    (b.afterCalls calls).Holds id fun loan' => loan₀.Approaches s loan' ∧ loan.Rises loan' := by
  refine afterCalls_holds hcalls ?_ ⟨hfiled, loan, hloan, hsound, h, .refl loan⟩
  rintro t mid loan' ok log rfl hturn hmid ⟨happroaches, hrises⟩
  obtain ⟨happroaches', hrises', -⟩ := hturn.approaches happroaches hmid hin hn
  exact ⟨happroaches', hrises.trans hrises'⟩

/-- A run as of a date that succeeds for a loan lets it catch up. -/
theorem Batch.run_caughtUp {batch : Batch} (c : Cancellation) (st : Books)
    (hs : batch.settings = .ok s) (hfiled : st.ledger.Filed) (hin : loan₀.InRange)
    (hn : loan₀.Nonneg) (hloan : st.ledger.loans.find? id = some loan) (hsound : loan.Sound id)
    (h : loan₀.Approaches s loan) (hid : id ∈ batch.succeeded .asOfToday today c st) :
    ∃ loan', (batch.run .asOfToday today none c st).books.ledger.loans.find? id = some loan' ∧
      loan₀.CaughtUp s today loan' := by
  have hactive := active_of_mem_succeeded hs hfiled hid hloan
  obtain ⟨log, hran⟩ := batch.run_ran_of_filed .asOfToday today c st hs hfiled
  obtain ⟨loan', ok, hloan', hturn, hok⟩ := hran.loan id loan hloan
  exact ⟨loan', hloan', (hturn.approaches h hsound hin hn).2.2 (hok hid) hactive rfl⟩

/-- After any calls, a run as of a date leaves the rows that are due by then with the whole of their
income, as it does when it is the only run. -/
theorem Books.caughtUp_afterCalls {b : Books} {calls : List Call} {batch : Batch}
    {cancellation : Cancellation} (hfiled : b.ledger.Filed)
    (hloan : b.ledger.loans.find? id = some loan₀) (hsound : loan₀.Sound id) (hin : loan₀.InRange)
    (hn : loan₀.Nonneg) (hcalls : ∀ call ∈ calls, call.Under s) (hs : batch.settings = .ok s)
    (hid : id ∈ batch.succeeded .asOfToday today cancellation (b.afterCalls calls)) :
    ∃ loan, (b.afterCalls (calls ++ [.run batch .asOfToday today cancellation])).ledger.loans.find?
        id = some loan ∧
      loan₀.CaughtUp s today loan ∧
      ∀ single, id ∈ batch.succeeded .asOfToday today single b →
        ∃ loan₁, (b.afterCalls [.run batch .asOfToday today single]).ledger.loans.find? id =
            some loan₁ ∧
          List.Forall₂ (fun row row₁ => row.dueDate ≤ today →
            ∀ c, (Money.orZero (row.accrued c)).value = (Money.orZero (row₁.accrued c)).value)
            loan.schedule loan₁.schedule := by
  have happroaches : loan₀.Approaches s loan₀ := .refl hin
  obtain ⟨hmidFiled, mid, hmid, hmidSound, hmidApproaches, -⟩ :=
    afterCalls_approaches hcalls hfiled hin hn hloan hsound happroaches
  obtain ⟨loan, hfound, hcaughtUp⟩ :=
    Batch.run_caughtUp _ _ hs hmidFiled hin hn hmid hmidSound hmidApproaches hid
  refine ⟨loan, ?_, hcaughtUp, fun single hsingle => ?_⟩
  · simp only [afterCalls]
    rw [List.foldl_append]
    exact hfound
  · obtain ⟨loan₁, hloan₁, hcaughtUp₁⟩ :=
      Batch.run_caughtUp single b hs hfiled hin hn hloan hsound happroaches hsingle
    exact ⟨loan₁, hloan₁, hcaughtUp.values_eq hcaughtUp₁⟩

/-- Up to 2024-01-17, then up to 2024-02-15 after a conflict. -/
def partialCalls : List Call :=
  [.run standardBatch (.tillDate ⟨739207, by decide, by decide⟩) midFebruary .never,
    .expectConflicts 1 1, .run standardBatch (.tillDate midFebruary) midFebruary .never]

theorem partialCalls_under : ∀ call ∈ partialCalls, call.Under .standard := by
  intro call hcall
  simp only [partialCalls, List.mem_cons, List.not_mem_nil, or_false] at hcall
  rcases hcall with rfl | rfl | rfl
  · rfl
  · trivial
  · rfl

theorem sound_januaryFeeLoan : (booksOf januaryFeeLoan).ledger.Sound :=
  sound_booksOf ⟨rfl, by decide, by decide⟩

theorem inRange_januaryFeeLoan : januaryFeeLoan.InRange :=
  ⟨by unfold Money.Fine; decide +kernel, by decide, by decide +kernel⟩

theorem Loan.nonneg_of_units {loan : Loan} (hunits : ∀ a ∈ loan.amounts, 0 ≤ a.units)
    (hcharges : ∀ c ∈ loan.charges, c.unrecognized ≤ c.amount ∧ c.shares = []) : loan.Nonneg := by
  refine ⟨fun a ha => Money.value_nonneg_iff.mpr (hunits a ha), fun c hc => ?_⟩
  obtain ⟨hle, hshares⟩ := hcharges c hc
  refine ⟨Money.le_iff_value.mp hle, ?_⟩
  rw [hshares]
  exact fun share hshare => nomatch hshare

theorem nonneg_januaryFeeLoan : januaryFeeLoan.Nonneg :=
  Loan.nonneg_of_units (by decide +kernel) (by decide +kernel)

theorem accruedNonneg_januaryFeeLoan : ∀ c ∈ januaryFeeLoan.charges, c.AccruedNonneg := by
  have hunits : ∀ c ∈ januaryFeeLoan.charges, 0 ≤ c.accrued.units ∧ c.shares = [] := by
    decide +kernel
  intro c hc
  obtain ⟨hown, hshares⟩ := hunits c hc
  refine ⟨Money.value_nonneg_iff.mpr hown, ?_⟩
  rw [hshares]
  exact fun share hshare => nomatch hshare

theorem caughtUp_afterCalls_januaryFee :
    ((booksOf januaryFeeLoan).afterCalls partialCalls).ledger.transactions.map (·.amount) =
      [cents 6333, cents 4667, cents 5000] ∧
    ∃ loan, ((booksOf januaryFeeLoan).afterCalls (partialCalls ++
        [.run standardBatch .asOfToday firstOfMarch .never])).ledger.loans.find? 1 = some loan ∧
      januaryFeeLoan.CaughtUp .standard firstOfMarch loan := by
  have hsucceeded : 1 ∈ standardBatch.succeeded .asOfToday firstOfMarch
      .never ((booksOf januaryFeeLoan).afterCalls partialCalls) := by decide +kernel
  obtain ⟨loan, hloan, hcaughtUp, -⟩ := Books.caughtUp_afterCalls sound_januaryFeeLoan.filed
    (Table.find?_insert_self _ _ _) (sound_januaryFeeLoan _ _ (Table.find?_insert_self _ _ _))
    inRange_januaryFeeLoan nonneg_januaryFeeLoan partialCalls_under rfl hsucceeded
  exact ⟨by decide +kernel, loan, hloan, hcaughtUp⟩

end LoanLedger
