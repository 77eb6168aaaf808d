import LoanLedger.Proofs.Isolation.Run

/-!
Arithmetic faults and the loans of a run. A run without a fault attempts every loan that has
candidate rows, and exactly once; and a run meets a fault only when one of its loans, on its own,
meets one.
-/

set_option autoImplicit false
set_option relaxedAutoImplicit false

namespace LoanLedger

namespace RunSummary

/-- The loans that were attempted. -/
def attempted (s : RunSummary) : List LoanId := s.succeeded.map (·.loanId) ++ s.failedLoans

theorem attempted_record (s : RunSummary) (o : LoanOutcome) :
    (s.record o).attempted.Perm (s.attempted ++ [o.loanId]) := by
  cases o with
  | succeeded l =>
    have hmoved : (s.succeeded.map (·.loanId) ++ [l.loanId] ++ s.failedLoans).Perm
        (s.succeeded.map (·.loanId) ++ (s.failedLoans ++ [l.loanId])) := by
      rw [List.append_assoc]
      exact List.Perm.append_left _ List.perm_append_comm
    simpa [attempted, record, failedLoans, LoanOutcome.loanId] using hmoved
  | failed loan r => simp [attempted, record, failedLoans, LoanOutcome.loanId]

/-- Every loan of some candidate rows was attempted, exactly once, and no other. -/
structure Covers (s : RunSummary) (rows : List ScheduleRow) : Prop where
  nodup : s.attempted.Nodup
  mem_iff : ∀ id, id ∈ s.attempted ↔ ∃ row ∈ rows, row.loanId = id
  notAttempted : s.notAttempted = []

end RunSummary

namespace RunTerms

/-- Turns that meet no fault attempt each of their loans if the flag reads as raised before none. -/
theorem accrueGroups_attempted {t : RunTerms} {c : Cancellation}
    {groups : List (LoanId × List ScheduleRow)} {summary summary' : RunSummary} {st st' : Books}
    (h : t.accrueGroups c groups summary st = (st', .ok summary'))
    (hc : ∀ id ∈ groups.map Prod.fst, c.requestedBefore id = false) :
    summary'.attempted.Perm (summary.attempted ++ groups.map Prod.fst) ∧
      summary'.notAttempted = summary.notAttempted := by
  induction groups generalizing summary st with
  | nil =>
    cases h
    exact ⟨by rw [List.map_nil, List.append_nil], rfl⟩
  | cons group groups ih =>
    obtain ⟨id, rows⟩ := group
    obtain ⟨hrequested, hc⟩ := List.forall_mem_cons.mp hc
    rcases accrueGroups_cons_cases h with
      ⟨hstop, -⟩ | ⟨st₁, r, -, hloan, ⟨f, -, -, hr⟩ | ⟨o, ho, h⟩⟩
    · rw [hrequested] at hstop
      cases hstop
    · cases hr
    · obtain ⟨hperm, hnot⟩ := ih h hc
      have hrecord := summary.attempted_record o
      rw [loanId_of_ofResult hloan ho] at hrecord
      constructor
      · rw [List.map_cons, List.append_cons]
        exact hperm.trans (hrecord.append_right _)
      · rw [hnot]
        cases o <;> rfl

end RunTerms

namespace Batch

variable {b : Batch} {mode : RunMode} {today : Date} {c : Cancellation} {st : Books} {s : Settings}

/-- Every run that meets no fault covers its candidate rows, if the flag reads as raised before none
of their loans. -/
theorem run_covers (hs : b.settings = .ok s)
    (hc : ∀ row ∈ st.ledger.candidates none mode today, c.requestedBefore row.loanId = false)
    (hfault : ∀ f, (b.run mode today none c st).result ≠ .error (.fault f)) :
    ∃ summary : RunSummary, (b.run mode today none c st).result = liftM summary.result ∧
      summary.Covers (st.ledger.candidates none mode today) := by
  obtain ⟨summary, hrun⟩ := exists_outcomes hs hfault
  have hgrouped := grouped_groupByLoan (st.ledger.candidates none mode today)
  have hkeys : ∀ id ∈ (groupByLoan (st.ledger.candidates none mode today)).map Prod.fst,
      c.requestedBefore id = false := by
    intro id hid
    obtain ⟨row, hrow, rfl⟩ := List.mem_map.mp ((hgrouped.mem_keys id).mp hid)
    exact hc row hrow
  obtain ⟨hperm, hnot⟩ := RunTerms.accrueGroups_attempted (turns_of_outcomes hs hrun) hkeys
  refine ⟨summary, ?_, hperm.nodup_iff.mpr hgrouped.nodup, fun id => ?_, hnot⟩
  · rw [run_result, hrun]
    rfl
  · exact hperm.mem_iff.trans ((hgrouped.mem_keys id).trans List.mem_map)

/-- In a run without failures every loan with candidate rows succeeds. -/
theorem mem_succeeded_of_result {summary : RunSummary} (hs : b.settings = .ok s)
    (hc : ∀ row ∈ st.ledger.candidates none mode today, c.requestedBefore row.loanId = false)
    (hok : (b.run mode today none c st).result = .ok summary)
    {row : ScheduleRow} (hrow : row ∈ st.ledger.candidates none mode today) :
    row.loanId ∈ b.succeeded mode today c st := by
  obtain ⟨whole, hresult, hcovers⟩ := run_covers hs hc fun f hf => nomatch hok.symm.trans hf
  rw [succeeded_of_result hok]
  rw [hok] at hresult
  simp only [RunSummary.result] at hresult
  split at hresult
  · next hsuccess =>
    obtain rfl : summary = whole := Except.ok.inj hresult
    have hfailed : summary.failed = [] := List.isEmpty_iff.mp hsuccess
    have hmem := (hcovers.mem_iff row.loanId).mpr ⟨row, hrow, rfl⟩
    simp only [RunSummary.attempted, RunSummary.failedLoans] at hmem
    rw [hfailed, List.map_nil, List.append_nil] at hmem
    exact hmem
  · cases hresult

/-- A run over filed loans meets a fault exactly when one of them meets it on its own. -/
theorem run_fault_iff (hs : b.settings = .ok s) (hfiled : st.ledger.Filed) :
    (∃ f, (b.run mode today none c st).result = .error (.fault f)) ↔
      ∃ id f, (b.run mode today none c (st.alone id)).result = .error (.fault f) := by
  simp only [run_result_eq_fault]
  constructor
  · rintro ⟨f, hf⟩
    rw [outcomes_eq hs] at hf
    have hgrouped := grouped_groupByLoan (st.ledger.candidates none mode today)
    rcases hrun : (⟨s, mode, today⟩ : RunTerms).accrueGroups c
      (groupByLoan (st.ledger.candidates none mode today)) .empty st with ⟨st', f' | summary⟩
    · obtain ⟨id, rows, hmem, halone⟩ :=
        RunTerms.accrueGroups_fault hrun hfiled hgrouped.nodup
      have hsolo := halone _ (st.alike_alone id) (Books.filed_alone hfiled id) rfl .empty
      refine ⟨id, f', ?_⟩
      rw [outcomes_eq hs, Books.groups_alone hfiled id mode today, hgrouped.filter_of_mem hmem,
        hsolo]
    · rw [hrun] at hf
      cases hf
  · rintro ⟨id, f, hf⟩
    cases hrun : b.outcomes mode today c st with
    | error failure =>
      obtain ⟨g, rfl⟩ := fault_of_outcomes hs hrun
      exact ⟨g, rfl⟩
    | ok summary =>
      have hsolo := (isolated_of_outcomes hs hfiled hrun id).2
      rw [hf] at hsolo
      cases hsolo

/-- Every loan with candidate rows has succeeded or failed at the end of a run that is not stopped
before one of them, unless the run meets a fault; and over filed loans it meets one only when a loan
meets it on its own. -/
theorem run_attempts_all (hs : b.settings = .ok s)
    (hc : ∀ row ∈ st.ledger.candidates none mode today, c.requestedBefore row.loanId = false) :
    ((∀ f, (b.run mode today none c st).result ≠ .error (.fault f)) →
      ∃ summary : RunSummary, (b.run mode today none c st).result = liftM summary.result ∧
        summary.Covers (st.ledger.candidates none mode today)) ∧
    (st.ledger.Filed →
      ((∃ f, (b.run mode today none c st).result = .error (.fault f)) ↔
        ∃ id f, (b.run mode today none c (st.alone id)).result = .error (.fault f))) :=
  ⟨run_covers hs hc, run_fault_iff hs⟩

end Batch

theorem run_attempts_all_neighbours :
    ∃ summary : RunSummary,
      (standardBatch.run .asOfToday firstOfMarch none .never neighbours).result =
        liftM summary.result ∧
      summary.Covers (neighbours.ledger.candidates none .asOfToday firstOfMarch) :=
  (Batch.run_attempts_all (s := .standard) rfl fun _ _ => rfl).1
    fun _ hf => nomatch run_neighbours.symm.trans hf

/-- A fee of the largest amount there is. -/
def hugeFee (id : ChargeId) : Charge :=
  let amount := { Money.zero with mantissa := 79228162514264337593543950335, mantissa_lt := by decide }
  .dueOn id (900 + id) januaryRow.dueDate januaryRow.dueDate amount false

/-- Books of two loans, the first with two fees that have no sum. -/
def hugeFees : Books :=
  let first := booksOf (monthlyLoan [januaryRow] [hugeFee 11, hugeFee 12])
  { first with ledger := first.ledger.putLoan secondLoan }

/-- A fault in one loan ends the run, and the loans after it are not attempted. -/
theorem run_stopped_by_fault :
    ¬∀ (batch : Batch) (mode : RunMode) (today : Date) (st : Books),
      batch.settings = .ok .standard →
        ∃ summary : RunSummary,
          (batch.run mode today none .never st).result = liftM summary.result ∧
          summary.Covers (st.ledger.candidates none mode today) := by
  intro h
  have hfault : (standardBatch.run .asOfToday firstOfMarch none .never hugeFees).result =
      .error (.fault .additionOverflow) := by decide +kernel
  obtain ⟨summary, hresult, -⟩ := h standardBatch .asOfToday firstOfMarch hugeFees rfl
  rw [hfault] at hresult
  cases hsummary : summary.result <;> rw [hsummary] at hresult <;> cases hresult

end LoanLedger
