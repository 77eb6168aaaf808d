import LoanLedger.Proofs.Accrual.Target
import LoanLedger.Proofs.Ledger.Run

/-!
Settled rows and the terms of a loan. Postings change the columns of a row and nothing else of it,
and a loan keeps the terms of its rows and charges whatever accrues on it.
-/

set_option autoImplicit false
set_option relaxedAutoImplicit false

namespace LoanLedger

theorem Advances.advancesBy_of_agree {before portion after column : Option Money}
    (h : Advances before portion after)
    (hagree : (Money.orZero before).Agree (Money.orZero column)) :
    AdvancesBy portion.toList column after := by
  cases portion with
  | none => exact ⟨_, rfl, Money.Agree.trans h hagree⟩
  | some d =>
    obtain ⟨total, htotal, htotalAgree⟩ := hagree.add h.2
    refine ⟨total, ?_, htotalAgree⟩
    rw [Option.toList_some, Money.addAll_singleton, htotal]

namespace Loan

variable {ps : List Posting} {row : ScheduleRow}

theorem settledBy_of_find?_eq_none (h : ps.find? (fun p => p.totals.rowId == row.rowId) = none) :
    settledBy ps row = row := by
  simp only [settledBy]
  rw [h]

theorem settledBy_of_find?_eq_some {p : Posting}
    (h : ps.find? (fun p => p.totals.rowId == row.rowId) = some p) :
    settledBy ps row = settle p.totals row := by
  simp only [settledBy]
  rw [h]

theorem settledBy_sameTerms (ps : List Posting) (row : ScheduleRow) :
    row.SameTerms (settledBy ps row) := by
  simp only [settledBy]
  split <;> rfl

@[simp] theorem accrued_settle (p : Posting) (row : ScheduleRow) (c : Column) :
    (settle p.totals row).accrued c = p.total c := by
  cases c <;> rfl

/-- The portions that postings for different rows hold for one row. -/
theorem portions_eq {row : ScheduleRow} (hps : (ps.map (·.totals.rowId)).Nodup) (c : Column) :
    (ps.filter fun p => p.totals.rowId = row.rowId).filterMap (·.portion c) =
      ((ps.find? fun p => p.totals.rowId == row.rowId).bind (·.portion c)).toList := by
  rw [filter_eq_toList_find? (fun p : Posting => p.totals.rowId) row.rowId hps]
  cases hp : ps.find? (fun p => p.totals.rowId == row.rowId) with
  | none => rfl
  | some p =>
    rw [Option.toList_some, Option.bind_some, List.filterMap_cons]
    cases p.portion c <;> rfl

/-- A row advances by settling postings that were computed from its columns. -/
theorem settledBy_advancedBy {candidates : List ScheduleRow}
    (hfor : List.SublistForall₂ Posting.IsFor ps candidates)
    (hps : (ps.map (·.totals.rowId)).Nodup)
    (hagree : ∀ p ∈ ps, ∀ r ∈ candidates, p.totals.rowId = r.rowId → r.rowId = row.rowId →
      ∀ c, (Money.orZero (r.accrued c)).Agree (Money.orZero (row.accrued c))) :
    row.AdvancedBy ps (settledBy ps row) := by
  refine ScheduleRow.advancedBy_iff.mpr ⟨?_, fun c => ?_⟩
  · simp only [settledBy]
    split <;> rfl
  · rw [portions_eq hps]
    cases hp : ps.find? (fun p => p.totals.rowId == row.rowId) with
    | none =>
      rw [settledBy_of_find?_eq_none hp]
      exact .refl _
    | some p =>
      have hmem := List.mem_of_find?_eq_some hp
      have hid := List.find?_some hp
      rw [beq_iff_eq] at hid
      obtain ⟨r, hr, hisFor⟩ := exists_mem_of_sublistForall₂ hfor hmem
      rw [settledBy_of_find?_eq_some hp, accrued_settle, Option.bind_some]
      exact (hisFor.advances c).advancesBy_of_agree
        (hagree p hmem r hr hisFor.rowId (hisFor.rowId.symm.trans hid) c)

/-- A loan that differs at most in its version, the date that it is accrued to, and what has accrued
on its rows and charges. -/
structure SameTerms (loan loan' : Loan) : Prop where
  same : loan' = { loan with
    version := loan'.version
    accruedTill := loan'.accruedTill
    schedule := loan'.schedule
    charges := loan'.charges }
  rows : List.Forall₂ ScheduleRow.SameTerms loan.schedule loan'.schedule
  charges : List.Forall₂ Charge.SameTerms loan.charges loan'.charges

variable {loan loan' loan'' : Loan}

theorem Reversioned.sameTerms (h : loan.Reversioned loan') : loan.SameTerms loan' := by
  rw [h.same]
  exact ⟨rfl, List.forall₂_same.mpr fun row _ => .refl row, Charge.forall₂_sameTerms_refl _⟩

theorem SameTerms.refl (loan : Loan) : loan.SameTerms loan := (Reversioned.refl loan).sameTerms

theorem SameTerms.trans (h : loan.SameTerms loan') (h' : loan'.SameTerms loan'') :
    loan.SameTerms loan'' where
  same := by rw [h'.same, h.same]
  rows := forall₂_comp h.rows h'.rows fun _ _ _ => ScheduleRow.SameTerms.trans
  charges := Charge.forall₂_sameTerms_trans h.charges h'.charges

theorem SameTerms.waivedPeriods (h : loan.SameTerms loan') :
    loan'.waivedPeriods = loan.waivedPeriods := congrArg (·.waivedPeriods) h.same

theorem SameTerms.waivers (h : loan.SameTerms loan') : loan'.waivers = loan.waivers :=
  congrArg (·.waivers) h.same

theorem forall₂_settledBy (ps : List Posting) (rows : List ScheduleRow) :
    List.Forall₂ ScheduleRow.SameTerms rows (rows.map (settledBy ps)) :=
  List.forall₂_map_right_iff.mpr
    (List.forall₂_same.mpr fun row _ => settledBy_sameTerms ps row)

end Loan

namespace AccrualInput

variable {input : AccrualInput} {mode : RunMode} {s : Settings} {processedOn : Date} {firstId : Nat}
  {r : AccrualResult}

theorem accrue_sameTerms (h : input.accrue mode s processedOn firstId = .ok r) :
    List.Forall₂ Charge.SameTerms input.charges r.charges := by
  obtain ⟨-, ⟨os, hos, -⟩, -, -⟩ := accrue_eq_ok h
  exact (hos.proposals (Charge.forall₂_sameTerms_refl _)).2

/-- Every posting of an accrual was proposed for a candidate row, on charges that kept their
terms. -/
theorem accrue_proposed (h : input.accrue mode s processedOn firstId = .ok r) {y : Posting}
    (hy : y ∈ r.postings) : ∃ row ∈ input.candidates, ∃ e cs id p,
      List.Forall₂ Charge.SameTerms input.charges cs ∧
      input.propose s processedOn cs id row e = .ok (p, some y) := by
  obtain ⟨-, ⟨os, hos, hpostings⟩, -, -⟩ := accrue_eq_ok h
  obtain ⟨hproposals, -⟩ := hos.proposals (Charge.forall₂_sameTerms_refl _)
  rw [hpostings] at hy
  have hy : some y ∈ os := List.reduceOption_mem_iff.mp hy
  obtain ⟨task, htask, cs, id, p, hcs, hpropose⟩ := exists_mem_of_forall₂ hproposals.flip hy
  have hrow := (plan_sublist mode input.candidates).subset (List.mem_map_of_mem htask)
  exact ⟨task.1, hrow, task.2, cs, id, p, hcs, hpropose⟩

end AccrualInput

namespace Loan

variable {loan₀ loan : Loan} {id : LoanId} {rows : List ScheduleRow}

theorem SameTerms.inputInRange (h : loan₀.SameTerms loan) (hin : loan₀.InRange)
    {row : ScheduleRow} (hrow : row ∈ loan₀.schedule) :
    (loan.inputOn id rows).InRange loan₀.charges row := by
  refine ⟨?_, (hin.row hrow).places, hin.charges.1, hin.charges.2⟩
  show row.WaiversInRange loan.waivedPeriods loan.waivers
  rw [h.waivedPeriods, h.waivers]
  exact hin.rowAndWaivers hrow

/-- A row of the loan as it was at some time, with small columns. -/
structure Knows (loan : Loan) (row : ScheduleRow) : Prop where
  terms : ∃ stored ∈ loan.schedule, stored.SameTerms row
  small : ∀ c, Small (21 * 10 ^ 17) (row.accrued c)

theorem SameTerms.knows (h : loan₀.SameTerms loan) {row : ScheduleRow} (hrow : loan.Knows row) :
    loan₀.Knows row := by
  obtain ⟨⟨stored, hstored, hterms⟩, hsmall⟩ := hrow
  obtain ⟨row₀, hrow₀, hterms₀⟩ := exists_mem_of_forall₂ h.rows.flip hstored
  exact ⟨⟨row₀, hrow₀, ScheduleRow.SameTerms.trans hterms₀ hterms⟩, hsmall⟩

/-- The postings of an accrual on such rows are exact. -/
theorem SameTerms.accrue_exact {mode : RunMode} {s : Settings} {today : Date} {n : Nat}
    {r : AccrualResult} (h : loan₀.SameTerms loan) (hin : loan₀.InRange)
    (hrows : ∀ row ∈ rows, loan₀.Knows row)
    (hresult : (loan.inputOn id rows).accrue mode s today n = .ok r) {p : Posting}
    (hp : p ∈ r.postings) : ∃ row ∈ rows, p.IsFor row ∧ ∀ c, Small (21 * 10 ^ 17) (p.total c) ∧
      Small (42 * 10 ^ 17) (p.portion c) ∧
      (Money.orZero (p.total c)).value =
        (Money.orZero (row.accrued c)).value + (Money.orZero (p.portion c)).value := by
  obtain ⟨row, hrow, e, cs, n, q, hcs, hpropose⟩ := AccrualInput.accrue_proposed hresult hp
  obtain ⟨⟨row₀, hrow₀, hterms⟩, hsmall⟩ := hrows row hrow
  obtain ⟨x, parts, -, hsettle, hexact⟩ := AccrualInput.settle_of_propose
    (h.inputInRange hin hrow₀) hterms
    (Charge.forall₂_sameTerms_trans h.charges hcs) hsmall hpropose
  refine ⟨row, hrow, (AccrualInput.propose_isFor hpropose).1, fun c => ?_⟩
  obtain ⟨hportion, htotal⟩ := hsettle.posting p rfl c
  rw [hportion, htotal]
  exact Portion.towards_exact (hsettle.towards c) (hexact c)

end Loan
end LoanLedger
