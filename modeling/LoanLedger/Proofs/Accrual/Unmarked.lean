import LoanLedger.Proofs.Accrual.Faultless
import LoanLedger.Proofs.Accrual.Full
import LoanLedger.Proofs.Charge.GapFree

/-!
The mark of a run up to a date. Of rows in the order of their due dates, a run takes up those that are
due by the date, and the later ones only if the loan is accrued to an earlier date. Where the rows
that it skips have nothing left to post up to the date, the run does what it would do without a mark.
-/

set_option autoImplicit false
set_option relaxedAutoImplicit false

namespace LoanLedger

variable {input : AccrualInput} {s : Settings} {processedOn till : Date} {cs ds : List Charge}
  {row row₀ : ScheduleRow} {e : Extent} {x : Targets}

/-! Tasks with and without something to post. -/

/-- On a row that has reached its targets there is nothing to post. -/
theorem AccrualInput.exists_rest (hin : input.InRange cs row₀) (hrow : row₀.SameTerms row)
    (hds : List.Forall₂ Charge.SameTerms cs ds) (hsmall : ∀ c, Small (21 * 10 ^ 17) (row.accrued c))
    (hcharges : ∀ d ∈ ds, d.AccruedNonneg) (hx : input.targets s cs row₀ e = .ok x)
    (hmeets : row.Meets x) (id : TransactionId) :
    ∃ p, input.propose s processedOn ds id row e = .ok (p, none) := by
  have hexact := portion_exact hin hrow hsmall hx
  rw [← targets_congr hrow hds] at hx
  obtain ⟨fee, penalty, i, hfee, hpenalty, hi, hinterest, hxFee, hxPenalty⟩ := targets_eq_ok.mp hx
  have hamounts := Charge.flatMap_amounts_of_sameTerms hds
  obtain ⟨a, ha⟩ := Apportionment.exists_ofCharges s.policy row (e.window row)
    (hamounts ▸ hin.chargesFine) (hamounts ▸ hin.chargesSize) hcharges
  obtain ⟨fee', penalty', hfee', hpenalty', haFee, haPenalty⟩ := Apportionment.ofCharges_income ha
  rw [hfee] at hfee'
  rw [hpenalty] at hpenalty'
  have hpart := fun c => Portion.exists_towards (hexact c)
  obtain ⟨interestPart, hinterestPart⟩ := hpart .interest
  obtain ⟨feePart, hfeePart⟩ := hpart .fee
  obtain ⟨penaltyPart, hpenaltyPart⟩ := hpart .penalty
  have hnone : ∀ c, ((⟨interestPart, feePart, penaltyPart⟩ : PreparedAccrual.Portions).of c).delta =
      none := by
    intro c
    cases c with
    | interest => exact hmeets.delta_eq_none hinterestPart (hexact .interest)
    | fee => exact hmeets.delta_eq_none hfeePart (hexact .fee)
    | penalty => exact hmeets.delta_eq_none hpenaltyPart (hexact .penalty)
  refine ⟨⟨row, a, i⟩, (input.propose_eq_ok s processedOn).mpr
    ⟨prepare_eq_ok.mpr ⟨ha, hi, rfl⟩, x.interest, ⟨interestPart, feePart, penaltyPart⟩, .zero, ?_,
      PreparedAccrual.portions_eq_ok.mpr ⟨hinterestPart, ?_, ?_⟩,
      PreparedAccrual.Portions.amount_eq_zero hnone, ?_⟩⟩
  · rw [interestFor_eq]
    exact hinterest
  · rw [show a.feeIncome = fee.nonZero from Except.ok.inj hfee' ▸ haFee]
    exact hxFee ▸ hfeePart
  · rw [show a.penaltyIncome = penalty.nonZero from Except.ok.inj hpenalty' ▸ haPenalty]
    exact hxPenalty ▸ hpenaltyPart
  · rw [Money.isPositive_zero]
    rfl

theorem AccrualInput.not_meets_of_posts {id : TransactionId} {p : PreparedAccrual} {y : Posting}
    (hin : input.InRange cs row₀) (hrow : row₀.SameTerms row)
    (hds : List.Forall₂ Charge.SameTerms cs ds) (hsmall : ∀ c, Small (21 * 10 ^ 17) (row.accrued c))
    (h : input.propose s processedOn ds id row e = .ok (p, some y)) :
    ∃ x, input.targets s cs row₀ e = .ok x ∧ ¬row.Meets x := by
  obtain ⟨x, parts, hx, hsettle, hexact⟩ := settle_of_propose hin hrow hds hsmall h
  refine ⟨x, hx, fun hmeets => ?_⟩
  cases hsettle.eq_none fun c => hmeets.delta_eq_none (hsettle.towards c) (hexact c)

theorem Accrues.exists_task {n : Nat} {tasks : List (ScheduleRow × Extent)}
    {os : List (Option Posting)} (h : Accrues input s processedOn cs n tasks os ds) {y : Posting}
    (hy : y ∈ os.reduceOption) : ∃ task ∈ tasks, ∃ cs' id p, List.Forall₂ Charge.SameTerms cs cs' ∧
      input.propose s processedOn cs' id task.1 task.2 = .ok (p, some y) := by
  obtain ⟨hproposals, -⟩ := h.proposals (Charge.forall₂_sameTerms_refl cs)
  obtain ⟨task, htask, cs', id, p, hcs', hpropose⟩ :=
    exists_mem_of_forall₂ hproposals.flip (List.reduceOption_mem_iff.mp hy)
  exact ⟨task, htask, cs', id, p, hcs', hpropose⟩

/-! The plan of rows in the order of their due dates. -/

/-- Rows in the order of their due dates. -/
def ScheduleRow.Ordered (rows : List ScheduleRow) : Prop :=
  rows.Pairwise fun row later => row.dueDate ≤ later.dueDate

section Plan

variable {mark : Option Date} {rows : List ScheduleRow}

theorem ScheduleRow.Consecutive.ordered (h : ScheduleRow.Consecutive rows) :
    ScheduleRow.Ordered rows :=
  h.ends_before.imp_of_mem fun _ hlater hends => Date.le_trans hends (h.forward _ hlater)

/-- Rows without one that is due by a date between two that are due later. -/
def ScheduleRow.Unbroken (till : Date) (rows : List ScheduleRow) : Prop :=
  ∀ row between later, [row, between, later].Sublist rows → till < row.dueDate →
    till < later.dueDate → till < between.dueDate

private theorem future_of_ordered (h : ScheduleRow.Ordered (row :: rows)) (hrow : till < row.dueDate) :
    ∀ r ∈ row :: rows, till < r.dueDate :=
  List.forall_mem_cons.mpr
    ⟨hrow, fun r hr => Int.lt_of_lt_of_le hrow ((List.pairwise_cons.mp h).1 r hr)⟩

theorem ScheduleRow.Ordered.unbroken (h : ScheduleRow.Ordered rows) (till : Date) :
    ScheduleRow.Unbroken till rows := fun row between _ hsub hrow _ =>
  future_of_ordered (List.Pairwise.sublist hsub h) hrow between (by simp)

/-- What a run up to a date takes up of a row, where the loan is accrued to a mark. -/
def taskOf (till : Date) (mark : Option Date) (row : ScheduleRow) : Option (ScheduleRow × Extent) :=
  if till < row.dueDate then if isBehind mark till then some (row, .upTo till) else none
  else some (row, .whole till)

theorem taskOf_of_due (hdue : ¬till < row.dueDate) : taskOf till mark row = some (row, .whole till) :=
  if_neg hdue

private theorem planFrom_due (m : Option Date) (beforeFuture : Bool)
    (hdue : ∀ row ∈ rows, ¬till < row.dueDate) :
    planFrom till m beforeFuture rows = rows.filterMap (taskOf till mark) := by
  induction rows generalizing m with
  | nil => rfl
  | cons row rows ih =>
    obtain ⟨hrow, hdue⟩ := List.forall_mem_cons.mp hdue
    rw [planFrom, if_neg hrow, List.filterMap_cons_some (taskOf_of_due hrow), ih _ hdue]

private theorem planFrom_marked (hrows : ∀ row ∈ rows, row.accruedTill = mark)
    (hlast : rows.Pairwise fun row later => till < later.dueDate → till < row.dueDate) :
    planFrom till mark false rows = rows.filterMap (taskOf till mark) := by
  induction rows with
  | nil => rfl
  | cons row rows ih =>
    obtain ⟨hrow, hrows⟩ := List.forall_mem_cons.mp hrows
    obtain ⟨hfirst, hlast⟩ := List.pairwise_cons.mp hlast
    by_cases hfuture : till < row.dueDate
    · rw [planFrom, if_pos hfuture, markAt_eq hrow, ih hrows hlast, List.filterMap_cons, taskOf,
        if_pos hfuture]
      cases isBehind mark till <;> rfl
    · have hdue : ∀ later ∈ rows, ¬till < later.dueDate :=
        fun later hlater h => hfuture (hfirst later hlater h)
      rw [planFrom, if_neg hfuture, List.filterMap_cons_some (taskOf_of_due hfuture),
        planFrom_due _ _ hdue]

/-- Up to a date, a run decides row by row, as long as the rows that are due later are unbroken. -/
theorem plan_tillDate (hunbroken : ScheduleRow.Unbroken till rows)
    (hrows : ∀ row ∈ rows, row.accruedTill = mark) :
    plan (.tillDate till) rows = rows.filterMap (taskOf till mark) := by
  have hfrom : ∀ m, planFrom till m true rows = rows.filterMap (taskOf till mark) := by
    induction rows with
    | nil => exact fun _ => rfl
    | cons row rows ih =>
      intro m
      have hrow := hrows row List.mem_cons_self
      by_cases hfuture : till < row.dueDate
      · rw [planFrom_cons_future hrow hfuture]
        refine planFrom_marked hrows (List.pairwise_cons.mpr ⟨fun _ _ _ => hfuture, ?_⟩)
        refine List.pairwise_iff_forall_sublist.mpr fun hsub hlater => ?_
        exact hunbroken row _ _ (hsub.cons_cons row) hfuture hlater
      · rw [planFrom, if_neg hfuture, List.filterMap_cons_some (taskOf_of_due hfuture), ih]
        · exact fun a b c hsub => hunbroken a b c (hsub.cons row)
        · exact fun r hr => hrows r (List.mem_cons_of_mem _ hr)
  exact hfrom none

/-- A row that is due later is taken up where the loan is accrued to an earlier date, and only
there. -/
theorem mem_plan_upTo_iff (hunbroken : ScheduleRow.Unbroken till rows)
    (hrows : ∀ row ∈ rows, row.accruedTill = mark) {till' : Date} :
    (row, .upTo till') ∈ plan (.tillDate till) rows ↔
      row ∈ rows ∧ till' = till ∧ till < row.dueDate ∧ isBehind mark till = true := by
  rw [plan_tillDate hunbroken hrows, List.mem_filterMap]
  constructor
  · rintro ⟨r, hr, htask⟩
    simp only [taskOf] at htask
    split at htask
    · next hfuture =>
      split at htask
      · next hbehind =>
        cases htask
        exact ⟨hr, rfl, hfuture, hbehind⟩
      · cases htask
    · cases htask
  · rintro ⟨hrow, rfl, hfuture, hbehind⟩
    exact ⟨row, hrow, by rw [taskOf, if_pos hfuture, if_pos hbehind]⟩

end Plan

/-! Accrual up to a date without a mark. -/

namespace AccrualInput

/-- Accrue one row of a run up to a date, whatever the loan is accrued to. -/
def accrueRowUnmarked (input : AccrualInput) (s : Settings) (processedOn till : Date) (g : Progress)
    (row : ScheduleRow) : Except Fault Progress :=
  if till < row.dueDate then input.accrueTill s processedOn till g row
  else input.accruePeriod s processedOn till g row

/-- Accrue the candidate rows up to a date, whatever the loan is accrued to. -/
def accrueRowsUnmarked (input : AccrualInput) (till : Date) (s : Settings) (processedOn : Date)
    (firstId : Nat) : Except Fault Progress :=
  input.candidates.foldlM (input.accrueRowUnmarked s processedOn till)
    ⟨[], input.charges, none, true, firstId⟩

/-- Accrue a loan up to a date as `accrue` does, but with every later row accrued to the date. -/
def accrueUnmarked (input : AccrualInput) (till : Date) (s : Settings) (processedOn : Date)
    (firstId : Nat) : Except Failure AccrualResult := do
  input.validate
  let g ← input.accrueRowsUnmarked till s processedOn firstId
  return {
    loanId := input.loanId
    postings := g.postings
    entries := g.postings.filterMap (input.entryFor? s.accountingMethod)
    charges := g.charges
    accruedTill := g.postings.getLast?.map (·.accruedTill) }

/-- An accrual in progress with another mark. -/
def Progress.remark (mark : Option Date) (beforeFuture : Bool) (g : Progress) : Progress :=
  { g with mark, beforeFuture }

variable {mark : Option Date} {beforeFuture : Bool} {g g' : Progress} {rows : List ScheduleRow}

theorem add_remark (g : Progress) (p : PreparedAccrual) (o : Option Posting) :
    (g.remark mark beforeFuture).add p o = (g.add p o).map (·.remark mark beforeFuture) := by
  cases o with
  | none => rfl
  | some y =>
    simp only [Progress.add, Progress.remark]
    cases p.charges.applyTo g.charges <;> rfl

theorem accruePeriod_remark (g : Progress) (row : ScheduleRow) :
    input.accruePeriod s processedOn till (g.remark mark beforeFuture) row =
      (input.accruePeriod s processedOn till g row).map (·.remark mark beforeFuture) := by
  simp only [accruePeriod]
  show (do
    let p ← input.prepare s.policy row g.charges row.period till
    (g.remark mark beforeFuture).add p (← p.postPeriod s (.ofNat g.nextId) processedOn)) = _
  cases input.prepare s.policy row g.charges row.period till with
  | error f => rfl
  | ok p =>
    rw [bind_ok, bind_ok]
    cases p.postPeriod s (.ofNat g.nextId) processedOn with
    | error f => rfl
    | ok o => exact add_remark g p o

private theorem accrueTill_remark (g : Progress) (row : ScheduleRow) :
    input.accrueTill s processedOn till (g.remark mark beforeFuture) row =
      (input.accrueTill s processedOn till g row).map (·.remark mark beforeFuture) := by
  simp only [accrueTill]
  show (do
    let p ← input.prepare s.policy row g.charges ⟨row.fromDate, till⟩ till
    (g.remark mark beforeFuture).add p (← p.postTill s (.ofNat g.nextId) till processedOn)) = _
  cases input.prepare s.policy row g.charges ⟨row.fromDate, till⟩ till with
  | error f => rfl
  | ok p =>
    rw [bind_ok, bind_ok]
    cases p.postTill s (.ofNat g.nextId) till processedOn with
    | error f => rfl
    | ok o => exact add_remark g p o

/-- Charges that kept their terms and on which nothing negative has accrued. -/
structure Kept (cs ds : List Charge) : Prop where
  terms : List.Forall₂ Charge.SameTerms cs ds
  nonneg : ∀ d ∈ ds, d.AccruedNonneg

private theorem Kept.add {id : TransactionId} {p : PreparedAccrual} {o : Option Posting}
    (h : Kept cs g.charges) (hpropose : input.propose s processedOn g.charges id row e = .ok (p, o))
    (hadd : g.add p o = .ok g') : Kept cs g'.charges := by
  cases o with
  | none =>
    cases hadd
    exact h
  | some y =>
    obtain ⟨ds, happly, hg'⟩ := bind_eq_ok.mp hadd
    have hcharges := (prepare_eq_ok.mp ((input.propose_eq_ok s processedOn).mp hpropose).1).1
    rw [← pure_eq_ok.mp hg']
    exact ⟨Charge.forall₂_sameTerms_trans h.terms (Apportionment.applyTo_sameTerms happly),
      Apportionment.applyTo_nonneg (Apportionment.ofCharges_nonneg hcharges) happly h.nonneg⟩

/-- A row on which there is nothing to post up to a date, whatever has accrued on the charges. -/
def RestsUpTo (input : AccrualInput) (s : Settings) (processedOn till : Date) (cs : List Charge)
    (row : ScheduleRow) : Prop :=
  ∀ ds, Kept cs ds → ∀ id, ∃ p, input.propose s processedOn ds id row (.upTo till) = .ok (p, none)

private theorem foldlM_future (hrows : ∀ row ∈ rows, row.accruedTill = mark)
    (hfuture : ∀ row ∈ rows, till < row.dueDate) (hg : g.beforeFuture = true ∨ g.mark = mark)
    (hkept : Kept cs g.charges)
    (hrest : isBehind mark till = false → ∀ row ∈ rows, input.RestsUpTo s processedOn till cs row) :
    (rows.foldlM (input.accrueRow s processedOn till) g).map (·.remark none true) =
      rows.foldlM (input.accrueRowUnmarked s processedOn till) (g.remark none true) := by
  induction rows generalizing g with
  | nil => rfl
  | cons row rows ih =>
    obtain ⟨hrow, hrows⟩ := List.forall_mem_cons.mp hrows
    obtain ⟨hlater, hfuture⟩ := List.forall_mem_cons.mp hfuture
    have ih := fun {g' : Progress} hg hkept => @ih g' hrows hfuture hg hkept
      fun hbehind r hr => hrest hbehind r (List.mem_cons_of_mem _ hr)
    have hmark : g.atFuture row = g.remark mark false := by
      rw [atFuture_eq]
      rcases hg with hg | hg
      · rw [hg]
        exact congrArg (g.remark · false) hrow
      · rw [hg, markAt_eq hrow]
        rfl
    have hstep : input.accrueRow s processedOn till g row = if isBehind mark till then
        (input.accrueTill s processedOn till g row).map (·.remark mark false)
        else .ok (g.remark mark false) := by
      simp only [accrueRow]
      rw [if_pos hlater, hmark, accrueTill_remark]
      rfl
    rw [List.foldlM_cons, List.foldlM_cons, hstep, accrueRowUnmarked, if_pos hlater,
      accrueTill_remark]
    cases hbehind : isBehind mark till with
    | true =>
      rw [if_pos rfl]
      cases htill : input.accrueTill s processedOn till g row with
      | error f => rfl
      | ok g₁ =>
        obtain ⟨p, o, hpropose, hadd⟩ := accrueTill_eq_ok.mp htill
        have hkept₁ : Kept cs g₁.charges := hkept.add hpropose hadd
        exact @ih (g₁.remark mark false) (.inr rfl) hkept₁
    | false =>
      obtain ⟨p, hpropose⟩ := hrest hbehind row List.mem_cons_self _ hkept (.ofNat g.nextId)
      rw [if_neg Bool.false_ne_true, accrueTill_eq_ok.mpr ⟨p, none, hpropose, rfl⟩]
      exact @ih (g.remark mark false) (.inr rfl) hkept

private theorem foldlM_accrueRow (hordered : ScheduleRow.Ordered rows)
    (hrows : ∀ row ∈ rows, row.accruedTill = mark) (hg : g.beforeFuture = true)
    (hkept : Kept cs g.charges)
    (hrest : isBehind mark till = false → ∀ row ∈ rows, till < row.dueDate →
      input.RestsUpTo s processedOn till cs row) :
    (rows.foldlM (input.accrueRow s processedOn till) g).map (·.remark none true) =
      rows.foldlM (input.accrueRowUnmarked s processedOn till) (g.remark none true) := by
  induction rows generalizing g with
  | nil => rfl
  | cons row rows ih =>
    by_cases hlater : till < row.dueDate
    · have hfuture := future_of_ordered hordered hlater
      exact foldlM_future hrows hfuture (.inl hg) hkept
        fun hbehind r hr => hrest hbehind r hr (hfuture r hr)
    · obtain ⟨-, hrows⟩ := List.forall_mem_cons.mp hrows
      rw [List.foldlM_cons, List.foldlM_cons, accrueRow, if_neg hlater, accrueRowUnmarked,
        if_neg hlater, accruePeriod_remark]
      cases hperiod : input.accruePeriod s processedOn till g row with
      | error f => rfl
      | ok g₁ =>
        obtain ⟨p, o, hpropose, hadd⟩ := accruePeriod_eq_ok.mp hperiod
        have hkept₁ : Kept cs g₁.charges := hkept.add hpropose hadd
        exact @ih (g₁.remark (some row.dueDate) g₁.beforeFuture)
          (List.pairwise_cons.mp hordered).2 hrows ((add_mark hadd).2.trans hg) hkept₁
          fun hbehind r hr => hrest hbehind r (List.mem_cons_of_mem _ hr)

/-- Where the rows that the mark has a run skip have nothing to post, the run does what it would do
without a mark. -/
theorem accrue_eq_accrueUnmarked (hordered : ScheduleRow.Ordered input.candidates)
    (hrows : ∀ row ∈ input.candidates, row.accruedTill = mark)
    (hcharges : ∀ c ∈ input.charges, c.AccruedNonneg)
    (hrest : isBehind mark till = false → ∀ row ∈ input.candidates, till < row.dueDate →
      input.RestsUpTo s processedOn till input.charges row) (firstId : Nat) :
    input.accrue (.tillDate till) s processedOn firstId =
      input.accrueUnmarked till s processedOn firstId := by
  have hfold : (input.accrueRows (.tillDate till) s processedOn firstId).map (·.remark none true) =
      input.accrueRowsUnmarked till s processedOn firstId :=
    foldlM_accrueRow hordered hrows rfl ⟨Charge.forall₂_sameTerms_refl _, hcharges⟩ hrest
  simp only [accrue, accrueUnmarked]
  rw [← hfold]
  cases input.validate with
  | error r => rfl
  | ok u =>
    cases input.accrueRows (.tillDate till) s processedOn firstId <;> rfl

end AccrualInput
end LoanLedger
