import Mathlib.Data.List.ReduceOption
import LoanLedger.Accrual.Loan
import LoanLedger.Proofs.Charge.Apportionment
import LoanLedger.Proofs.Posting

/-!
The plan of an accrual. Which rows are accrued, and how much of each, depends on dates alone; the
postings follow from carrying the plan out row by row, each row seeing the charges as the rows
before it left them.
-/

set_option autoImplicit false
set_option relaxedAutoImplicit false

namespace LoanLedger

/-- How much of a row is accrued: its whole period, with waivers counted up to a date, or the days
up to a date. -/
inductive Extent
  | whole (waiversTill : Date)
  | upTo (till : Date)
  deriving DecidableEq, Repr

namespace Extent

/-- The window in which charges are selected. -/
def window (row : ScheduleRow) : Extent → Window
  | whole _ => row.period
  | upTo till => ⟨row.fromDate, till⟩

/-- The date up to which waivers count. -/
def waiversTill : Extent → Date
  | whole till => till
  | upTo till => till

/-- The date that a posting accrues the loan to. -/
def accruedTill (row : ScheduleRow) : Extent → Date
  | whole _ => row.dueDate
  | upTo till => till

/-- The date of a posting. -/
def postedOn (s : Settings) (processedOn : Date) (row : ScheduleRow) : Extent → Date
  | whole _ =>
    match s.policy with
    | .dueDate => row.dueDate
    | .submittedDate => processedOn
  | upTo till => till

/-- A row that is due by the date of the run is accrued in full, and only such a row. -/
def Fits (row : ScheduleRow) : Extent → Prop
  | whole till => row.dueDate ≤ till
  | upTo till => till < row.dueDate

/-- An extent that brings a row up to a date: the whole period once it is over, else the days until
the date. -/
def Reaches (now : Date) (row : ScheduleRow) : Extent → Prop
  | whole _ => row.dueDate ≤ now
  | upTo till => till = now ∧ now ≤ row.dueDate

end Extent

/-- Whether an accrual up to a date still has to be made. -/
def isBehind (mark : Option Date) (till : Date) : Bool :=
  match mark with
  | none => true
  | some mark => mark < till

/-- The mark as a row due after the till date finds it. -/
def markAt (mark : Option Date) (beforeFuture : Bool) (row : ScheduleRow) : Option Date :=
  if beforeFuture || mark.isNone then row.accruedTill else mark

/-- The plan of a run up to a date, from a mark on. -/
def planFrom (till : Date) :
    (mark : Option Date) → (beforeFuture : Bool) → List ScheduleRow → List (ScheduleRow × Extent)
  | _, _, [] => []
  | mark, beforeFuture, row :: rows =>
    if till < row.dueDate then
      if isBehind (markAt mark beforeFuture row) till then
        (row, .upTo till) :: planFrom till (markAt mark beforeFuture row) false rows
      else planFrom till (markAt mark beforeFuture row) false rows
    else (row, .whole till) :: planFrom till (some row.dueDate) beforeFuture rows

/-- The rows that a run accrues, and how much of each. -/
def plan (mode : RunMode) (rows : List ScheduleRow) : List (ScheduleRow × Extent) :=
  match mode with
  | .asOfToday => rows.map fun row => (row, .whole row.dueDate)
  | .tillDate till => planFrom till none true rows

private theorem planFrom_sublist (till : Date) (rows : List ScheduleRow) (mark : Option Date)
    (beforeFuture : Bool) : ((planFrom till mark beforeFuture rows).map Prod.fst).Sublist rows := by
  induction rows generalizing mark beforeFuture with
  | nil => exact .slnil
  | cons row rows ih =>
    unfold planFrom
    split
    · split
      · exact (ih _ _).cons_cons row
      · exact (ih _ _).cons row
    · exact (ih _ _).cons_cons row

theorem plan_sublist (mode : RunMode) (rows : List ScheduleRow) :
    ((plan mode rows).map Prod.fst).Sublist rows := by
  cases mode with
  | asOfToday =>
    simp only [plan]
    rw [List.map_map]
    exact (List.map_id' rows).symm ▸ List.Sublist.refl _
  | tillDate till => exact planFrom_sublist till rows none true

private theorem planFrom_fits (till : Date) (rows : List ScheduleRow) (mark : Option Date)
    (beforeFuture : Bool) :
    ∀ task ∈ planFrom till mark beforeFuture rows, task.2.Fits task.1 := by
  induction rows generalizing mark beforeFuture with
  | nil => exact fun task h => nomatch h
  | cons row rows ih =>
    intro task h
    unfold planFrom at h
    split at h
    · next hfuture =>
      split at h
      · rcases List.mem_cons.mp h with rfl | h
        · exact hfuture
        · exact ih _ _ task h
      · exact ih _ _ task h
    · next hpast =>
      rcases List.mem_cons.mp h with rfl | h
      · exact Int.not_lt.mp hpast
      · exact ih _ _ task h

theorem plan_fits {mode : RunMode} {rows : List ScheduleRow} {task : ScheduleRow × Extent}
    (h : task ∈ plan mode rows) : task.2.Fits task.1 := by
  cases mode with
  | asOfToday =>
    obtain ⟨row, -, rfl⟩ := List.mem_map.mp h
    exact Int.le_refl row.dueDate.day
  | tillDate till => exact planFrom_fits till rows none true task h

private theorem planFrom_till (till : Date) (rows : List ScheduleRow) (mark : Option Date)
    (beforeFuture : Bool) :
    ∀ task ∈ planFrom till mark beforeFuture rows, task.2.waiversTill = till := by
  induction rows generalizing mark beforeFuture with
  | nil => exact fun task h => nomatch h
  | cons row rows ih =>
    unfold planFrom
    split
    · split
      · exact List.forall_mem_cons.mpr ⟨rfl, ih _ _⟩
      · exact ih _ _
    · exact List.forall_mem_cons.mpr ⟨rfl, ih _ _⟩

theorem plan_till {till : Date} {rows : List ScheduleRow} {task : ScheduleRow × Extent}
    (h : task ∈ plan (.tillDate till) rows) : task.2.waiversTill = till :=
  planFrom_till till rows none true task h

/-- Only a run up to a date takes up a part of a row. -/
theorem eq_tillDate_of_mem_plan {mode : RunMode} {row : ScheduleRow} {till : Date}
    {rows : List ScheduleRow} (h : (row, .upTo till) ∈ plan mode rows) : mode = .tillDate till := by
  cases mode with
  | asOfToday =>
    obtain ⟨_, _, hwhole⟩ := List.mem_map.mp h
    cases hwhole
  | tillDate till' =>
    obtain rfl : till = till' := plan_till h
    rfl

private theorem mem_planFrom_of_due {till : Date} {row : ScheduleRow} {rows : List ScheduleRow}
    (mark : Option Date) (beforeFuture : Bool) (hrow : row ∈ rows) (hdue : row.dueDate ≤ till) :
    (row, .whole till) ∈ planFrom till mark beforeFuture rows := by
  induction rows generalizing mark beforeFuture with
  | nil => cases hrow
  | cons r rows ih =>
    unfold planFrom
    rcases List.mem_cons.mp hrow with rfl | hrow
    · have hpast : ¬till < row.dueDate := Int.not_lt.mpr hdue
      rw [if_neg hpast]
      exact List.mem_cons_self
    · split
      · split
        · exact List.mem_cons_of_mem _ (ih _ _ hrow)
        · exact ih _ _ hrow
      · exact List.mem_cons_of_mem _ (ih _ _ hrow)

/-- A run accrues the whole period of every row that is due by its date. -/
theorem exists_mem_plan {mode : RunMode} {row : ScheduleRow} {rows : List ScheduleRow}
    (hrow : row ∈ rows) (hdue : ∀ till, mode = .tillDate till → row.dueDate ≤ till) :
    ∃ till, row.dueDate ≤ till ∧ (row, .whole till) ∈ plan mode rows := by
  cases mode with
  | asOfToday =>
    exact ⟨row.dueDate, Int.le_refl _,
      List.mem_map_of_mem (f := fun row => (row, Extent.whole row.dueDate)) hrow⟩
  | tillDate till => exact ⟨till, hdue till rfl, mem_planFrom_of_due none true hrow (hdue till rfl)⟩

namespace PreparedAccrual

/-- The interest that the extent brings to the row. -/
def interestFor (p : PreparedAccrual) (rounding : RoundingMode) :
    Extent → Except Fault (Option Money)
  | .whole _ => .ok (p.interest.accruable.map fun m => m.round p.row.currency rounding)
  | .upTo till => p.interestTill rounding till

end PreparedAccrual

namespace AccrualInput

variable (input : AccrualInput) (s : Settings) (processedOn : Date)

/-- The posting of one task of a plan, if there is anything to post. -/
def propose (cs : List Charge) (id : TransactionId) (row : ScheduleRow) (e : Extent) :
    Except Fault (PreparedAccrual × Option Posting) := do
  let p ← input.prepare s.policy row cs (e.window row) e.waiversTill
  let parts ← p.portions s.rounding (← p.interestFor s.rounding e)
  let posting ← p.post id parts (e.postedOn s processedOn row) (e.accruedTill row) processedOn
  return (p, posting)

/-- What a proposal rests on: the prepared income, the portions and their amount. -/
theorem propose_eq_ok {cs : List Charge} {id : TransactionId} {row : ScheduleRow} {e : Extent}
    {p : PreparedAccrual} {o : Option Posting} :
    input.propose s processedOn cs id row e = .ok (p, o) ↔
      input.prepare s.policy row cs (e.window row) e.waiversTill = .ok p ∧
      ∃ interest parts amount, p.interestFor s.rounding e = .ok interest ∧
        p.portions s.rounding interest = .ok parts ∧ parts.amount = .ok amount ∧
        o = if amount.isPositive then
            some (p.posting id parts amount (e.postedOn s processedOn row) (e.accruedTill row)
              processedOn)
          else none := by
  simp only [propose]
  simp only [bind_eq_ok, pure_eq_ok, PreparedAccrual.post_eq_ok, Prod.mk.injEq]
  constructor
  · rintro ⟨p, hp, interest, hinterest, parts, hparts, o, ⟨amount, hamount, rfl⟩, rfl, rfl⟩
    exact ⟨hp, interest, parts, amount, hinterest, hparts, hamount, rfl⟩
  · rintro ⟨hp, interest, parts, amount, hinterest, hparts, hamount, rfl⟩
    exact ⟨p, hp, interest, hinterest, parts, hparts, _, ⟨amount, hamount, rfl⟩, rfl, rfl⟩

variable {input s processedOn}

theorem prepare_eq_ok {policy : ChargePolicy} {row : ScheduleRow} {cs : List Charge} {w : Window}
    {till : Date} {p : PreparedAccrual} :
    input.prepare policy row cs w till = .ok p ↔
      Apportionment.ofCharges policy row w cs = .ok p.charges ∧
      ReconciledInterest.ofWaivers row input.waivedPeriods input.waivers till = .ok p.interest ∧
      p.row = row := by
  simp only [prepare]
  simp only [bind_eq_ok, pure_eq_ok]
  constructor
  · rintro ⟨a, ha, i, hi, rfl⟩
    exact ⟨ha, hi, rfl⟩
  · rintro ⟨ha, hi, rfl⟩
    exact ⟨p.charges, ha, p.interest, hi, rfl⟩

/-- A proposed posting is one for its row. -/
theorem propose_isFor {cs : List Charge} {id : TransactionId} {row : ScheduleRow} {e : Extent}
    {p : PreparedAccrual} {x : Posting}
    (h : input.propose s processedOn cs id row e = .ok (p, some x)) :
    x.IsFor row ∧ x.transaction.id = id ∧ x.accruedTill = e.accruedTill row ∧
      x.payments = p.charges.payments id row.installment := by
  obtain ⟨hp, interest, parts, amount, -, hparts, hamount, hx⟩ :=
    (input.propose_eq_ok s processedOn).mp h
  have hrow : p.row = row := (prepare_eq_ok.mp hp).2.2
  cases hpos : amount.isPositive with
  | false =>
    rw [hpos] at hx
    cases hx
  | true =>
    rw [hpos] at hx
    rw [Option.some.inj hx]
    refine ⟨hrow ▸ PreparedAccrual.posting_isFor hparts hamount hpos, rfl, rfl, ?_⟩
    rw [← hrow]
    rfl

theorem accruePeriod_eq_ok {till : Date} {g g' : Progress} {row : ScheduleRow} :
    input.accruePeriod s processedOn till g row = .ok g' ↔
      ∃ p o, input.propose s processedOn g.charges (.ofNat g.nextId) row (.whole till) =
        .ok (p, o) ∧ g.add p o = .ok g' := by
  have hrow : ∀ p, input.prepare s.policy row g.charges row.period till = .ok p → p.row = row :=
    fun p hp => (prepare_eq_ok.mp hp).2.2
  simp only [accruePeriod, propose, PreparedAccrual.postPeriod]
  simp only [bind_eq_ok, pure_eq_ok, Prod.mk.injEq]
  constructor
  · rintro ⟨p, hp, o, ⟨parts, hparts, ho⟩, hadd⟩
    refine ⟨p, o, ⟨p, hp, _, rfl, parts, hparts, o, ?_, rfl, rfl⟩, hadd⟩
    rw [hrow p hp] at ho
    exact ho
  · rintro ⟨p, o, ⟨p, hp, interest, hinterest, parts, hparts, o, ho, rfl, rfl⟩, hadd⟩
    cases hinterest
    refine ⟨p, hp, o, ⟨parts, hparts, ?_⟩, hadd⟩
    rw [hrow p hp]
    exact ho

theorem accrueTill_eq_ok {till : Date} {g g' : Progress} {row : ScheduleRow} :
    input.accrueTill s processedOn till g row = .ok g' ↔
      ∃ p o, input.propose s processedOn g.charges (.ofNat g.nextId) row (.upTo till) =
        .ok (p, o) ∧ g.add p o = .ok g' := by
  simp only [accrueTill, propose, PreparedAccrual.postTill]
  simp only [bind_eq_ok, pure_eq_ok, Prod.mk.injEq]
  constructor
  · rintro ⟨p, hp, o, ⟨interest, hinterest, parts, hparts, ho⟩, hadd⟩
    exact ⟨p, o, ⟨p, hp, interest, hinterest, parts, hparts, o, ho, rfl, rfl⟩, hadd⟩
  · rintro ⟨p, o, ⟨p, hp, interest, hinterest, parts, hparts, o, ho, rfl, rfl⟩, hadd⟩
    exact ⟨p, hp, o, ⟨interest, hinterest, parts, hparts, ho⟩, hadd⟩

end AccrualInput

/-- Carrying out a plan from charges and a transaction number: to each task what it posts, if
anything, and the charges after all of them. -/
inductive Accrues (input : AccrualInput) (s : Settings) (processedOn : Date) :
    List Charge → Nat → List (ScheduleRow × Extent) → List (Option Posting) → List Charge → Prop
  | done {cs : List Charge} {n : Nat} : Accrues input s processedOn cs n [] [] cs
  | rest {cs ds : List Charge} {n : Nat} {row : ScheduleRow} {e : Extent}
      {tasks : List (ScheduleRow × Extent)} {os : List (Option Posting)} {p : PreparedAccrual}
      (hpropose : input.propose s processedOn cs (.ofNat n) row e = .ok (p, none))
      (hrest : Accrues input s processedOn cs n tasks os ds) :
      Accrues input s processedOn cs n ((row, e) :: tasks) (none :: os) ds
  | posts {cs cs' ds : List Charge} {n : Nat} {row : ScheduleRow} {e : Extent}
      {tasks : List (ScheduleRow × Extent)} {os : List (Option Posting)} {p : PreparedAccrual}
      {x : Posting} (hpropose : input.propose s processedOn cs (.ofNat n) row e = .ok (p, some x))
      (happly : p.charges.applyTo cs = .ok cs')
      (hrest : Accrues input s processedOn cs' (n + 1) tasks os ds) :
      Accrues input s processedOn cs n ((row, e) :: tasks) (some x :: os) ds

namespace AccrualInput

variable {input : AccrualInput} {s : Settings} {processedOn : Date}

private theorem accrues_of_add {g g' g'' : Progress} {row : ScheduleRow} {e : Extent}
    {p : PreparedAccrual} {o : Option Posting} {tasks : List (ScheduleRow × Extent)}
    (hpropose : input.propose s processedOn g.charges (.ofNat g.nextId) row e = .ok (p, o))
    (hadd : g.add p o = .ok g')
    (hrest : ∃ os, Accrues input s processedOn g'.charges g'.nextId tasks os g''.charges ∧
      g''.postings = g'.postings ++ os.reduceOption) :
    ∃ os, Accrues input s processedOn g.charges g.nextId ((row, e) :: tasks) os g''.charges ∧
      g''.postings = g.postings ++ os.reduceOption := by
  obtain ⟨os, hos, hpostings⟩ := hrest
  cases o with
  | none =>
    cases hadd
    exact ⟨none :: os, .rest hpropose hos, by rw [hpostings, List.reduceOption_cons_of_none]⟩
  | some x =>
    obtain ⟨cs, happly, hg⟩ := bind_eq_ok.mp hadd
    rw [← pure_eq_ok.mp hg] at hos hpostings
    refine ⟨some x :: os, .posts hpropose happly hos, ?_⟩
    rw [hpostings, List.reduceOption_cons_of_some, List.append_assoc]
    rfl

theorem add_mark {g g' : Progress} {p : PreparedAccrual} {o : Option Posting}
    (h : g.add p o = .ok g') : g'.mark = g.mark ∧ g'.beforeFuture = g.beforeFuture := by
  cases o with
  | none =>
    cases h
    exact ⟨rfl, rfl⟩
  | some x =>
    obtain ⟨cs, -, hg⟩ := bind_eq_ok.mp h
    rw [← pure_eq_ok.mp hg]
    exact ⟨rfl, rfl⟩

theorem atFuture_eq (g : Progress) (row : ScheduleRow) :
    g.atFuture row =
      { g with mark := markAt g.mark g.beforeFuture row, beforeFuture := false } := by
  simp only [Progress.atFuture, markAt]
  split
  · rfl
  · next h =>
    cases g with
    | mk postings charges mark beforeFuture nextId =>
      have hbefore : beforeFuture = false := by
        simp only [Bool.or_eq_true, not_or, Bool.not_eq_true] at h
        exact h.1
      rw [hbefore]

private theorem accrues_of_accrueRow {till : Date} {rows : List ScheduleRow} {g g' : Progress}
    (h : rows.foldlM (input.accrueRow s processedOn till) g = .ok g') :
    ∃ os, Accrues input s processedOn g.charges g.nextId
        (planFrom till g.mark g.beforeFuture rows) os g'.charges ∧
      g'.postings = g.postings ++ os.reduceOption := by
  induction rows generalizing g with
  | nil =>
    rw [List.foldlM_nil, pure_eq_ok] at h
    exact ⟨[], h ▸ .done, by rw [h, List.reduceOption_nil, List.append_nil]⟩
  | cons row rows ih =>
    rw [List.foldlM_cons, bind_eq_ok] at h
    obtain ⟨g₁, hrow, hrest⟩ := h
    have hrest := ih hrest
    -- The loop and the plan ask the same two questions: does the row fall due after the till date,
    -- and is the mark behind it?
    unfold accrueRow at hrow
    unfold planFrom
    split at hrow
    · next hfuture =>
      rw [if_pos hfuture]
      rw [atFuture_eq] at hrow
      dsimp only at hrow
      split at hrow
      · next hbehind =>
        rw [if_pos (show isBehind _ till = true from hbehind)]
        obtain ⟨p, o, hpropose, hadd⟩ := accrueTill_eq_ok.mp hrow
        obtain ⟨hmark, hbefore⟩ := add_mark hadd
        rw [hmark, hbefore] at hrest
        exact accrues_of_add
          (g := { g with mark := markAt g.mark g.beforeFuture row, beforeFuture := false })
          hpropose hadd hrest
      · next hbehind =>
        rw [if_neg (show ¬isBehind _ till = true from hbehind)]
        rw [← Except.ok.inj hrow] at hrest
        exact hrest
    · next hpast =>
      rw [if_neg hpast]
      obtain ⟨g₂, hperiod, hg₁⟩ := bind_eq_ok.mp hrow
      obtain ⟨p, o, hpropose, hadd⟩ := accruePeriod_eq_ok.mp hperiod
      rw [← pure_eq_ok.mp hg₁] at hrest
      rw [← (add_mark hadd).2]
      exact accrues_of_add hpropose hadd hrest

private theorem accrues_of_accruePeriod {rows : List ScheduleRow} {g g' : Progress}
    (h : rows.foldlM (fun g row => input.accruePeriod s processedOn row.dueDate g row) g = .ok g') :
    ∃ os, Accrues input s processedOn g.charges g.nextId
        (rows.map fun row => (row, .whole row.dueDate)) os g'.charges ∧
      g'.postings = g.postings ++ os.reduceOption := by
  induction rows generalizing g with
  | nil =>
    rw [List.foldlM_nil, pure_eq_ok] at h
    exact ⟨[], h ▸ .done, by rw [h, List.reduceOption_nil, List.append_nil]⟩
  | cons row rows ih =>
    rw [List.foldlM_cons, bind_eq_ok] at h
    obtain ⟨g₁, hrow, hrest⟩ := h
    obtain ⟨p, o, hpropose, hadd⟩ := accruePeriod_eq_ok.mp hrow
    exact accrues_of_add hpropose hadd (ih hrest)

/-- The rows of a loan are accrued by carrying out the plan of the run. -/
theorem accrues_of_accrueRows {mode : RunMode} {firstId : Nat} {g : Progress}
    (h : input.accrueRows mode s processedOn firstId = .ok g) :
    ∃ os, Accrues input s processedOn input.charges firstId (plan mode input.candidates) os
        g.charges ∧ g.postings = os.reduceOption := by
  cases mode with
  | asOfToday =>
    obtain ⟨os, hos, hpostings⟩ := accrues_of_accruePeriod h
    exact ⟨os, hos, hpostings⟩
  | tillDate till =>
    obtain ⟨os, hos, hpostings⟩ := accrues_of_accrueRow h
    exact ⟨os, hos, hpostings⟩

end AccrualInput
end LoanLedger
