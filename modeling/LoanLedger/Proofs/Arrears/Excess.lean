import LoanLedger.Proofs.Arrears.Agreement
import LoanLedger.Proofs.Arrears.Repeated

/-!
Arrears by the issued schedule, in closed form. On every aspect as much is overdue as is due beyond
what was repaid on the loan, however the repayments fall on the single periods; and principal has been
overdue since the first period whose principal, with that of the periods before it, the repayments do
not reach.
-/

set_option autoImplicit false
set_option relaxedAutoImplicit false

namespace LoanLedger

/-- What is due on an aspect over periods, beyond what was repaid. -/
def RepaymentTotals.excess (t : RepaymentTotals) (periods : List IssuedPeriod) (k : Aspect) : ℚ :=
  max 0 (IssuedPeriod.totalDue periods k - t.pool k)

/-- A period that is the first, in the order of the periods, to be due together with those before it
for more than was repaid on an aspect. -/
def RepaymentTotals.RunsOutAt (t : RepaymentTotals) (periods : List IssuedPeriod) (k : Aspect)
    (p : IssuedPeriod) : Prop :=
  ∃ before after, periods = before ++ p :: after ∧
    (∀ earlier, earlier <+: before → IssuedPeriod.totalDue earlier k ≤ t.pool k) ∧
    t.pool k < IssuedPeriod.totalDue (before ++ [p]) k

/-- The row of a loan by periods and repayments. There is one exactly when more principal is due than
was repaid; it shows what is due beyond the repayments, all of that together, and the due date of the
period at which the repayments of principal run out. -/
structure Arrears.OfExcess (id : LoanId) (periods : List IssuedPeriod) (t : RepaymentTotals)
    (row? : Option Arrears) : Prop where
  isSome_iff : row?.isSome = true ↔ 0 < t.excess periods .principal
  loanId : ∀ row ∈ row?, row.loanId = id
  components : ∀ row ∈ row?, row.components.map Money.value =
    [t.excess periods .principal, t.excess periods .interest, t.excess periods .fee,
      t.excess periods .penalty]
  total : ∀ row ∈ row?, row.total.value = t.excess periods .principal +
    t.excess periods .interest + t.excess periods .fee + t.excess periods .penalty
  since : ∀ row ∈ row?, ∃ p, t.RunsOutAt periods .principal p ∧ row.since = p.dueDate

theorem Date.Earliest.eq_of_mem {start d e : Date} {dates : List Date} (h : Earliest start dates d)
    (he : e ∈ dates) (hle : ∀ f ∈ start :: dates, e ≤ f) : d = e :=
  Date.ext_day (Int.le_antisymm (h.le e (List.mem_cons_of_mem _ he)) (hle d h.mem))

namespace IssuedPeriod

theorem totalDue_append (before after : List IssuedPeriod) (k : Aspect) :
    totalDue (before ++ after) k = totalDue before k + totalDue after k := by
  rw [totalDue, List.map_append, List.sum_append]
  rfl

theorem totalDue_mono {before periods : List IssuedPeriod} (h : before <+: periods) {k : Aspect}
    (hdue : ∀ p ∈ periods, 0 ≤ (p.due k).value) : totalDue before k ≤ totalDue periods k := by
  obtain ⟨after, rfl⟩ := h
  rw [totalDue_append, le_add_iff_nonneg_right]
  exact List.sum_nonneg (List.forall_mem_map.mpr fun p hp => hdue p (List.mem_append_right _ hp))

end IssuedPeriod

namespace CoveredPeriod.Laid

variable {t : RepaymentTotals} {cs : List CoveredPeriod} {today since : Date}

/-- What the periods lack is what is due on them beyond the repayments. -/
theorem shortage_eq (h : Laid t.pool cs) {k : Aspect} (hk : 0 ≤ t.pool k) :
    Arrears.shortage cs k = t.excess (cs.map (·.period)) k := by
  have hsplit : Arrears.shortage cs k + (cs.map fun c => (c.paid k).value).sum =
      IssuedPeriod.totalDue (cs.map (·.period)) k := by
    rw [Arrears.shortage, ← List.sum_map_add, IssuedPeriod.totalDue, List.map_map]
    exact congrArg List.sum (List.map_congr_left fun c _ => sub_add_cancel _ _)
  rw [h.sum_paid hk] at hsplit
  rw [RepaymentTotals.excess]
  rcases le_total (t.pool k) (IssuedPeriod.totalDue (cs.map (·.period)) k) with hle | hle
  · rw [min_eq_left hle] at hsplit
    rw [max_eq_right (sub_nonneg.mpr hle)]
    exact eq_sub_of_add_eq hsplit
  · rw [min_eq_right hle] at hsplit
    rw [max_eq_left (sub_nonpos.mpr hle)]
    exact add_eq_right.mp hsplit

/-- In the order of the due dates, the earliest period that lacks principal is the one at which the
repayments of principal run out. -/
theorem since_eq (h : Laid t.pool cs) (hpool : 0 ≤ t.pool .principal)
    (hsorted : (cs.map (·.period)).Pairwise fun p q => p.dueDate ≤ q.dueDate)
    (hdue : ∀ c ∈ cs, c.period.dueDate < today)
    (hpos : 0 < t.excess (cs.map (·.period)) .principal)
    (hsince : today.Earliest ((cs.filter (·.lacksPrincipal)).map (·.period.dueDate)) since) :
    ∃ p, t.RunsOutAt (cs.map (·.period)) .principal p ∧ since = p.dueDate := by
  have hlt : t.pool .principal < IssuedPeriod.totalDue (cs.map (·.period)) .principal := by
    rcases lt_max_iff.mp hpos with hzero | hmore
    · exact absurd hzero (lt_irrefl 0)
    · linarith
  obtain ⟨before, c, after, rfl, hbefore, hshort, hle, hover⟩ := h.exists_first_short hpool hlt
  have hexact := h.exact
  refine ⟨c.period, ⟨before.map (·.period), after.map (·.period), by simp, fun earlier hprefix => ?_,
    ?_⟩, hsince.eq_of_mem ?_ ?_⟩
  · refine (IssuedPeriod.totalDue_mono hprefix ?_).trans hle
    exact List.forall_mem_map.mpr fun b hb =>
      ((hexact b (List.mem_append_left _ hb)).due .principal).nonneg
  · rw [IssuedPeriod.totalDue_append, IssuedPeriod.totalDue_cons, IssuedPeriod.totalDue_nil, add_zero]
    exact hover
  · have hlacks : c.lacksPrincipal = true := decide_eq_true (Money.lt_iff_value.mpr hshort)
    exact List.mem_map_of_mem (List.mem_filter.mpr
      ⟨List.mem_append_right _ List.mem_cons_self, hlacks⟩)
  · rw [List.map_append, List.map_cons, List.pairwise_append, List.pairwise_cons] at hsorted
    obtain ⟨-, ⟨hlater, -⟩, -⟩ := hsorted
    refine List.forall_mem_cons.mpr ⟨Int.le_of_lt
      (hdue c (List.mem_append_right _ List.mem_cons_self)), List.forall_mem_map.mpr fun d hd => ?_⟩
    obtain ⟨hmem, hlacks⟩ := List.mem_filter.mp hd
    rcases List.mem_append.mp hmem with hmem | hmem
    · -- the periods before it are paid in full
      have hlt := Money.lt_iff_value.mp (of_decide_eq_true hlacks)
      exact absurd (hbefore d hmem) hlt.ne
    · rcases List.mem_cons.mp hmem with rfl | hmem
      · exact Int.le_refl _
      · exact hlater _ (List.mem_map_of_mem hmem)

end CoveredPeriod.Laid

/-- In the exact range, periods in the order of their due dates have the row that repayments leave. -/
theorem Arrears.exists_ofCovered (id : LoanId) {t : RepaymentTotals} {cs : List CoveredPeriod}
    {today : Date} (hlaid : CoveredPeriod.Laid t.pool cs) (hpool : ∀ k, 0 ≤ t.pool k)
    (hsorted : (cs.map (·.period)).Pairwise fun p q => p.dueDate ≤ q.dueDate)
    (hdue : ∀ c ∈ cs, c.period.dueDate < today) (hroom : ∀ k, shortage cs k < 10 ^ 18) :
    ∃ row?, ofCovered id cs today = .ok row? ∧ OfExcess id (cs.map (·.period)) t row? := by
  have hexcess : ∀ k, shortage cs k = t.excess (cs.map (·.period)) k :=
    fun k => hlaid.shortage_eq (hpool k)
  obtain ⟨u, hu, hshows, hsince⟩ := exists_foldlM_issued hlaid.exact (t := ⟨.none, today⟩) Shows.none
    fun k => by rw [zero_add]; exact hroom k
  simp only [zero_add, hexcess] at hshows
  obtain ⟨row?, hrow, hsome, hlook⟩ := exists_row hshows id u.since
  refine ⟨row?, bind_eq_ok.mpr ⟨u, hu, hrow⟩, hsome, fun row hmem => ?_, fun row hmem => ?_,
    fun row hmem => ?_, fun row hmem => ?_⟩
  · exact (hlook row hmem).1
  · exact (hlook row hmem).2.2.1
  · exact (hlook row hmem).2.2.2
  · rw [(hlook row hmem).2.1]
    refine hlaid.since_eq (hpool .principal) hsorted hdue (hsome.mp ?_) hsince
    rw [Option.mem_def.mp hmem]
    rfl

namespace Loan

variable {loan : Loan} {cutoff : Date}

/-- A loan whose issued schedule and repayments are in the exact range, without negative amounts. -/
structure IssuedInRange (loan : Loan) : Prop where
  amounts : ∀ a ∈ loan.repayments.amounts ++ loan.issuedSchedule.flatMap IssuedPeriod.amounts,
    a.Fine ∧ 0 ≤ a.value
  size : totalSize (loan.repayments.amounts ++ loan.issuedSchedule.flatMap IssuedPeriod.amounts) <
    10 ^ 18

theorem issuedBefore_sorted (loan : Loan) (cutoff : Date) :
    (loan.issuedBefore cutoff).Pairwise fun p q => p.dueDate ≤ q.dueDate := by
  have hsorted : loan.issuedInOrder.Pairwise fun p q => decide (p.dueDate ≤ q.dueDate) = true := by
    refine List.pairwise_mergeSort (fun a b c hab hbc => ?_) (fun a b => ?_) _
    · exact decide_eq_true (Date.le_trans (of_decide_eq_true hab) (of_decide_eq_true hbc))
    · rw [Bool.or_eq_true, decide_eq_true_eq, decide_eq_true_eq]
      exact Date.le_total _ _
  exact (hsorted.filter _).imp of_decide_eq_true

theorem issuedBefore_subperm (loan : Loan) (cutoff : Date) :
    (loan.issuedBefore cutoff).Subperm loan.issuedSchedule :=
  List.filter_sublist.subperm.trans (List.mergeSort_perm _ _).subperm

/-- Some of the periods of a loan are in the exact range with its repayments. -/
theorem IssuedInRange.before (h : loan.IssuedInRange) (cutoff : Date) :
    (∀ a ∈ loan.repayments.amounts ++ (loan.issuedBefore cutoff).flatMap IssuedPeriod.amounts,
      a.Fine ∧ 0 ≤ a.value) ∧
    totalSize (loan.repayments.amounts ++
      (loan.issuedBefore cutoff).flatMap IssuedPeriod.amounts) < 10 ^ 18 := by
  obtain ⟨chosen, hperm, hsub⟩ := loan.issuedBefore_subperm cutoff
  have hamounts : ((loan.issuedBefore cutoff).flatMap IssuedPeriod.amounts).Subperm
      (loan.issuedSchedule.flatMap IssuedPeriod.amounts) :=
    ⟨_, hperm.flatMap_right _, hsub.flatMap _⟩
  refine ⟨fun a ha => h.amounts a ?_, ?_⟩
  · rcases List.mem_append.mp ha with ha | ha
    · exact List.mem_append_left _ ha
    · exact List.mem_append_right _ (hamounts.subset ha)
  · have hle := totalSize_le_of_subperm hamounts
    have hsize := h.size
    rw [totalSize_append] at hsize ⊢
    linarith

/-- In the exact range the repayments of a loan are laid over the periods that were due before a date,
and leave a row of them. -/
theorem IssuedInRange.exists_row (h : loan.IssuedInRange) (id : LoanId) {today : Date}
    (hcutoff : cutoff ≤ today) : ∃ covered row?,
      CoveredPeriod.ofRepayments (loan.issuedBefore cutoff) loan.repayments = .ok covered ∧
      Arrears.ofCovered id covered today = .ok row? ∧
      Arrears.OfExcess id (loan.issuedBefore cutoff) loan.repayments row? := by
  obtain ⟨hamounts, hsize⟩ := h.before cutoff
  obtain ⟨covered, hcovered, hperiods, hlaid⟩ := CoveredPeriod.exists_laid hamounts hsize
  have hpool := CoveredPeriod.pool_nonneg fun a ha => (hamounts a (List.mem_append_left _ ha)).2
  have hdue : ∀ c ∈ covered, c.period.dueDate < today := by
    intro c hc
    have hmem : c.period ∈ loan.issuedBefore cutoff := hperiods ▸ List.mem_map_of_mem hc
    exact Int.lt_of_lt_of_le (of_decide_eq_true (List.mem_filter.mp hmem).2) hcutoff
  have hroom : ∀ k, Arrears.shortage covered k < 10 ^ 18 := by
    intro k
    have hle := Arrears.shortage_le hlaid.exact k
    have hrepaid := totalSize_nonneg loan.repayments.amounts
    rw [hperiods] at hle
    rw [totalSize_append] at hsize
    linarith
  obtain ⟨row?, hrow, hexcess⟩ := Arrears.exists_ofCovered id hlaid hpool
    (hperiods.symm ▸ loan.issuedBefore_sorted cutoff) hdue hroom
  exact ⟨covered, row?, hcovered, hrow, hperiods ▸ hexcess⟩

end Loan

namespace Ledger

variable {g g' : Ledger} {s : Settings} {today cutoff : Date} {id : LoanId} {ids : List LoanId}
  {loan : Loan}

/-- In the exact range a loan has the row that its repayments leave of the periods that were due
before its days of grace. -/
theorem exists_issuedArrears (hloan : g.loans.find? id = some loan) (hrange : loan.IssuedInRange)
    (hcutoff : today.minusDays (loan.profile.grace s).toNat = .ok cutoff) :
    ∃ row?, g.issuedArrears s id loan.issuedInOrder today = .ok row? ∧
      Arrears.OfExcess id (loan.issuedBefore cutoff) loan.repayments row? := by
  obtain ⟨covered, row?, hcovered, hrow, hexcess⟩ :=
    hrange.exists_row id (Date.minusDays_le hcutoff)
  refine ⟨row?, ?_, hexcess⟩
  rw [issuedArrears_of_find? hloan, hcutoff, lift_fault_ok, bind_ok]
  split
  · next hnone =>
    -- without periods nothing is covered, and nothing is overdue
    rw [List.isEmpty_iff.mp hnone] at hcovered
    obtain ⟨pools, -, hnothing⟩ := bind_eq_ok.mp hcovered
    rw [← Except.ok.inj hnothing] at hrow
    exact congrArg pure (Except.ok.inj hrow)
  · rw [hcovered, lift_fault_ok, bind_ok, hrow, lift_fault_ok]

/-- The changes that distinct loans are brought up to date by. -/
theorem changes_updateIssuedFrom {groups : List (LoanId × List IssuedPeriod)}
    {changes : List ArrearsChange} (hn : ids.Nodup)
    (h : g.updateIssuedFrom s today groups ids = (g', .ok changes)) :
    changes = ids.map fun id => .plan id (g.arrears.find? id) (g'.arrears.find? id) := by
  induction ids generalizing g groups changes with
  | nil => exact (Except.ok.inj (congrArg Prod.snd h)).symm
  | cons k ids ih =>
    obtain ⟨hk, hn⟩ := List.nodup_cons.mp hn
    rw [updateIssuedFrom_cons] at h
    split at h
    · cases h
    next row? hrow =>
    split at h
    · cases h
    next g₂ more hrest =>
    obtain rfl : g₂ = g' := congrArg Prod.fst h
    obtain ⟨-, hkept, -⟩ := find?_updateIssuedFrom hrest
    have hown : g₂.arrears.find? k = row? := by rw [hkept k hk, Table.find?_put_self]
    rw [← Except.ok.inj (congrArg Prod.snd h), List.map_cons, hown, ih hn hrest]
    congr 1
    refine List.map_congr_left fun id hid => ?_
    rw [Table.find?_put_of_ne _ fun heq : id = k => hk (heq ▸ hid)]

/-- Distinct loans in the exact range, whose days of grace do not reach below the first date, are
brought up to date by their issued schedules, each with the row that its repayments leave of the
periods that were due before its days of grace. -/
theorem updateIssued_excess (hg : g.IssuedAmong ids) (hn : ids.Nodup)
    (h : ∀ id ∈ ids, ∃ loan cutoff, g.loans.find? id = some loan ∧ loan.IssuedInRange ∧
      today.minusDays (loan.profile.grace s).toNat = .ok cutoff) :
    ∃ g' changes, g.updateIssued s today ids = (g', .ok changes) ∧
      changes = (ids.map fun id => .plan id (g.arrears.find? id) (g'.arrears.find? id)) ∧
      ∀ id ∈ ids, ∀ loan cutoff, g.loans.find? id = some loan →
        today.minusDays (loan.profile.grace s).toNat = .ok cutoff →
        Arrears.OfExcess id (loan.issuedBefore cutoff) loan.repayments (g'.arrears.find? id) := by
  obtain ⟨read, hread⟩ : ∃ read : Ledger, read = { g with issuedReads := g.issuedReads + 1 } :=
    ⟨_, rfl⟩
  have hgroup : ∀ id ∈ ids, ∀ loan cutoff, g.loans.find? id = some loan → loan.IssuedInRange →
      today.minusDays (loan.profile.grace s).toNat = .ok cutoff →
      ∃ row?, read.issuedArrears s id
          (takeGroup id (IssuedPeriod.groupRuns (g.issuedPeriods ids))).1 today = .ok row? ∧
        Arrears.OfExcess id (loan.issuedBefore cutoff) loan.repayments row? := by
    intro id hid loan cutoff hloan hrange hcutoff
    rw [takeGroup_issuedPeriods hg hloan hid]
    exact exists_issuedArrears (hread ▸ hloan) hrange hcutoff
  obtain ⟨g', changes, hupdate⟩ : ∃ g' changes, read.updateIssuedFrom s today
      (IssuedPeriod.groupRuns (g.issuedPeriods ids)) ids = (g', .ok changes) := by
    refine exists_updateIssuedFrom hn fun id hid => ?_
    obtain ⟨loan, cutoff, hloan, hrange, hcutoff⟩ := h id hid
    obtain ⟨row?, hrow, -⟩ := hgroup id hid loan cutoff hloan hrange hcutoff
    exact ⟨row?, hrow⟩
  obtain ⟨-, -, hrows⟩ := find?_updateIssuedFrom hupdate
  have hchanges := changes_updateIssuedFrom hn hupdate
  rw [hread] at hupdate hchanges
  refine ⟨g', changes, hupdate, hchanges, fun id hid loan cutoff hloan hcutoff => ?_⟩
  obtain ⟨found, -, hfound, hrange, -⟩ := h id hid
  obtain rfl := Option.some.inj (hfound.symm.trans hloan)
  obtain ⟨row?, hrow, hfind⟩ := hrows id hid
  obtain ⟨own?, hown, hexcess⟩ := hgroup id hid found cutoff hloan hrange hcutoff
  obtain rfl := Except.ok.inj (hrow.symm.trans hown)
  rwa [hfind, if_neg (Nat.not_lt.mpr (List.nodup_iff_count_le_one.mp hn id))]

end Ledger

/-! Two loans that follow their issued schedules, with three days of grace each. -/

/-- The loan of the three periods of spring, which were not issued in their order. -/
def springLoan : Loan :=
  { Loan.blank 1 .active with
    profile := ⟨1, .active, true, true, some 3⟩
    issuedSchedule := springPeriods.reverse
    repayments := partlyRepaid }

/-- A ledger with that loan and the one of February. -/
def springLedger : Ledger := (Ledger.empty.putLoan springLoan).putLoan februaryIssuedLoan

/-- 2024-02-27, three days before 2024-03-01. -/
def endOfGrace : Date := ⟨739248, by decide, by decide⟩

theorem issued_springLedger : springLedger.Issued :=
  Ledger.Issued.putLoan (Ledger.Issued.putLoan (fun _ _ h => nomatch h) ⟨rfl, by decide⟩)
    ⟨rfl, List.forall_mem_singleton.mpr rfl⟩

private theorem issuedInRange_of {loan : Loan}
    (hamounts : ∀ a ∈ loan.repayments.amounts ++ loan.issuedSchedule.flatMap IssuedPeriod.amounts,
      a.Fine ∧ 0 ≤ a.units)
    (hsize : totalSize (loan.repayments.amounts ++
      loan.issuedSchedule.flatMap IssuedPeriod.amounts) < 10 ^ 18) : loan.IssuedInRange where
  amounts a ha := ⟨(hamounts a ha).1, Money.value_nonneg_iff.mpr (hamounts a ha).2⟩
  size := hsize

theorem issuedBefore_springLoan : springLoan.issuedBefore endOfGrace = springPeriods.take 2 := by
  cbv

/-- Before the days of grace of the first loan 180.00 principal and 18.00 interest were due, of which
136.00 and all was repaid: it is short of 44.00 principal, and of the penalty. -/
theorem updateIssued_excess_spring :
    springLedger.IssuedAmong [2, 1] ∧ [(2 : LoanId), 1].Nodup ∧
    (∀ id ∈ [(2 : LoanId), 1], ∃ loan cutoff, springLedger.loans.find? id = some loan ∧
      loan.IssuedInRange ∧
      firstOfMarch.minusDays (loan.profile.grace .standard).toNat = .ok cutoff) ∧
    ∃ g' changes row, springLedger.updateIssued .standard firstOfMarch [2, 1] = (g', .ok changes) ∧
      Arrears.OfExcess 1 (springPeriods.take 2) partlyRepaid (some row) ∧
      g'.arrears.find? 1 = some row ∧ row.components.map Money.value = [44, 0, 0, 7] ∧
      row.total.value = 51 := by
  have hloans : ∀ id ∈ [(2 : LoanId), 1], ∃ loan cutoff,
      springLedger.loans.find? id = some loan ∧ loan.IssuedInRange ∧
      firstOfMarch.minusDays (loan.profile.grace .standard).toNat = .ok cutoff := by
    refine List.forall_mem_cons.mpr ⟨⟨februaryIssuedLoan, endOfGrace, rfl, ?_, rfl⟩,
      List.forall_mem_singleton.mpr ⟨springLoan, endOfGrace, rfl, ?_, rfl⟩⟩
    · exact issuedInRange_of (by unfold Money.Fine; decide +kernel) (by decide +kernel)
    · exact issuedInRange_of (by unfold Money.Fine; decide +kernel) (by decide +kernel)
  obtain ⟨g', changes, hupdate, -, hrows⟩ :=
    Ledger.updateIssued_excess (issued_springLedger.among [2, 1]) (by decide) hloans
  have hspring := hrows 1 (by decide) springLoan endOfGrace rfl rfl
  rw [issuedBefore_springLoan] at hspring
  obtain ⟨row, hrow⟩ := Option.isSome_iff_exists.mp
    (hspring.isSome_iff.mpr (by decide +kernel))
  rw [hrow] at hspring
  exact ⟨issued_springLedger.among _, by decide, hloans, g', changes, row, hupdate, hspring, hrow,
    (hspring.components row rfl).trans (by decide +kernel),
    (hspring.total row rfl).trans (by decide +kernel)⟩

end LoanLedger
