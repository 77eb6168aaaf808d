import LoanLedger.Arrears.Update
import LoanLedger.Proofs.Money.Fit
import LoanLedger.Proofs.Range
import LoanLedger.Proofs.Success

/-!
What is overdue on a loan. The components, and the date since when they are overdue, are computed from
the loan alone, by its live schedule or by the one that was first issued. Where any principal is
overdue, it has been so since a date before the one of the computation.
-/

set_option autoImplicit false
set_option relaxedAutoImplicit false

namespace LoanLedger

namespace Loan

/-- Whether the arrears of a loan follow its issued schedule. -/
def usesIssuedSchedule (loan : Loan) (s : Settings) : Bool :=
  ({ loan.profile with status := loan.status } : AgeingProfile).usesIssuedSchedule s

/-- What is overdue by the live schedule, and since when. -/
def overdueLive (loan : Loan) (today : Date) : Except Fault (OverdueTotals × Date) := do
  let overdue := loan.installments.filter fun i => i.dueDate < today
  let t ← overdue.foldlM Arrears.LiveTally.include ⟨.none, today⟩
  return (t.totals, t.since)

/-- The issued schedule in the order of the due dates. -/
def issuedInOrder (loan : Loan) : List IssuedPeriod :=
  loan.issuedSchedule.mergeSort fun a b => a.dueDate ≤ b.dueDate

/-- The issued periods that are due before a date. -/
def issuedBefore (loan : Loan) (cutoff : Date) : List IssuedPeriod :=
  loan.issuedInOrder.filter fun p => p.dueDate < cutoff

/-- What is overdue by the issued schedule, and since when. -/
def overdueIssued (loan : Loan) (s : Settings) (today : Date) :
    Except Fault (OverdueTotals × Date) := do
  let cutoff ← today.minusDays (loan.profile.grace s).toNat
  if (loan.issuedBefore cutoff).isEmpty then return (.none, today)
  let covered ← CoveredPeriod.ofRepayments (loan.issuedBefore cutoff) loan.repayments
  let t ← (covered.filter fun c => !c.complete).foldlM Arrears.IssuedTally.include ⟨.none, today⟩
  return (t.totals, t.since)

/-- What is overdue on a loan, and since when, by the schedule that its arrears follow, or by the live
one where that is forced. -/
def overdue (loan : Loan) (s : Settings) (today : Date) (live : Bool) :
    Except Fault (OverdueTotals × Date) :=
  if live then loan.overdueLive today
  else if loan.usesIssuedSchedule s then loan.overdueIssued s today
  else loan.overdueLive today

/-- The row of a loan, computed from the loan alone. -/
def freshArrears (loan : Loan) (s : Settings) (today : Date) (live : Bool) :
    Except Fault (Option Arrears) := do
  let (totals, since) ← loan.overdue s today live
  totals.toArrears loan.id since

end Loan

/-- The overdue components of a row. -/
def Arrears.components (row : Arrears) : List Money :=
  [row.principal, row.interest, row.fee, row.penalty]

/-- A row whose total is the sum of its components; where they have room together, that is their
exact sum. -/
structure Arrears.Totalled (row : Arrears) : Prop where
  sum : Money.sum row.components = .ok row.total
  value : (∀ a ∈ row.components, a.Fine) → totalSize row.components < Money.room →
    row.total.value = (row.components.map Money.value).sum

/-- The row of a loan on which these totals are overdue since a date. There is one exactly when any
principal is overdue. -/
structure OverdueTotals.Leaves (totals : OverdueTotals) (id : LoanId) (since : Date)
    (row? : Option Arrears) : Prop where
  isSome_iff : row?.isSome ↔ 0 < totals.principal.value
  eq : ∀ row ∈ row?, row = ⟨id, totals.principal, totals.interest, totals.fee, totals.penalty,
    row.total, since⟩
  totalled : ∀ row ∈ row?, row.Totalled

/-- A date since when amounts have been overdue, as of another date: an earlier one, where any
principal is overdue. -/
structure OverdueTotals.Since (today : Date) (totals : OverdueTotals) (since : Date) : Prop where
  le : since ≤ today
  lt : 0 < totals.principal.value → since < today

namespace OverdueTotals

variable {today since due : Date} {totals totals' : OverdueTotals} {m : Money}

/-- The row that is computed from totals. -/
theorem leaves_toArrears {id : LoanId} {row? : Option Arrears}
    (h : totals.toArrears id since = .ok row?) : totals.Leaves id since row? := by
  have hpositive : totals.principal.isPositive = true ↔ 0 < totals.principal.value := by
    rw [Money.value_pos_iff]
    exact decide_eq_true_iff
  simp only [toArrears] at h
  split at h
  · next hprincipal =>
    obtain ⟨total, htotal, h⟩ := bind_eq_ok.mp h
    rw [← pure_eq_ok.mp h]
    -- an addition to nothing comes first in a sum over a list
    have hsum : Money.sum [totals.principal, totals.interest, totals.fee, totals.penalty] =
        .ok total := by
      obtain ⟨two, htwo, htotal⟩ := bind_eq_ok.mp htotal
      obtain ⟨three, hthree, htotal⟩ := bind_eq_ok.mp htotal
      exact bind_eq_ok.mpr ⟨_, rfl, bind_eq_ok.mpr ⟨two, htwo, bind_eq_ok.mpr ⟨three, hthree,
        bind_eq_ok.mpr ⟨total, htotal, rfl⟩⟩⟩⟩
    refine ⟨iff_of_true rfl (hpositive.mp hprincipal), ?_, ?_⟩
    · rintro row ⟨⟩
      rfl
    · rintro row ⟨⟩
      exact ⟨hsum, fun hfine hsize => Money.value_sum hsum hfine hsize⟩
  · next hprincipal =>
    rw [← Except.ok.inj h]
    exact ⟨iff_of_false Bool.false_ne_true fun hpos => hprincipal (hpositive.mpr hpos),
      fun _ hrow => (nomatch hrow), fun _ hrow => (nomatch hrow)⟩

theorem since_none (today : Date) : Since today .none today where
  le := Int.le_refl _
  lt h := absurd (Money.value_zero ▸ h : (0 : ℚ) < 0) (lt_irrefl 0)

/-- One more amount of principal, which moves the date if that is later than its due date. -/
theorem Since.add (h : Since today totals since) (hadd : totals.principal.add m = .ok totals'.principal)
    (hdue : due < today) {earlier : Bool} (hearlier : 0 < m.value → due < since → earlier = true) :
    Since today totals' (if earlier then due else since) := by
  cases earlier with
  | true => exact ⟨Int.le_of_lt hdue, fun _ => hdue⟩
  | false =>
    refine ⟨h.le, fun hpos => ?_⟩
    by_cases hm : 0 < m.value
    · have hnot : ¬due < since := fun hlt => Bool.false_ne_true (hearlier hm hlt)
      exact Int.lt_of_le_of_lt (Int.not_lt.mp hnot) hdue
    · have hsum := (Money.add_pos_iff hadd).mp hpos
      exact h.lt (by linarith)

end OverdueTotals

theorem Component.outstanding_nonneg {c : Component} {m : Money} (h : c.outstanding = .ok m) :
    0 ≤ m.value := by
  obtain ⟨a, -, h⟩ := bind_eq_ok.mp h
  obtain ⟨b, -, h⟩ := bind_eq_ok.mp h
  exact Money.value_nonneg_iff.mpr (Money.monus_units_nonneg h)

/-- With principal outstanding an installment is not settled. -/
theorem Installment.isSettled_of_principal {i : Installment} {m : Money} {settled : Bool}
    (hm : i.principal.outstanding = .ok m) (hpos : 0 < m.value) (h : i.isSettled = .ok settled) :
    settled = false := by
  obtain ⟨o, ho, hsettled⟩ := bind_eq_ok.mp h
  obtain ⟨p, hp, ho⟩ := bind_eq_ok.mp ho
  obtain ⟨interest, hinterest, ho⟩ := bind_eq_ok.mp ho
  obtain ⟨two, htwo, ho⟩ := bind_eq_ok.mp ho
  obtain ⟨fee, hfee, ho⟩ := bind_eq_ok.mp ho
  obtain ⟨three, hthree, ho⟩ := bind_eq_ok.mp ho
  obtain ⟨penalty, hpenalty, ho⟩ := bind_eq_ok.mp ho
  obtain rfl : p = m := Except.ok.inj (hp.symm.trans hm)
  have hinterest := Component.outstanding_nonneg hinterest
  have hfee := Component.outstanding_nonneg hfee
  have hpenalty := Component.outstanding_nonneg hpenalty
  have htwo : 0 < two.value := (Money.add_pos_iff htwo).mpr (by linarith)
  have hthree : 0 < three.value := (Money.add_pos_iff hthree).mpr (by linarith)
  have hall : 0 < o.value := (Money.add_pos_iff ho).mpr (by linarith)
  rw [← pure_eq_ok.mp hsettled, Bool.eq_false_iff]
  intro hzero
  have hunits := Money.value_pos_iff.mp hall
  rw [(Money.isZero_iff o).mp hzero] at hunits
  exact lt_irrefl 0 hunits

namespace Arrears

variable {today : Date}

theorem LiveTally.since_include {t u : LiveTally} {i : Installment} (h : t.include i = .ok u)
    (hdue : i.dueDate < today) (ht : OverdueTotals.Since today t.totals t.since) :
    OverdueTotals.Since today u.totals u.since := by
  obtain ⟨m, hm, h⟩ := bind_eq_ok.mp h
  obtain ⟨principal, hadd, h⟩ := bind_eq_ok.mp h
  iterate 6 obtain ⟨_, _, h⟩ := bind_eq_ok.mp h
  obtain ⟨settled, hsettled, h⟩ := bind_eq_ok.mp h
  rw [← pure_eq_ok.mp h]
  refine ht.add hadd hdue fun hpos hlt => ?_
  rw [Installment.isSettled_of_principal hm hpos hsettled]
  exact decide_eq_true hlt

theorem IssuedTally.since_include {t u : IssuedTally} {c : CoveredPeriod} (h : t.include c = .ok u)
    (hdue : c.period.dueDate < today) (ht : OverdueTotals.Since today t.totals t.since) :
    OverdueTotals.Since today u.totals u.since := by
  obtain ⟨m, hm, h⟩ := bind_eq_ok.mp h
  obtain ⟨principal, hadd, h⟩ := bind_eq_ok.mp h
  iterate 6 obtain ⟨_, _, h⟩ := bind_eq_ok.mp h
  rw [← pure_eq_ok.mp h]
  refine ht.add hadd hdue fun hpos hlt => ?_
  have hshort : c.principal < c.period.principal :=
    Money.lt_iff_value.mpr ((Money.monus_pos_iff hm).mp hpos)
  rw [decide_eq_true hlt, decide_eq_true hshort]
  rfl

end Arrears

/-- Repayments are laid over the periods in their order. -/
theorem RepaymentPools.coverAll_periods {pools : RepaymentPools} {periods : List IssuedPeriod}
    {covered : List CoveredPeriod} (h : pools.coverAll periods = .ok covered) :
    covered.map (·.period) = periods := by
  induction periods generalizing pools covered with
  | nil =>
    rw [← Except.ok.inj h]
    rfl
  | cons p periods ih =>
    obtain ⟨⟨c, left⟩, hc, h⟩ := bind_eq_ok.mp h
    obtain ⟨rest, hrest, h⟩ := bind_eq_ok.mp h
    have hperiod : c.period = p := by
      iterate 4 obtain ⟨_, _, hc⟩ := bind_eq_ok.mp hc
      exact congrArg (·.1.period) (pure_eq_ok.mp hc).symm
    rw [← pure_eq_ok.mp h, List.map_cons, hperiod, ih hrest]

theorem Date.minusDays_le {d e : Date} {n : Nat} (h : d.minusDays n = .ok e) : e ≤ d := by
  simp only [minusDays] at h
  split at h
  · next found hfound =>
    rw [← Except.ok.inj h]
    simp only [ofDay?] at hfound
    split at hfound
    · rw [← Option.some.inj hfound]
      show d.day - n ≤ d.day
      omega
    · cases hfound
  · cases h

namespace Loan

variable {loan : Loan} {s : Settings} {today since : Date} {totals : OverdueTotals}

theorem since_overdueLive (h : loan.overdueLive today = .ok (totals, since)) :
    totals.Since today since := by
  obtain ⟨t, ht, h⟩ := bind_eq_ok.mp h
  cases pure_eq_ok.mp h
  refine foldlM_keeps (P := fun t : Arrears.LiveTally => t.totals.Since today t.since)
    (fun i hi t u hkept hstep => ?_) (OverdueTotals.since_none today) ht
  exact Arrears.LiveTally.since_include hstep (of_decide_eq_true (List.mem_filter.mp hi).2) hkept

theorem since_overdueIssued (h : loan.overdueIssued s today = .ok (totals, since)) :
    totals.Since today since := by
  obtain ⟨cutoff, hcutoff, h⟩ := bind_eq_ok.mp h
  split at h
  · cases pure_eq_ok.mp h
    exact OverdueTotals.since_none today
  · obtain ⟨covered, hcovered, h⟩ := bind_eq_ok.mp h
    obtain ⟨t, ht, h⟩ := bind_eq_ok.mp h
    cases pure_eq_ok.mp h
    obtain ⟨pools, -, hcovered⟩ := bind_eq_ok.mp hcovered
    refine foldlM_keeps (P := fun t : Arrears.IssuedTally => t.totals.Since today t.since)
      (fun c hc t u hkept hstep => ?_) (OverdueTotals.since_none today) ht
    have hmem : c.period ∈ loan.issuedBefore cutoff := by
      rw [← RepaymentPools.coverAll_periods hcovered]
      exact List.mem_map_of_mem (List.mem_of_mem_filter hc)
    have hdue : c.period.dueDate < cutoff := of_decide_eq_true (List.mem_filter.mp hmem).2
    exact Arrears.IssuedTally.since_include hstep
      (Int.lt_of_lt_of_le hdue (Date.minusDays_le hcutoff)) hkept

/-- Where any principal is overdue on a loan, it has been so since an earlier date. -/
theorem since_overdue {live : Bool} (h : loan.overdue s today live = .ok (totals, since)) :
    totals.Since today since := by
  simp only [overdue] at h
  split at h
  · exact since_overdueLive h
  · split at h
    · exact since_overdueIssued h
    · exact since_overdueLive h

theorem leaves_freshArrears {live : Bool} {row? : Option Arrears}
    (h : loan.freshArrears s today live = .ok row?) : ∃ totals since,
      loan.overdue s today live = .ok (totals, since) ∧ totals.Leaves loan.id since row? := by
  obtain ⟨⟨totals, since⟩, htotals, h⟩ := bind_eq_ok.mp h
  exact ⟨totals, since, htotals, OverdueTotals.leaves_toArrears h⟩

end Loan
end LoanLedger
