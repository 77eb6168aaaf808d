import LoanLedger.Proofs.Arrears.Covering
import LoanLedger.Proofs.Consistency
import LoanLedger.Proofs.Money.Whole

/-!
Repayments laid over periods, oldest first. On every aspect a period takes what is due on it, or what
is left of the pool where that is less. So the periods together take the whole pool or all that is
due, and after a period that is short the later ones take nothing.
-/

set_option autoImplicit false
set_option relaxedAutoImplicit false

namespace LoanLedger

namespace Money

variable {places : Nat} {a b : Money}

theorem Plain.exists_add (ha : a.Plain places) (hb : b.Plain places)
    (h : a.value + b.value < 10 ^ 18) :
    ∃ c, a.add b = .ok c ∧ c.Plain places ∧ c.value = a.value + b.value := by
  obtain ⟨c, hc, -⟩ := ha.add_exact hb
  exact ⟨c, hc, ha.add hb hc h⟩

/-- What is left of an amount from which no more than it is taken, clamped or not. -/
theorem Plain.exists_sub (ha : a.Plain places) (hb : b.Plain places) (h : b.value ≤ a.value) :
    ∃ c, a.sub b = .ok c ∧ a.monus b = .ok c ∧ c.Plain places ∧ c.value = a.value - b.value := by
  obtain ⟨c, hc⟩ := exists_sub_of_nonneg ha.nonneg hb.nonneg
  obtain ⟨hplain, hvalue⟩ := ha.sub hb hc h
  have hclamp : c.clamp = c := by
    rw [clamp, Money.max, if_neg (lt_iff_value.not.mpr ?_)]
    rw [value_zero]
    exact not_lt.mpr hplain.nonneg
  refine ⟨c, hc, ?_, hplain, hvalue⟩
  rw [Money.monus, hc, bind_ok, hclamp]
  rfl

end Money

/-- What is due on an aspect over periods, together. -/
def IssuedPeriod.totalDue (periods : List IssuedPeriod) (k : Aspect) : ℚ :=
  (periods.map fun p => (p.due k).value).sum

@[simp] theorem IssuedPeriod.totalDue_nil (k : Aspect) : totalDue [] k = 0 := rfl

@[simp] theorem IssuedPeriod.totalDue_cons (p : IssuedPeriod) (periods : List IssuedPeriod)
    (k : Aspect) : totalDue (p :: periods) k = (p.due k).value + totalDue periods k :=
  List.sum_cons

/-- What was repaid on an aspect; what was written off or waived counts as paid. -/
def RepaymentTotals.pool (t : RepaymentTotals) (k : Aspect) : ℚ :=
  (t.paid k).value + (t.forgiven k).value

/-- A period over which repayments are laid exactly: they pay no more than what is due, and it is
complete when they pay all of it. -/
structure CoveredPeriod.Exact (c : CoveredPeriod) : Prop where
  due : ∀ k, (c.period.due k).Plain 10
  paid : ∀ k, (c.paid k).Plain 10
  le : ∀ k, (c.paid k).value ≤ (c.period.due k).value
  complete_iff : c.complete = true ↔ ∀ k, (c.paid k).value = (c.period.due k).value

theorem CoveredPeriod.totalDue_nonneg {cs : List CoveredPeriod} (h : ∀ c ∈ cs, c.Exact)
    (k : Aspect) : 0 ≤ IssuedPeriod.totalDue (cs.map (·.period)) k := by
  rw [IssuedPeriod.totalDue, List.map_map]
  exact List.sum_nonneg (List.forall_mem_map.mpr fun c hc => ((h c hc).due k).nonneg)

/-- Periods laid over with the amounts of pools: each takes what is due on it or what is left, and
leaves the rest to the later ones. -/
inductive CoveredPeriod.Laid : (Aspect → ℚ) → List CoveredPeriod → Prop
  | nil {pool : Aspect → ℚ} : Laid pool []
  | cons {pool left : Aspect → ℚ} {c : CoveredPeriod} {cs : List CoveredPeriod} (exact : c.Exact)
      (paid : ∀ k, (c.paid k).value = min (c.period.due k).value (pool k))
      (left_eq : ∀ k, left k = pool k - (c.paid k).value) (rest : Laid left cs) :
      Laid pool (c :: cs)

namespace RepaymentPools

theorem exists_take {due pool : Money} (hdue : due.Plain 10) (hpool : pool.Plain 10) :
    ∃ paid left done, take due pool = .ok (paid, left, done) ∧ paid.Plain 10 ∧ left.Plain 10 ∧
      paid.value = min due.value pool.value ∧ left.value = pool.value - paid.value ∧
      (done = true ↔ paid.value = due.value) := by
  rw [take]
  split
  · next hlt =>
    have hlt := Money.lt_iff_value.mp hlt
    refine ⟨_, _, _, rfl, hpool, Money.plain_zero, (min_eq_right hlt.le).symm, ?_,
      iff_of_false Bool.false_ne_true hlt.ne⟩
    rw [Money.value_zero, sub_self]
  · next hge =>
    rw [Money.lt_iff_value, not_lt] at hge
    obtain ⟨left, hleft, -, hplain, hvalue⟩ := hpool.exists_sub hdue hge
    exact ⟨_, _, _, bind_eq_ok.mpr ⟨left, hleft, rfl⟩, hdue, hplain, (min_eq_left hge).symm,
      hvalue, iff_of_true rfl rfl⟩

/-- In the exact range repayments are laid over periods. -/
theorem exists_laid {pools : RepaymentPools} {periods : List IssuedPeriod}
    (hpools : ∀ k, (pools.pool k).Plain 10) (hdue : ∀ p ∈ periods, ∀ k, (p.due k).Plain 10) :
    ∃ covered, pools.coverAll periods = .ok covered ∧
      CoveredPeriod.Laid (fun k => (pools.pool k).value) covered := by
  induction periods generalizing pools with
  | nil => exact ⟨[], rfl, .nil⟩
  | cons p periods ih =>
    obtain ⟨hp, hdue⟩ := List.forall_mem_cons.mp hdue
    choose paid left done htake hpaid hleft hmin hrest hdone using
      fun k => exists_take (hp k) (hpools k)
    obtain ⟨covered, hcovered, hlaid⟩ := @ih (.of left) (fun k => by simpa using hleft k) hdue
    refine ⟨.of p paid done :: covered, bind_eq_ok.mpr ⟨_, cover_eq htake,
      bind_eq_ok.mpr ⟨_, hcovered, rfl⟩⟩, .cons ⟨hp, ?_, ?_, ?_⟩ ?_ ?_ hlaid⟩
    · simpa using hpaid
    · intro k
      rw [CoveredPeriod.paid_of, hmin k]
      exact min_le_left _ _
    · simpa [CoveredPeriod.complete_of] using forall_congr' hdone
    · simpa using hmin
    · simpa using hrest

end RepaymentPools

namespace CoveredPeriod

variable {pool : Aspect → ℚ} {cs : List CoveredPeriod} {periods : List IssuedPeriod}
  {t : RepaymentTotals}

namespace Laid

theorem exact (h : Laid pool cs) : ∀ c ∈ cs, c.Exact := by
  induction h with
  | nil => exact fun _ hc => (nomatch hc)
  | cons hexact _ _ _ ih => exact List.forall_mem_cons.mpr ⟨hexact, ih⟩

theorem paid_of_empty (h : Laid pool cs) {k : Aspect} (hk : pool k = 0) :
    ∀ c ∈ cs, (c.paid k).value = 0 := by
  induction h with
  | nil => exact fun _ hc => (nomatch hc)
  | @cons pool left c cs hexact hpaid hleft _ ih =>
    have hnothing : (c.paid k).value = 0 := by
      rw [hpaid, hk]
      exact min_eq_right (hexact.due k).nonneg
    exact List.forall_mem_cons.mpr ⟨hnothing, ih (by rw [hleft, hk, hnothing, sub_zero])⟩

/-- The pool is used up, or all is paid that is due. -/
theorem sum_paid (h : Laid pool cs) {k : Aspect} (hk : 0 ≤ pool k) :
    (cs.map fun c => (c.paid k).value).sum =
      min (pool k) (IssuedPeriod.totalDue (cs.map (·.period)) k) := by
  induction h with
  | nil => exact (min_eq_right hk).symm
  | @cons pool left c cs hexact hpaid hleft hrest ih =>
    have hdue := totalDue_nonneg hrest.exact k
    have hleft := hleft k
    rw [List.map_cons, List.sum_cons, List.map_cons, IssuedPeriod.totalDue_cons]
    rcases le_total (c.period.due k).value (pool k) with hle | hle
    · have hfull := (hpaid k).trans (min_eq_left hle)
      rw [hfull] at hleft
      rw [ih (by linarith), hfull, hleft, ← min_add_add_left, add_sub_cancel]
    · have hall := (hpaid k).trans (min_eq_right hle)
      rw [hall, sub_self] at hleft
      rw [ih hleft.ge, hall, hleft, min_eq_left hdue, add_zero, min_eq_left (by linarith)]

/-- After a period that is short nothing is paid. -/
theorem paid_after_short (h : Laid pool cs) (k : Aspect) :
    cs.Pairwise fun c d => (c.paid k).value < (c.period.due k).value → (d.paid k).value = 0 := by
  induction h with
  | nil => exact .nil
  | @cons pool left c cs hexact hpaid hleft hrest ih =>
    refine List.pairwise_cons.mpr ⟨fun d hd hshort => ?_, ih⟩
    have hall : (c.paid k).value = pool k := by
      rw [hpaid] at hshort ⊢
      exact min_eq_right (le_of_not_ge fun hge => hshort.ne (min_eq_left hge))
    exact hrest.paid_of_empty (by rw [hleft, hall, sub_self]) d hd

/-- Where more is due than the pool holds, some period is the first to be short: the pool reaches
what is due before it, and not what is due with it. -/
theorem exists_first_short (h : Laid pool cs) {k : Aspect} (hk : 0 ≤ pool k)
    (hlt : pool k < IssuedPeriod.totalDue (cs.map (·.period)) k) :
    ∃ before c after, cs = before ++ c :: after ∧
      (∀ b ∈ before, (b.paid k).value = (b.period.due k).value) ∧
      (c.paid k).value < (c.period.due k).value ∧
      IssuedPeriod.totalDue (before.map (·.period)) k ≤ pool k ∧
      pool k < IssuedPeriod.totalDue (before.map (·.period)) k + (c.period.due k).value := by
  induction h with
  | nil => exact absurd hlt (not_lt.mpr hk)
  | @cons pool left c cs hexact hpaid hleft hrest ih =>
    rw [List.map_cons, IssuedPeriod.totalDue_cons] at hlt
    by_cases hshort : pool k < (c.period.due k).value
    · refine ⟨[], c, cs, rfl, fun _ hb => (nomatch hb), ?_, hk, ?_⟩
      · rw [hpaid, min_eq_right hshort.le]
        exact hshort
      · rw [List.map_nil, IssuedPeriod.totalDue_nil, zero_add]
        exact hshort
    · have hfull := (hpaid k).trans (min_eq_left (not_lt.mp hshort))
      have hleft := hleft k
      rw [hfull] at hleft
      obtain ⟨before, d, after, hsplit, hbefore, hd, hle, hlt'⟩ :=
        ih (by linarith) (by linarith)
      refine ⟨c :: before, d, after, by rw [hsplit, List.cons_append],
        List.forall_mem_cons.mpr ⟨hfull, hbefore⟩, hd, ?_, ?_⟩
      · rw [List.map_cons, IssuedPeriod.totalDue_cons]
        linarith
      · rw [List.map_cons, IssuedPeriod.totalDue_cons]
        linarith

end Laid

/-- In the exact range the repayments of a loan are laid over periods. -/
theorem exists_laid
    (hamounts : ∀ a ∈ t.amounts ++ periods.flatMap IssuedPeriod.amounts, a.Fine ∧ 0 ≤ a.value)
    (hsize : totalSize (t.amounts ++ periods.flatMap IssuedPeriod.amounts) < 10 ^ 18) :
    ∃ covered, ofRepayments periods t = .ok covered ∧ covered.map (·.period) = periods ∧
      Laid t.pool covered := by
  have hplain : ∀ a ∈ t.amounts ++ periods.flatMap IssuedPeriod.amounts, a.Plain 10 := by
    intro a ha
    obtain ⟨hfine, hnonneg⟩ := hamounts a ha
    have hle := abs_le_totalSize ha
    rw [abs_of_nonneg hnonneg] at hle
    exact hfine.plain hnonneg (hle.trans_lt hsize)
  obtain ⟨htotals, hperiods⟩ := List.forall_mem_append.mp hplain
  rw [totalSize_append, RepaymentTotals.amounts, totalSize_append] at hsize
  have hperiodsSize := totalSize_nonneg (periods.flatMap IssuedPeriod.amounts)
  have hpools : ∀ k, ∃ m, (t.paid k).add (t.forgiven k) = .ok m ∧ m.Plain 10 ∧
      m.value = t.pool k := by
    intro k
    have hpaid := Aspect.mem_amounts t.paid k
    have hforgiven := Aspect.mem_amounts t.forgiven k
    have hpaidLe := (le_abs_self _).trans (abs_le_totalSize hpaid)
    have hforgivenLe := (le_abs_self _).trans (abs_le_totalSize hforgiven)
    exact (htotals _ (List.mem_append_left _ hpaid)).exists_add
      (htotals _ (List.mem_append_right _ hforgiven)) (by linarith)
  choose m hm hm' hvalue using hpools
  obtain ⟨covered, hcovered, hlaid⟩ := @RepaymentPools.exists_laid (.of m) periods
    (fun k => by rw [RepaymentPools.pool_of]; exact hm' k) fun p hp k =>
      hperiods _ (List.mem_flatMap.mpr ⟨p, hp, Aspect.mem_amounts p.due k⟩)
  refine ⟨covered, bind_eq_ok.mpr ⟨_, RepaymentPools.ofTotals_eq hm, hcovered⟩,
    RepaymentPools.coverAll_periods hcovered, ?_⟩
  simpa [hvalue] using hlaid

theorem pool_nonneg (h : ∀ a ∈ t.amounts, 0 ≤ a.value) (k : Aspect) : 0 ≤ t.pool k :=
  add_nonneg (h _ (List.mem_append_left _ (Aspect.mem_amounts t.paid k)))
    (h _ (List.mem_append_right _ (Aspect.mem_amounts t.forgiven k)))

/-- Repayments laid over periods, oldest first and every aspect on its own: one covered period for
each period, in their order; all of a pool is used up, or all that is due is paid; after a period
that is short nothing is paid on that aspect; and a period is complete when nothing of it is short. -/
structure OldestFirst (t : RepaymentTotals) (periods : List IssuedPeriod)
    (covered : List CoveredPeriod) : Prop where
  map_period : covered.map (·.period) = periods
  nonneg : ∀ c ∈ covered, ∀ k, 0 ≤ (c.paid k).value
  le : ∀ c ∈ covered, ∀ k, (c.paid k).value ≤ (c.period.due k).value
  sum : ∀ k, (covered.map fun c => (c.paid k).value).sum =
    min (t.pool k) (IssuedPeriod.totalDue periods k)
  after_short : ∀ k, covered.Pairwise fun c d =>
    (c.paid k).value < (c.period.due k).value → (d.paid k).value = 0
  complete_iff : ∀ c ∈ covered,
    c.complete = true ↔ ∀ k, (c.paid k).value = (c.period.due k).value

/-- In the exact range repayments are laid over any periods, oldest first. -/
theorem ofRepayments_oldestFirst
    (hamounts : ∀ a ∈ t.amounts ++ periods.flatMap IssuedPeriod.amounts, a.Fine ∧ 0 ≤ a.value)
    (hsize : totalSize (t.amounts ++ periods.flatMap IssuedPeriod.amounts) < 10 ^ 18) :
    ∃ covered, ofRepayments periods t = .ok covered ∧ OldestFirst t periods covered := by
  obtain ⟨covered, hcovered, hperiods, hlaid⟩ := exists_laid hamounts hsize
  have hpool := pool_nonneg fun a ha => (hamounts a (List.mem_append_left _ ha)).2
  have hexact := hlaid.exact
  exact ⟨covered, hcovered, {
    map_period := hperiods
    nonneg := fun c hc k => ((hexact c hc).paid k).nonneg
    le := fun c hc => (hexact c hc).le
    sum := fun k => by rw [hlaid.sum_paid (hpool k), hperiods]
    after_short := hlaid.paid_after_short
    complete_iff := fun c hc => (hexact c hc).complete_iff }⟩

end CoveredPeriod

/-! Three periods, of which repayments reach the first and a part of the second. -/

/-- 90.00 principal and 9.00 interest each, with 1.00 of fees on the first and the last and a penalty of
7.00 on the second. -/
def springPeriods : List IssuedPeriod :=
  [⟨1, januaryRow.dueDate, cents 9000, cents 900, cents 100, .zero⟩,
    ⟨1, midFebruary, cents 9000, cents 900, .zero, cents 700⟩,
    ⟨1, firstOfMarch, cents 9000, cents 900, cents 100, .zero⟩]

/-- 95.00 principal and 22.00 interest were repaid, 41.00 principal was written off, and 1.00 of fees
was waived. -/
def partlyRepaid : RepaymentTotals :=
  { RepaymentTotals.none 1 with
    principalPaid := cents 9500
    principalWrittenOff := cents 4100
    interestPaid := cents 2200
    feeWaived := cents 100 }

theorem ofRepayments_oldestFirst_spring : ∃ covered,
    CoveredPeriod.ofRepayments springPeriods partlyRepaid = .ok covered ∧
    CoveredPeriod.OldestFirst partlyRepaid springPeriods covered ∧
    covered.map (·.principal) = [cents 9000, cents 4600, .zero] ∧
    covered.map (·.interest) = [cents 900, cents 900, cents 400] ∧
    covered.map (·.complete) = [true, false, false] := by
  obtain ⟨covered, hcovered, holdest⟩ := @CoveredPeriod.ofRepayments_oldestFirst springPeriods
    partlyRepaid (fun a ha => ⟨by revert a; unfold Money.Fine; decide +kernel,
      Money.value_nonneg_iff.mpr (by revert a; decide +kernel)⟩) (by decide +kernel)
  obtain ⟨c, hc, hprincipal, hinterest, hcomplete⟩ : ∃ c,
      CoveredPeriod.ofRepayments springPeriods partlyRepaid = .ok c ∧
      c.map (·.principal) = [cents 9000, cents 4600, .zero] ∧
      c.map (·.interest) = [cents 900, cents 900, cents 400] ∧
      c.map (·.complete) = [true, false, false] := ⟨_, rfl, rfl, rfl, rfl⟩
  obtain rfl := Except.ok.inj (hc.symm.trans hcovered)
  exact ⟨c, hc, holdest, hprincipal, hinterest, hcomplete⟩

end LoanLedger
