import LoanLedger.Arrears.Issued
import LoanLedger.Arrears.Live
import LoanLedger.Proofs.Arrears.Covering
import LoanLedger.Proofs.Money.Load

/-!
Arrears within capacity. What is outstanding on a component, what repayments pay of a period and
what they leave of the pools have no more load than the amounts they are computed from, whatever
their signs; added up over a schedule they stay within capacity.
-/

set_option autoImplicit false
set_option relaxedAutoImplicit false

namespace LoanLedger

/-- The amounts of a component. -/
def Component.amounts (c : Component) : List Money := [c.due, c.paid, c.waived, c.writtenOff]

/-- The amounts of an installment. -/
def Installment.amounts (i : Installment) : List Money :=
  i.principal.amounts ++ i.interest.amounts ++ i.fee.amounts ++ i.penalty.amounts

/-- The amounts of a covered period: what is due, and what repayments pay of it. -/
def CoveredPeriod.amounts (c : CoveredPeriod) : List Money :=
  c.period.amounts ++ Aspect.amounts c.paid

namespace Aspect

variable {m : Aspect → Money}

/-- A number for every aspect, added up. -/
def total (f : Aspect → ℚ) : ℚ := f .principal + f .interest + f .fee + f .penalty

theorem total_mono {f g : Aspect → ℚ} (h : ∀ k, f k ≤ g k) : total f ≤ total g := by
  have h₁ := h .principal
  have h₂ := h .interest
  have h₃ := h .fee
  have h₄ := h .penalty
  simp only [total]
  linarith

theorem total_add (f g : Aspect → ℚ) : (total fun k => f k + g k) = total f + total g := by
  simp only [total]
  ring

theorem total_mul (q : ℚ) (f : Aspect → ℚ) : (total fun k => q * f k) = q * total f := by
  simp only [total]
  ring

theorem le_total {f : Aspect → ℚ} (h : ∀ k, 0 ≤ f k) (k : Aspect) : f k ≤ total f := by
  have h₁ := h .principal
  have h₂ := h .interest
  have h₃ := h .fee
  have h₄ := h .penalty
  simp only [total]
  cases k <;> linarith

/-- The load of all aspects. -/
def load (m : Aspect → Money) : ℚ := total fun k => (m k).load

theorem load_nonneg (m : Aspect → Money) : 0 ≤ load m :=
  (m .principal).load_nonneg.trans (le_total (fun k => (m k).load_nonneg) .principal)

theorem load_le (m : Aspect → Money) (k : Aspect) : (m k).load ≤ load m :=
  le_total (fun k => (m k).load_nonneg) k

theorem load_le_amounts (m : Aspect → Money) : load m ≤ 10 * totalSize (amounts m) := by
  have hle : load m ≤ total fun k => 10 * |(m k).value| := total_mono fun k => (m k).load_le
  refine hle.trans (le_of_eq ?_)
  rw [total_mul]
  simp only [total, amounts, totalSize_cons, totalSize_nil]
  ring

/-- The amounts of all aspects can be added up, one after the other, within capacity. -/
theorem exists_sum_of_load (h : load m ≤ Money.capacity) :
    ∃ two three all, (m .principal).add (m .interest) = .ok two ∧ two.add (m .fee) = .ok three ∧
      three.add (m .penalty) = .ok all := by
  have h₃ := (m .fee).load_nonneg
  have h₄ := (m .penalty).load_nonneg
  simp only [load, total] at h
  obtain ⟨two, htwo, htwoLoad⟩ :=
    Money.exists_add_of_load (a := m .principal) (b := m .interest) (by linarith)
  obtain ⟨three, hthree, hthreeLoad⟩ :=
    Money.exists_add_of_load (a := two) (b := m .fee) (by linarith)
  obtain ⟨all, hall, -⟩ :=
    Money.exists_add_of_load (a := three) (b := m .penalty) (by linarith)
  exact ⟨two, three, all, htwo, hthree, hall⟩

end Aspect

@[simp] theorem Aspect.load_part_of (m : Aspect → Money) :
    Aspect.load (OverdueTotals.of m).part = Aspect.load m := by
  simp [Aspect.load]

@[simp] theorem Aspect.load_pool_of (m : Aspect → Money) :
    Aspect.load (RepaymentPools.of m).pool = Aspect.load m := by
  simp [Aspect.load]

theorem OverdueTotals.exists_toArrears_of_load {t : OverdueTotals}
    (h : Aspect.load t.part ≤ Money.capacity) (id : LoanId) (since : Date) :
    ∃ r, t.toArrears id since = .ok r := by
  obtain ⟨two, three, all, htwo, hthree, hall⟩ := Aspect.exists_sum_of_load h
  exact ⟨_, toArrears_eq htwo hthree hall id since⟩

private theorem exists_totals_of_load {t : OverdueTotals} {o : Aspect → Money}
    (h : Aspect.load t.part + Aspect.load o ≤ Money.capacity) :
    ∃ m, (∀ k, (t.part k).add (o k) = .ok (m k)) ∧
      Aspect.load m ≤ Aspect.load t.part + Aspect.load o := by
  choose m hm hload using fun k =>
    Money.exists_add_of_load (a := t.part k) (b := o k) (by
      have := Aspect.load_le t.part k
      have := Aspect.load_le o k
      linarith)
  exact ⟨m, hm, (Aspect.total_mono hload).trans (le_of_eq (Aspect.total_add _ _))⟩

/-! Installments. -/

theorem Component.exists_outstanding_of_load {c : Component}
    (h : 10 * totalSize c.amounts ≤ Money.capacity) :
    ∃ o, c.outstanding = .ok o ∧ o.load ≤ 10 * totalSize c.amounts := by
  simp only [amounts, totalSize_cons, totalSize_nil] at h ⊢
  have hdue := c.due.load_le
  have hpaid := c.paid.load_le
  have hwaived := c.waived.load_le
  have hwrittenOff := c.writtenOff.load_le
  have h₁ := c.due.load_nonneg
  have h₂ := c.paid.load_nonneg
  have h₃ := c.waived.load_nonneg
  have h₄ := c.writtenOff.load_nonneg
  obtain ⟨x, hx, hxLoad⟩ :=
    Money.exists_add_of_load (a := c.paid) (b := c.waived) (by linarith)
  obtain ⟨y, hy, hyLoad⟩ :=
    Money.exists_add_of_load (a := x) (b := c.writtenOff) (by linarith)
  obtain ⟨o, ho, hoLoad⟩ :=
    Money.exists_monus_of_load (a := c.due) (b := y) (by linarith)
  exact ⟨o, bind_eq_ok.mpr ⟨x, hx, bind_eq_ok.mpr ⟨y, hy, ho⟩⟩, by linarith⟩

theorem Installment.totalSize_amounts (i : Installment) :
    totalSize i.amounts = Aspect.total fun k => totalSize (i.part k).amounts := by
  simp only [amounts]
  rw [totalSize_append, totalSize_append, totalSize_append]
  rfl

namespace Arrears

/-- An installment within capacity can be added up. -/
private theorem exists_includeInstallment {t : LiveTally} {i : Installment}
    (h : Aspect.load t.totals.part + 10 * totalSize i.amounts ≤ Money.capacity) :
    ∃ u, t.include i = .ok u ∧
      Aspect.load u.totals.part ≤ Aspect.load t.totals.part + 10 * totalSize i.amounts := by
  have hload := Aspect.load_nonneg t.totals.part
  rw [i.totalSize_amounts, ← Aspect.total_mul] at h ⊢
  have hpart : ∀ k, 10 * totalSize (i.part k).amounts ≤
      Aspect.total fun k => 10 * totalSize (i.part k).amounts :=
    Aspect.le_total (f := fun k => 10 * totalSize (i.part k).amounts) fun k => by
      have := totalSize_nonneg (i.part k).amounts
      linarith
  choose o ho hoLoad using fun k =>
    Component.exists_outstanding_of_load (c := i.part k) (by linarith [hpart k])
  have htotal : Aspect.load o ≤ Aspect.total fun k => 10 * totalSize (i.part k).amounts :=
    Aspect.total_mono hoLoad
  obtain ⟨m, hm, hmLoad⟩ := exists_totals_of_load (t := t.totals) (o := o) (by linarith)
  obtain ⟨two, three, all, htwo, hthree, hall⟩ := Aspect.exists_sum_of_load (m := o) (by linarith)
  refine ⟨_, LiveTally.include_eq ho hm (Installment.isSettled_eq ho htwo hthree hall), ?_⟩
  dsimp only
  rw [Aspect.load_part_of]
  linarith

/-- Installments within capacity have their arrears. -/
theorem exists_ofInstallments_of_load (loan : LoanId) {installments : List Installment}
    (today : Date)
    (h : 10 * totalSize (installments.flatMap Installment.amounts) ≤ Money.capacity) :
    ∃ r, ofInstallments loan installments today = .ok r := by
  obtain ⟨overdue, hoverdue⟩ : ∃ overdue, overdue =
      installments.filter fun i => decide (i.dueDate < today) := ⟨_, rfl⟩
  have hsub : (overdue.flatMap Installment.amounts).Sublist
      (installments.flatMap Installment.amounts) := by
    rw [hoverdue]
    exact List.filter_sublist.flatMap _
  have hsize := totalSize_le_of_sublist hsub
  obtain ⟨t, ht, hload⟩ := exists_foldlM
    (P := fun (rest : List Installment) (t : LiveTally) =>
      Aspect.load t.totals.part + 10 * totalSize (rest.flatMap Installment.amounts) ≤
        Money.capacity)
    (f := LiveTally.include) (fun i rest t ht => by
      rw [List.flatMap_cons, totalSize_append] at ht
      have hrest := totalSize_nonneg (rest.flatMap Installment.amounts)
      obtain ⟨u, hu, huLoad⟩ := exists_includeInstallment (t := t) (i := i) (by linarith)
      exact ⟨u, hu, by linarith⟩)
    (l := overdue) (b := ⟨.none, today⟩) (by
      have hnone : Aspect.load OverdueTotals.none.part = 0 := by simp [Aspect.load, Aspect.total]
      dsimp only
      rw [hnone]
      linarith)
  rw [List.flatMap_nil, totalSize_nil, mul_zero, add_zero] at hload
  obtain ⟨r, hr⟩ := t.totals.exists_toArrears_of_load hload loan t.since
  simp only [ofInstallments]
  rw [← hoverdue]
  exact ⟨r, bind_eq_ok.mpr ⟨t, ht, hr⟩⟩

end Arrears

/-! Covered periods. -/

/-- The load of a covered period: of what is due, and of what repayments pay. -/
def CoveredPeriod.load (c : CoveredPeriod) : ℚ := Aspect.load c.period.due + Aspect.load c.paid

theorem CoveredPeriod.load_nonneg (c : CoveredPeriod) : 0 ≤ c.load :=
  add_nonneg (Aspect.load_nonneg _) (Aspect.load_nonneg _)

theorem CoveredPeriod.load_le_amounts (c : CoveredPeriod) : c.load ≤ 10 * totalSize c.amounts := by
  have hdue := Aspect.load_le_amounts c.period.due
  have hpaid := Aspect.load_le_amounts c.paid
  simp only [load, amounts, IssuedPeriod.amounts]
  rw [totalSize_append]
  linarith

namespace Arrears

/-- A covered period within capacity can be added up. -/
private theorem exists_includeCovered {t : IssuedTally} {c : CoveredPeriod}
    (h : Aspect.load t.totals.part + c.load ≤ Money.capacity) :
    ∃ u, t.include c = .ok u ∧
      Aspect.load u.totals.part ≤ Aspect.load t.totals.part + c.load := by
  have hload := Aspect.load_nonneg t.totals.part
  simp only [CoveredPeriod.load] at h ⊢
  choose o ho hoLoad using fun k =>
    Money.exists_monus_of_load (a := c.period.due k) (b := c.paid k) (by
      have := Aspect.load_le c.period.due k
      have := Aspect.load_le c.paid k
      linarith)
  have htotal : Aspect.load o ≤ Aspect.load c.period.due + Aspect.load c.paid :=
    (Aspect.total_mono hoLoad).trans (le_of_eq (Aspect.total_add _ _))
  obtain ⟨m, hm, hmLoad⟩ := exists_totals_of_load (t := t.totals) (o := o) (by linarith)
  refine ⟨_, IssuedTally.include_eq ho hm, ?_⟩
  dsimp only
  rw [Aspect.load_part_of]
  linarith

/-- Covered periods within capacity have their arrears. -/
theorem exists_ofCovered_of_load (loan : LoanId) {periods : List CoveredPeriod} (today : Date)
    (h : (periods.map CoveredPeriod.load).sum ≤ Money.capacity) :
    ∃ r, ofCovered loan periods today = .ok r := by
  obtain ⟨short, hshort⟩ : ∃ short, short = periods.filter fun c => !c.complete := ⟨_, rfl⟩
  have hsize : (short.map CoveredPeriod.load).sum ≤ (periods.map CoveredPeriod.load).sum := by
    rw [hshort]
    refine List.Sublist.sum_le_sum (List.filter_sublist.map _) fun q hq => ?_
    obtain ⟨c, -, rfl⟩ := List.mem_map.mp hq
    exact c.load_nonneg
  obtain ⟨t, ht, hload⟩ := exists_foldlM
    (P := fun (rest : List CoveredPeriod) (t : IssuedTally) =>
      Aspect.load t.totals.part + (rest.map CoveredPeriod.load).sum ≤ Money.capacity)
    (f := IssuedTally.include) (fun c rest t ht => by
      rw [List.map_cons, List.sum_cons] at ht
      have hrest : 0 ≤ (rest.map CoveredPeriod.load).sum :=
        List.sum_nonneg (List.forall_mem_map.mpr fun c _ => c.load_nonneg)
      obtain ⟨u, hu, huLoad⟩ := exists_includeCovered (t := t) (c := c) (by linarith)
      exact ⟨u, hu, by linarith⟩)
    (l := short) (b := ⟨.none, today⟩) (by
      have hnone : Aspect.load OverdueTotals.none.part = 0 := by simp [Aspect.load, Aspect.total]
      dsimp only
      rw [hnone]
      linarith)
  rw [List.map_nil, List.sum_nil, add_zero] at hload
  obtain ⟨r, hr⟩ := t.totals.exists_toArrears_of_load hload loan t.since
  simp only [ofCovered]
  rw [← hshort]
  exact ⟨r, bind_eq_ok.mpr ⟨t, ht, hr⟩⟩

end Arrears

namespace RepaymentPools

/-- What is taken and what stays have the load of the pool, and twice that of what is due. -/
private theorem exists_take_of_load (due pool : Money)
    (h : due.load + pool.load ≤ Money.capacity) :
    ∃ paid left done, take due pool = .ok (paid, left, done) ∧
      paid.load + left.load ≤ pool.load + 2 * due.load := by
  have hdue := due.load_nonneg
  rw [take]
  split
  · refine ⟨_, _, _, rfl, ?_⟩
    rw [Money.load_zero]
    linarith
  · obtain ⟨left, hleft, hload⟩ := Money.exists_sub_of_load (a := pool) (b := due) (by linarith)
    exact ⟨_, _, _, bind_eq_ok.mpr ⟨left, hleft, rfl⟩, by linarith⟩

/-- Repayments within capacity can be laid over a period. -/
private theorem exists_cover_of_load (p : RepaymentPools) (period : IssuedPeriod)
    (h : Aspect.load p.pool + Aspect.load period.due ≤ Money.capacity) :
    ∃ c left, p.cover period = .ok (c, left) ∧
      c.load + Aspect.load left.pool ≤ Aspect.load p.pool + 3 * Aspect.load period.due := by
  choose paid left done htake hload using fun k =>
    exists_take_of_load (period.due k) (p.pool k) (by
      have := Aspect.load_le p.pool k
      have := Aspect.load_le period.due k
      linarith)
  have htotal : Aspect.load paid + Aspect.load left ≤
      Aspect.load p.pool + 2 * Aspect.load period.due := by
    have hsum := Aspect.total_mono hload
    rw [Aspect.total_add, Aspect.total_add, Aspect.total_mul] at hsum
    exact hsum
  refine ⟨.of period paid done, .of left, cover_eq htake, ?_⟩
  have hpaid : Aspect.load (CoveredPeriod.of period paid done).paid = Aspect.load paid := by
    simp [Aspect.load]
  simp only [CoveredPeriod.load, CoveredPeriod.period_of]
  rw [hpaid, Aspect.load_pool_of]
  linarith

/-- Repayments within capacity can be laid over periods. -/
theorem exists_coverAll_of_load {p : RepaymentPools} {periods : List IssuedPeriod}
    (h : Aspect.load p.pool + 3 * (periods.map fun period => Aspect.load period.due).sum ≤
      Money.capacity) :
    ∃ cs, p.coverAll periods = .ok cs ∧ (cs.map CoveredPeriod.load).sum ≤ Aspect.load p.pool +
      3 * (periods.map fun period => Aspect.load period.due).sum := by
  induction periods generalizing p with
  | nil =>
    refine ⟨[], rfl, ?_⟩
    rw [List.map_nil, List.map_nil, List.sum_nil]
    linarith [Aspect.load_nonneg p.pool]
  | cons period periods ih =>
    rw [List.map_cons, List.sum_cons] at h ⊢
    have hdue := Aspect.load_nonneg period.due
    have hrest : 0 ≤ (periods.map fun period => Aspect.load period.due).sum :=
      List.sum_nonneg (List.forall_mem_map.mpr fun period _ => Aspect.load_nonneg period.due)
    obtain ⟨c, left, hcover, hload⟩ := exists_cover_of_load p period (by linarith)
    have hc := c.load_nonneg
    obtain ⟨cs, hcs, hcsLoad⟩ := @ih left (by linarith)
    refine ⟨c :: cs, bind_eq_ok.mpr ⟨_, hcover, bind_eq_ok.mpr ⟨cs, hcs, rfl⟩⟩, ?_⟩
    rw [List.map_cons, List.sum_cons]
    linarith

end RepaymentPools

/-- Repayments and periods that leave room three times over can be laid over each other, and the
covered periods have their arrears. -/
theorem CoveredPeriod.exists_ofRepayments_of_load {periods : List IssuedPeriod}
    {t : RepaymentTotals}
    (h : 30 * totalSize (t.amounts ++ periods.flatMap IssuedPeriod.amounts) ≤ Money.capacity) :
    ∃ cs, ofRepayments periods t = .ok cs ∧
      (cs.map CoveredPeriod.load).sum ≤ Money.capacity := by
  rw [totalSize_append, RepaymentTotals.amounts, totalSize_append] at h
  have hpaid := Aspect.load_le_amounts t.paid
  have hforgiven := Aspect.load_le_amounts t.forgiven
  have hdue : (periods.map fun period => Aspect.load period.due).sum ≤
      10 * totalSize (periods.flatMap IssuedPeriod.amounts) := by
    have hsum : (periods.map fun period => 1 / 10 * Aspect.load period.due).sum ≤
        totalSize (periods.flatMap IssuedPeriod.amounts) :=
      sum_le_totalSize_flatMap fun period _ => by
        have := Aspect.load_le_amounts period.due
        simp only [IssuedPeriod.amounts]
        linarith
    rw [List.sum_map_mul_left] at hsum
    linarith
  have hpaidSize := totalSize_nonneg (Aspect.amounts t.paid)
  have hforgivenSize := totalSize_nonneg (Aspect.amounts t.forgiven)
  have hperiodsSize := totalSize_nonneg (periods.flatMap IssuedPeriod.amounts)
  choose m hm hmLoad using fun k =>
    Money.exists_add_of_load (a := t.paid k) (b := t.forgiven k) (by
      have := Aspect.load_le t.paid k
      have := Aspect.load_le t.forgiven k
      linarith)
  have hpools : Aspect.load m ≤ Aspect.load t.paid + Aspect.load t.forgiven :=
    (Aspect.total_mono hmLoad).trans (le_of_eq (Aspect.total_add _ _))
  have hroom : Aspect.load (RepaymentPools.of m).pool +
      3 * (periods.map fun period => Aspect.load period.due).sum ≤ Money.capacity := by
    rw [Aspect.load_pool_of]
    linarith
  obtain ⟨cs, hcs, hload⟩ := RepaymentPools.exists_coverAll_of_load hroom
  exact ⟨cs, bind_eq_ok.mpr ⟨_, RepaymentPools.ofTotals_eq hm, hcs⟩, hload.trans hroom⟩

end LoanLedger
