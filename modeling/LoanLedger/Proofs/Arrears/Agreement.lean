import LoanLedger.Proofs.Arrears.Outstanding
import LoanLedger.Proofs.Arrears.Overlay

/-!
Arrears by the issued schedule against arrears by a live one that shows the same. In the exact range
both come to the same amounts. They need not come to the same date: by the live schedule something
has been overdue since the earliest period that lacks anything, by the issued schedule since the
earliest one that lacks principal.
-/

set_option autoImplicit false
set_option relaxedAutoImplicit false

namespace LoanLedger

namespace Date

variable {start d e : Date} {dates later : List Date}

/-- Among fewer dates, all before the one to start with, the earliest is the same exactly when none of
the others is earlier than all of them. -/
theorem Earliest.eq_iff (hd : Earliest start dates d) (he : Earliest start later e)
    (h : later ⊆ dates) (hsome : ∃ f ∈ later, f < start) :
    d = e ↔ ∀ f ∈ dates, ∃ g ∈ later, g ≤ f := by
  constructor
  · rintro rfl f hf
    obtain ⟨g, hg, hlt⟩ := hsome
    rcases List.mem_cons.mp he.mem with rfl | hmem
    · exact absurd (he.le g (List.mem_cons_of_mem _ hg)) (Int.not_le.mpr hlt)
    · exact ⟨d, hmem, hd.le f (List.mem_cons_of_mem _ hf)⟩
  · intro hnone
    have hle := hd.le_of_subset he h
    have hge : e ≤ d := by
      rcases List.mem_cons.mp hd.mem with rfl | hmem
      · exact he.le _ List.mem_cons_self
      · obtain ⟨g, hg, hgd⟩ := hnone d hmem
        exact Int.le_trans (he.le g (List.mem_cons_of_mem _ hg)) hgd
    exact Date.ext_day (Int.le_antisymm hle hge)

end Date

/-- What a period lacks on an aspect. -/
def CoveredPeriod.short (c : CoveredPeriod) (k : Aspect) : ℚ :=
  (c.period.due k).value - (c.paid k).value

/-- Whether a period lacks principal. -/
def CoveredPeriod.lacksPrincipal (c : CoveredPeriod) : Bool := c.principal < c.period.principal

/-- An installment that shows a period: what is due, what the repayments pay of it, and nothing waived
or written off. -/
structure CoveredPeriod.ReadAs (c : CoveredPeriod) (i : Installment) : Prop where
  dueDate : i.dueDate = c.period.dueDate
  part : ∀ k, i.part k = ⟨c.period.due k, c.paid k, .zero, .zero⟩

namespace RepaymentPools

theorem exists_coverAll {pools : RepaymentPools} {periods : List IssuedPeriod}
    (hpools : ∀ k, (pools.pool k).Plain 10) (hdue : ∀ p ∈ periods, ∀ k, (p.due k).Plain 10) :
    ∃ covered, pools.coverAll periods = .ok covered ∧ ∀ c ∈ covered, c.Exact := by
  obtain ⟨covered, hcovered, hlaid⟩ := exists_laid hpools hdue
  exact ⟨covered, hcovered, hlaid.exact⟩

end RepaymentPools

namespace CoveredPeriod.Exact

variable {c : CoveredPeriod}

theorem short_nonneg (h : c.Exact) (k : Aspect) : 0 ≤ c.short k := sub_nonneg.mpr (h.le k)

theorem short_eq_zero (h : c.Exact) (hcomplete : c.complete = true) (k : Aspect) :
    c.short k = 0 := by
  rw [short, h.complete_iff.mp hcomplete k, sub_self]

theorem incomplete_of_lacksPrincipal (h : c.Exact) (hlacks : c.lacksPrincipal = true) :
    c.complete = false := by
  rw [Bool.eq_false_iff]
  intro hcomplete
  have hlt := Money.lt_iff_value.mp (of_decide_eq_true hlacks)
  exact hlt.ne (h.complete_iff.mp hcomplete .principal)

theorem exists_monus (h : c.Exact) (k : Aspect) :
    ∃ o, (c.period.due k).monus (c.paid k) = .ok o ∧ o.Plain 10 ∧ o.value = c.short k := by
  obtain ⟨o, -, ho, hplain, hvalue⟩ := (h.due k).exists_sub (h.paid k) (h.le k)
  exact ⟨o, ho, hplain, hvalue⟩

theorem shortfall_eq (h : c.Exact) {i : Installment} (hi : c.ReadAs i) (k : Aspect) :
    i.shortfall k = c.short k := by
  have hvalue : i.shortfall k = max 0 ((c.period.due k).value - (c.paid k).value - 0 - 0) := by
    rw [Installment.shortfall, hi.part k, Component.shortfall, Money.value_zero]
  rw [hvalue, sub_zero, sub_zero]
  exact max_eq_right (h.short_nonneg k)

theorem installment (h : c.Exact) {i : Installment} (hi : c.ReadAs i) : i.Exact := by
  refine .of_outstanding fun k => ?_
  have hsmall : (c.paid k).value + 0 < 10 ^ 18 := by rw [add_zero]; exact (h.paid k).small
  obtain ⟨paid, hpaid, hplain, hvalue⟩ := (h.paid k).exists_add Money.plain_zero
    (by rwa [Money.value_zero])
  rw [Money.value_zero, add_zero] at hvalue
  obtain ⟨settled, hsettled, hplain', hvalue'⟩ := hplain.exists_add Money.plain_zero
    (by rw [hvalue, Money.value_zero]; exact hsmall)
  rw [Money.value_zero, add_zero, hvalue] at hvalue'
  obtain ⟨o, -, ho, ho', hshort⟩ := (h.due k).exists_sub hplain' (hvalue' ▸ h.le k)
  rw [hi.part k]
  exact ⟨o, bind_eq_ok.mpr ⟨_, hpaid, bind_eq_ok.mpr ⟨_, hsettled, ho⟩⟩, ho',
    by rw [hshort, hvalue', h.shortfall_eq hi, short]⟩

theorem short_iff (h : c.Exact) {i : Installment} (hi : c.ReadAs i) :
    i.Short ↔ c.complete = false := by
  rw [← Bool.not_eq_true, h.complete_iff, not_forall]
  refine exists_congr fun k => ?_
  rw [h.shortfall_eq hi, short, sub_pos]
  exact ⟨fun hlt => hlt.ne, (h.le k).lt_of_ne⟩

end CoveredPeriod.Exact

namespace Arrears

/-- What periods lack on an aspect, together. -/
def shortage (cs : List CoveredPeriod) (k : Aspect) : ℚ := (cs.map fun c => c.short k).sum

theorem shortage_cons (c : CoveredPeriod) (cs : List CoveredPeriod) (k : Aspect) :
    shortage (c :: cs) k = c.short k + shortage cs k := List.sum_cons

theorem shortage_nonneg {cs : List CoveredPeriod} (h : ∀ c ∈ cs, c.Exact) (k : Aspect) :
    0 ≤ shortage cs k :=
  List.sum_nonneg (List.forall_mem_map.mpr fun c hc => (h c hc).short_nonneg k)

/-- One more period is added to totals. -/
theorem Shows.exists_add {t : OverdueTotals} {v : Aspect → ℚ} (ht : Shows t v)
    {c : CoveredPeriod} {cs : List CoveredPeriod} (hexact : ∀ d ∈ c :: cs, d.Exact)
    (hroom : ∀ k, v k + shortage (c :: cs) k < 10 ^ 18) {o : Aspect → Money}
    (ho : ∀ k, (o k).Plain 10 ∧ (o k).value = c.short k) :
    ∃ m : Aspect → Money, (∀ k, (t.part k).add (o k) = .ok (m k)) ∧
      Shows (.of m) fun k => v k + c.short k := by
  have hstep : ∀ k, ∃ m, (t.part k).add (o k) = .ok m ∧ m.Plain 10 ∧ m.value = v k + c.short k := by
    intro k
    have hrest := shortage_nonneg (fun d hd => hexact d (List.mem_cons_of_mem _ hd)) k
    have hroom := hroom k
    rw [shortage_cons] at hroom
    obtain ⟨m, hm, hplain, hvalue⟩ := (ht k).1.exists_add (ho k).1
      (by rw [(ht k).2, (ho k).2]; linarith)
    exact ⟨m, hm, hplain, by rw [hvalue, (ht k).2, (ho k).2]⟩
  choose m hm hplain hvalue using hstep
  exact ⟨m, hm, fun k => by rw [OverdueTotals.part_of]; exact ⟨hplain k, hvalue k⟩⟩

/-- Over covered periods the totals grow by what these lack, and the date is that of the earliest one
that lacks principal. -/
theorem exists_foldlM_issued {cs : List CoveredPeriod} (hexact : ∀ c ∈ cs, c.Exact)
    {t : IssuedTally} {v : Aspect → ℚ} (ht : Shows t.totals v)
    (hroom : ∀ k, v k + shortage cs k < 10 ^ 18) :
    ∃ u, (cs.filter fun c => !c.complete).foldlM IssuedTally.include t = .ok u ∧
      Shows u.totals (fun k => v k + shortage cs k) ∧
      Date.Earliest t.since ((cs.filter (·.lacksPrincipal)).map (·.period.dueDate)) u.since := by
  induction cs generalizing t v with
  | nil => exact ⟨t, rfl, by simpa [shortage] using ht, Date.earliest_nil _⟩
  | cons c cs ih =>
    obtain ⟨hc, hcs⟩ := List.forall_mem_cons.mp hexact
    have hroom' := fun k => (shortage_cons c cs k) ▸ hroom k
    simp only [shortage_cons, ← add_assoc] at hroom' ⊢
    by_cases hcomplete : c.complete = true
    · -- it lacks nothing, and is not looked at
      have hlacks : ¬c.lacksPrincipal = true := fun hlacks =>
        Bool.false_ne_true ((hc.incomplete_of_lacksPrincipal hlacks).symm.trans hcomplete)
      rw [List.filter_cons_of_neg (by simpa using hcomplete), List.filter_cons_of_neg hlacks]
      simp only [hc.short_eq_zero hcomplete, add_zero] at hroom' ⊢
      exact ih hcs ht hroom'
    · rw [List.filter_cons_of_pos (by simpa using hcomplete), List.foldlM_cons]
      choose o ho hplain hvalue using hc.exists_monus
      obtain ⟨m, hm, hshows⟩ := ht.exists_add hexact hroom fun k => ⟨hplain k, hvalue k⟩
      rw [IssuedTally.include_eq ho hm, bind_ok]
      obtain ⟨u, hu, hshows', hsince⟩ := @ih hcs ⟨.of m, _⟩ _ hshows hroom'
      refine ⟨u, hu, hshows', ?_⟩
      change Date.Earliest (if (decide (c.period.dueDate < t.since) && c.lacksPrincipal) = true
        then _ else _) _ _ at hsince
      by_cases hlacks : c.lacksPrincipal = true
      · rw [List.filter_cons_of_pos hlacks, List.map_cons]
        refine Date.Earliest.cons ?_
        simpa only [hlacks, Bool.and_true, decide_eq_true_eq] using hsince
      · rw [List.filter_cons_of_neg hlacks]
        simpa only [Bool.eq_false_iff.mpr hlacks, Bool.and_false, Bool.false_eq_true, if_false]
          using hsince

/-- Installments that show covered periods are short of what these lack, and the same of them are
short of anything. -/
theorem readAs_all {cs : List CoveredPeriod} (hexact : ∀ c ∈ cs, c.Exact) {is : List Installment}
    (hread : List.Forall₂ CoveredPeriod.ReadAs cs is) :
    (∀ i ∈ is, i.Exact) ∧ (∀ k, shortfalls is k = shortage cs k) ∧
      (is.filter (·.Short)).map (·.dueDate) =
        (cs.filter fun c => !c.complete).map (·.period.dueDate) := by
  induction hread with
  | nil => exact ⟨List.forall_mem_nil _, fun _ => rfl, rfl⟩
  | @cons c i cs is hi _ ih =>
    obtain ⟨hc, hcs⟩ := List.forall_mem_cons.mp hexact
    obtain ⟨his, hsum, hdates⟩ := ih hcs
    refine ⟨List.forall_mem_cons.mpr ⟨hc.installment hi, his⟩, fun k => ?_, ?_⟩
    · rw [shortfalls_cons, shortage_cons, hc.shortfall_eq hi, hsum]
    · have hshort := hc.short_iff hi
      cases hcomplete : c.complete with
      | true => simpa [hcomplete, hshort] using hdates
      | false => simpa [hcomplete, hshort, hi.dueDate] using hdates

/-- Two rows that show the same amounts. -/
structure SameAmounts (a b : Arrears) : Prop where
  loanId : a.loanId = b.loanId
  components : a.components.map Money.value = b.components.map Money.value
  total : a.total.value = b.total.value

theorem shortage_le {cs : List CoveredPeriod} (h : ∀ c ∈ cs, c.Exact) (k : Aspect) :
    shortage cs k ≤ totalSize ((cs.map (·.period)).flatMap IssuedPeriod.amounts) := by
  rw [List.flatMap_map]
  refine sum_le_totalSize_flatMap fun c hc => ?_
  have hdue := abs_le_totalSize (Aspect.mem_amounts c.period.due k)
  have hpaid := ((h c hc).paid k).nonneg
  rw [abs_of_nonneg ((h c hc).due k).nonneg] at hdue
  rw [CoveredPeriod.short]
  exact (sub_le_self _ hpaid).trans hdue

/-- Where some principal is lacking, the earliest incomplete period and the earliest one that lacks
principal are of the same date exactly when no incomplete one was due before all that lack principal. -/
theorem since_eq_iff {cs : List CoveredPeriod} (hexact : ∀ c ∈ cs, c.Exact) {today d e : Date}
    (hdue : ∀ c ∈ cs, c.period.dueDate < today) (hpos : 0 < shortage cs .principal)
    (hd : today.Earliest ((cs.filter fun c => !c.complete).map (·.period.dueDate)) d)
    (he : today.Earliest ((cs.filter (·.lacksPrincipal)).map (·.period.dueDate)) e) :
    d ≤ e ∧ (d = e ↔ ∀ c ∈ cs, c.complete = false →
      ∃ l ∈ cs, l.lacksPrincipal = true ∧ l.period.dueDate ≤ c.period.dueDate) := by
  have hsubset : (cs.filter (·.lacksPrincipal)).map (·.period.dueDate) ⊆
      (cs.filter fun c => !c.complete).map (·.period.dueDate) := by
    refine List.map_subset _ fun c hc => ?_
    obtain ⟨hmem, hlacks⟩ := List.mem_filter.mp hc
    refine List.mem_filter.mpr ⟨hmem, ?_⟩
    rw [(hexact c hmem).incomplete_of_lacksPrincipal hlacks]
    rfl
  have hlacking : ∃ f ∈ (cs.filter (·.lacksPrincipal)).map (·.period.dueDate), f < today := by
    obtain ⟨l, hl, hshort⟩ := List.exists_lt_of_sum_lt (l := cs) (fun _ => 0)
      (fun c => c.short .principal) (by simpa [shortage] using hpos)
    have hlacks : l.lacksPrincipal = true :=
      decide_eq_true (Money.lt_iff_value.mpr (sub_pos.mp hshort))
    exact ⟨_, List.mem_map_of_mem (List.mem_filter.mpr ⟨hl, hlacks⟩), hdue l hl⟩
  refine ⟨hd.le_of_subset he hsubset, ?_⟩
  rw [hd.eq_iff he hsubset hlacking]
  constructor
  · intro h c hc hincomplete
    have hmem : c ∈ cs.filter fun c => !c.complete :=
      List.mem_filter.mpr ⟨hc, by rw [hincomplete]; rfl⟩
    obtain ⟨f, hf, hle⟩ := h _ (List.mem_map_of_mem hmem)
    obtain ⟨l, hl, rfl⟩ := List.mem_map.mp hf
    exact ⟨l, (List.mem_filter.mp hl).1, (List.mem_filter.mp hl).2, hle⟩
  · intro h
    refine List.forall_mem_map.mpr fun c hc => ?_
    obtain ⟨hmem, hincomplete⟩ := List.mem_filter.mp hc
    obtain ⟨l, hl, hlacks, hle⟩ := h c hmem (by simpa using hincomplete)
    exact ⟨_, List.mem_map_of_mem (List.mem_filter.mpr ⟨hl, hlacks⟩), hle⟩

/-- What periods lack in the exact range comes to the same by the issued schedule and by a live
schedule that shows these periods. -/
theorem ofInstallments_exact (loan : LoanId) {today : Date} {covered : List CoveredPeriod}
    (hexact : ∀ c ∈ covered, c.Exact) (hdue : ∀ c ∈ covered, c.period.dueDate < today)
    (hsmall : ∀ k, shortage covered k < 10 ^ 18) {installments : List Installment}
    (hread : List.Forall₂ CoveredPeriod.ReadAs covered installments) :
    ∃ live? issued?, ofInstallments loan installments today = .ok live? ∧
      ofCovered loan covered today = .ok issued? ∧ live?.isSome = issued?.isSome ∧
      ∀ a ∈ live?, ∀ b ∈ issued?, SameAmounts a b ∧ a.since ≤ b.since ∧
        (a.since = b.since ↔ ∀ c ∈ covered, c.complete = false →
          ∃ d ∈ covered, d.lacksPrincipal = true ∧ d.period.dueDate ≤ c.period.dueDate) := by
  have hroom : ∀ k, 0 + shortage covered k < 10 ^ 18 := fun k => by rw [zero_add]; exact hsmall k
  obtain ⟨hexact', hsum, hdates⟩ := readAs_all hexact hread
  obtain ⟨t, ht, hshows, hlive, -⟩ := exists_live hexact' today fun k => hsum k ▸ hsmall k
  rw [hdates] at hlive
  obtain ⟨u, hu, hshows', hissued⟩ :=
    @exists_foldlM_issued _ hexact ⟨.none, today⟩ _ Shows.none hroom
  simp only [zero_add] at hshows'
  rw [funext hsum] at hshows
  obtain ⟨live?, hrow, hsome, hlook⟩ := exists_row hshows loan t.since
  obtain ⟨issued?, hrow', hsome', hlook'⟩ := exists_row hshows' loan u.since
  have hall : installments.filter (fun i => i.dueDate < today) = installments := by
    refine List.filter_eq_self.mpr fun i hi => ?_
    obtain ⟨c, hc, hci⟩ := exists_mem_of_forall₂ (R := fun i c => CoveredPeriod.ReadAs c i)
      hread.flip hi
    rw [hci.dueDate]
    exact decide_eq_true (hdue c hc)
  refine ⟨live?, issued?, ?_, bind_eq_ok.mpr ⟨u, hu, hrow'⟩, ?_, fun a ha b hb => ?_⟩
  · rw [ofInstallments, hall]
    exact bind_eq_ok.mpr ⟨t, ht, hrow⟩
  · rw [Bool.eq_iff_iff, hsome, hsome']
  · obtain ⟨hloan, hsince, hcomponents, htotal⟩ := hlook a ha
    obtain ⟨hloan', hsince', hcomponents', htotal'⟩ := hlook' b hb
    refine ⟨⟨hloan.trans hloan'.symm, hcomponents.trans hcomponents'.symm,
      htotal.trans htotal'.symm⟩, ?_⟩
    rw [hsince, hsince']
    refine since_eq_iff hexact hdue (hsome.mp ?_) hlive hissued
    rw [Option.mem_def.mp ha]
    rfl

/-- In the exact range repayments can be laid over periods that are due, and what they leave is the
same by the issued schedule and by a live schedule that shows the covered periods: there is a row by
the one exactly when there is by the other, and both rows show the same amounts. The live row is no
younger; both are of the same date exactly when no incomplete period was due before all those that
lack principal. -/
theorem ofInstallments_covered (loan : LoanId) {today : Date} {periods : List IssuedPeriod}
    {t : RepaymentTotals} (hdue : ∀ p ∈ periods, p.dueDate < today)
    (hamounts : ∀ a ∈ t.amounts ++ periods.flatMap IssuedPeriod.amounts, a.Fine ∧ 0 ≤ a.value)
    (hsize : totalSize (t.amounts ++ periods.flatMap IssuedPeriod.amounts) < 10 ^ 18) :
    ∃ covered, CoveredPeriod.ofRepayments periods t = .ok covered ∧
      ∀ installments, List.Forall₂ CoveredPeriod.ReadAs covered installments →
        ∃ live? issued?, ofInstallments loan installments today = .ok live? ∧
          ofCovered loan covered today = .ok issued? ∧ live?.isSome = issued?.isSome ∧
          ∀ a ∈ live?, ∀ b ∈ issued?, SameAmounts a b ∧ a.since ≤ b.since ∧
            (a.since = b.since ↔ ∀ c ∈ covered, c.complete = false →
              ∃ d ∈ covered, d.lacksPrincipal = true ∧ d.period.dueDate ≤ c.period.dueDate) := by
  have hplain : ∀ a ∈ t.amounts ++ periods.flatMap IssuedPeriod.amounts, a.Plain 10 := by
    intro a ha
    obtain ⟨hfine, hnonneg⟩ := hamounts a ha
    have hle := abs_le_totalSize ha
    rw [abs_of_nonneg hnonneg] at hle
    exact hfine.plain hnonneg (hle.trans_lt hsize)
  obtain ⟨htotals, hperiods⟩ := List.forall_mem_append.mp hplain
  obtain ⟨hpaid, hforgiven⟩ := List.forall_mem_append.mp htotals
  rw [totalSize_append, RepaymentTotals.amounts, totalSize_append] at hsize
  have hperiodsSize := totalSize_nonneg (periods.flatMap IssuedPeriod.amounts)
  have hpools : ∀ k, ∃ m, (t.paid k).add (t.forgiven k) = .ok m ∧ m.Plain 10 := by
    intro k
    have hp := hpaid _ (Aspect.mem_amounts t.paid k)
    have hf := hforgiven _ (Aspect.mem_amounts t.forgiven k)
    have hple := abs_le_totalSize (Aspect.mem_amounts t.paid k)
    have hfle := abs_le_totalSize (Aspect.mem_amounts t.forgiven k)
    rw [abs_of_nonneg hp.nonneg] at hple
    rw [abs_of_nonneg hf.nonneg] at hfle
    obtain ⟨m, hm, hm', -⟩ := hp.exists_add hf (by linarith)
    exact ⟨m, hm, hm'⟩
  choose m hm hm' using hpools
  obtain ⟨covered, hcovered, hexact⟩ := @RepaymentPools.exists_coverAll (.of m) periods
    (fun k => by rw [RepaymentPools.pool_of]; exact hm' k) fun p hp k =>
      hperiods _ (List.mem_flatMap.mpr ⟨p, hp, Aspect.mem_amounts p.due k⟩)
  have hread := RepaymentPools.coverAll_periods hcovered
  refine ⟨covered, bind_eq_ok.mpr ⟨_, RepaymentPools.ofTotals_eq hm, hcovered⟩,
    fun installments hinstallments => ofInstallments_exact loan hexact (fun c hc => ?_)
      (fun k => ?_) hinstallments⟩
  · exact hdue _ (hread ▸ List.mem_map_of_mem hc)
  · have hle := shortage_le hexact k
    rw [hread] at hle
    have hpaidSize := totalSize_nonneg (Aspect.amounts t.paid)
    have hforgivenSize := totalSize_nonneg (Aspect.amounts t.forgiven)
    linarith

end Arrears

/-! Two periods, of which the principal of the first was repaid and its interest was not. -/

/-- An installment that shows a period. -/
def CoveredPeriod.asInstallment (c : CoveredPeriod) : Installment where
  number := 1
  fromDate := c.period.dueDate
  dueDate := c.period.dueDate
  principal := ⟨c.period.principal, c.principal, .zero, .zero⟩
  interest := ⟨c.period.interest, c.interest, .zero, .zero⟩
  fee := ⟨c.period.fee, c.fee, .zero, .zero⟩
  penalty := ⟨c.period.penalty, c.penalty, .zero, .zero⟩

theorem CoveredPeriod.readAs_asInstallment (c : CoveredPeriod) : c.ReadAs c.asInstallment where
  dueDate := rfl
  part k := by cases k <;> rfl

/-- 100.00 principal and 10.00 interest that fell due on 2024-01-31 and again on 2024-02-15. -/
def winterPeriods : List IssuedPeriod :=
  [⟨1, januaryRow.dueDate, cents (100 * 100), cents (10 * 100), .zero, .zero⟩,
    ⟨1, midFebruary, cents (100 * 100), cents (10 * 100), .zero, .zero⟩]

/-- 100.00 principal was repaid, and no interest. -/
def principalOnly : RepaymentTotals :=
  { RepaymentTotals.none 1 with principalPaid := cents (100 * 100) }

theorem ofInstallments_covered_winter : ∃ covered a b,
    CoveredPeriod.ofRepayments winterPeriods principalOnly = .ok covered ∧
    Arrears.ofInstallments 1 (covered.map CoveredPeriod.asInstallment) firstOfMarch = .ok (some a) ∧
    Arrears.ofCovered 1 covered firstOfMarch = .ok (some b) ∧
    Arrears.SameAmounts a b ∧ a.since ≤ b.since := by
  obtain ⟨covered, hcovered, hboth⟩ := Arrears.ofInstallments_covered 1
    (by decide : ∀ p ∈ winterPeriods, p.dueDate < firstOfMarch) (t := principalOnly)
    (fun a ha => ⟨by revert a; unfold Money.Fine; decide +kernel,
      Money.value_nonneg_iff.mpr (by revert a; decide +kernel)⟩) (by decide +kernel)
  obtain ⟨live?, issued?, hlive, hissued, -, hrows⟩ := hboth _ (List.forall₂_map_right_iff.mpr
    (List.forall₂_same.mpr fun c _ => c.readAs_asInstallment))
  obtain ⟨c, hc, a, ha, b, hb⟩ : ∃ c,
      CoveredPeriod.ofRepayments winterPeriods principalOnly = .ok c ∧ ∃ a,
      Arrears.ofInstallments 1 (c.map CoveredPeriod.asInstallment) firstOfMarch = .ok (some a) ∧
      ∃ b, Arrears.ofCovered 1 c firstOfMarch = .ok (some b) := ⟨_, rfl, _, rfl, _, rfl⟩
  obtain rfl := Except.ok.inj (hc.symm.trans hcovered)
  obtain rfl := Except.ok.inj (ha.symm.trans hlive)
  obtain rfl := Except.ok.inj (hb.symm.trans hissued)
  obtain ⟨hsame, hle, -⟩ := hrows a rfl b rfl
  exact ⟨c, a, b, hc, ha, hb, hsame, hle⟩

/-- By the live schedule something is overdue since 2024-01-31, by the issued schedule it is since
2024-02-15. -/
theorem since_of_lateInterest : ∃ covered a b,
    CoveredPeriod.ofRepayments winterPeriods principalOnly = .ok covered ∧
    Arrears.ofInstallments 1 (covered.map CoveredPeriod.asInstallment) firstOfMarch = .ok (some a) ∧
    Arrears.ofCovered 1 covered firstOfMarch = .ok (some b) ∧
    a.since = januaryRow.dueDate ∧ b.since = midFebruary :=
  ⟨_, _, _, rfl, rfl, rfl, rfl, rfl⟩

end LoanLedger
