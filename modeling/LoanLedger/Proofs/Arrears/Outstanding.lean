import LoanLedger.Proofs.Arrears.Load
import LoanLedger.Proofs.Consistency
import LoanLedger.Proofs.Money.Sum

/-!
Arrears by the live schedule, in closed form. In the exact range, and whatever the signs of the
amounts, a loan is overdue on every aspect with what the installments due before a date are short of
it, each counted on its own, and since the earliest of those that are short of anything. The order
of the installments does not matter.
-/

set_option autoImplicit false
set_option relaxedAutoImplicit false

namespace LoanLedger

/-- The earliest of some dates and one to start with. -/
structure Date.Earliest (start : Date) (dates : List Date) (d : Date) : Prop where
  mem : d ∈ start :: dates
  le : ∀ e ∈ start :: dates, d ≤ e

namespace Date

variable {start due d e : Date} {dates later : List Date}

theorem earliest_nil (start : Date) : Earliest start [] start where
  mem := List.mem_cons_self
  le _ he := (List.mem_singleton.mp he) ▸ Int.le_refl _

/-- One date first, and then the others. -/
theorem Earliest.cons (h : Earliest (if due < start then due else start) dates d) :
    Earliest start (due :: dates) d where
  mem := by
    rcases List.mem_cons.mp h.mem with hd | hd
    · rw [hd]
      split
      · exact List.mem_cons_of_mem _ List.mem_cons_self
      · exact List.mem_cons_self
    · exact List.mem_cons_of_mem _ (List.mem_cons_of_mem _ hd)
  le := by
    have hfirst := h.le _ List.mem_cons_self
    have hboth : d ≤ start ∧ d ≤ due := by
      split at hfirst
      · next hlt => exact ⟨Int.le_trans hfirst (Int.le_of_lt hlt), hfirst⟩
      · next hge => exact ⟨hfirst, Int.le_trans hfirst (Int.not_lt.mp hge)⟩
    exact List.forall_mem_cons.mpr ⟨hboth.1, List.forall_mem_cons.mpr ⟨hboth.2,
      fun e he => h.le e (List.mem_cons_of_mem _ he)⟩⟩

theorem Earliest.le_of_subset (hd : Earliest start dates d) (he : Earliest start later e)
    (h : later ⊆ dates) : d ≤ e :=
  hd.le e (List.cons_subset_cons _ h he.mem)

theorem Earliest.eq_of_perm (hd : Earliest start dates d) (he : Earliest start later e)
    (h : dates.Perm later) : d = e :=
  Date.ext_day (Int.le_antisymm (hd.le_of_subset he h.symm.subset) (he.le_of_subset hd h.subset))

/-- Where one of the dates comes before the one to start with, the earliest is one of them. -/
theorem Earliest.mem_of_lt (h : Earliest start dates d) (hlt : ∃ e ∈ dates, e < start) :
    d ∈ dates := by
  obtain ⟨e, he, hlt⟩ := hlt
  rcases List.mem_cons.mp h.mem with rfl | hmem
  · exact absurd (h.le e (List.mem_cons_of_mem _ he)) (Int.not_le.mpr hlt)
  · exact hmem

end Date

/-! What components and installments are short of. -/

/-- What a component is short of: nothing, where more was settled than is due. -/
def Component.shortfall (c : Component) : ℚ :=
  max 0 (c.due.value - c.paid.value - c.waived.value - c.writtenOff.value)

namespace Component

variable {c : Component}

theorem shortfall_nonneg (c : Component) : 0 ≤ c.shortfall := le_max_left _ _

theorem shortfall_le (c : Component) : c.shortfall ≤ totalSize c.amounts := by
  simp only [amounts, totalSize_cons, totalSize_nil]
  have hdue := le_abs_self c.due.value
  have hpaid := neg_abs_le c.paid.value
  have hwaived := neg_abs_le c.waived.value
  have hwrittenOff := neg_abs_le c.writtenOff.value
  exact max_le (by positivity) (by linarith)

/-- In the exact range what is outstanding on a component is what it is short of. -/
theorem exists_outstanding (hfine : ∀ a ∈ c.amounts, a.Fine)
    (hsize : totalSize c.amounts < 10 ^ 18) :
    ∃ o, c.outstanding = .ok o ∧ o.Plain 10 ∧ o.value = c.shortfall := by
  simp only [amounts, List.forall_mem_cons] at hfine
  obtain ⟨hdue, hpaid, hwaived, hwrittenOff, -⟩ := hfine
  simp only [amounts, totalSize_cons, totalSize_nil] at hsize
  have hroom : (10 : ℚ) ^ 18 < Money.room := by norm_num [Money.room]
  obtain ⟨settled, all, o, hsettled, hall, ho, hoFine, hoValue⟩ :=
    Money.exists_monus_sum hdue hpaid hwaived hwrittenOff (by linarith)
  have hvalue : o.value = c.shortfall := by
    rw [hoValue, max_comm, shortfall]
    congr 1
    ring
  have hle := c.shortfall_le
  simp only [amounts, totalSize_cons, totalSize_nil] at hle
  exact ⟨o, bind_eq_ok.mpr ⟨_, hsettled, bind_eq_ok.mpr ⟨_, hall, ho⟩⟩,
    hoFine.plain (hvalue ▸ c.shortfall_nonneg) (hvalue ▸ hle.trans_lt hsize), hvalue⟩

end Component

namespace Installment

variable {i : Installment}

/-- What an installment is short of on an aspect. -/
def shortfall (i : Installment) (k : Aspect) : ℚ := (i.part k).shortfall

/-- An installment that is short of anything. -/
def Short (i : Installment) : Prop := ∃ k, 0 < i.shortfall k

instance (i : Installment) : Decidable i.Short :=
  decidable_of_iff (∃ k ∈ [Aspect.principal, .interest, .fee, .penalty], 0 < i.shortfall k)
    ⟨fun ⟨k, _, hk⟩ => ⟨k, hk⟩, fun ⟨k, hk⟩ => ⟨k, by cases k <;> simp, hk⟩⟩

/-- The outstanding amount of an aspect, if it can be told. -/
def owed (i : Installment) (k : Aspect) : Money := (i.part k).outstanding.toOption.getD .zero

/-- An installment on every aspect of which the outstanding amount is what it is short of. -/
structure Exact (i : Installment) : Prop where
  outstanding : ∀ k, (i.part k).outstanding = .ok (i.owed k)
  plain : ∀ k, (i.owed k).Plain 10
  value : ∀ k, (i.owed k).value = i.shortfall k

theorem Exact.of_outstanding (h : ∀ k, ∃ o, (i.part k).outstanding = .ok o ∧ o.Plain 10 ∧
    o.value = i.shortfall k) : i.Exact := by
  choose o ho hplain hvalue using h
  have howed : ∀ k, i.owed k = o k := fun k => by rw [owed, ho k]; rfl
  exact ⟨fun k => (howed k).symm ▸ ho k, fun k => (howed k).symm ▸ hplain k,
    fun k => (howed k).symm ▸ hvalue k⟩

theorem totalSize_part_le (i : Installment) (k : Aspect) :
    totalSize (i.part k).amounts ≤ totalSize i.amounts := by
  rw [i.totalSize_amounts]
  exact Aspect.le_total (f := fun k => totalSize (i.part k).amounts)
    (fun k => totalSize_nonneg _) k

theorem mem_amounts_of_part {a : Money} {k : Aspect} (h : a ∈ (i.part k).amounts) :
    a ∈ i.amounts := by
  simp only [amounts, List.mem_append]
  cases k
  · exact .inl (.inl (.inl h))
  · exact .inl (.inl (.inr h))
  · exact .inl (.inr h)
  · exact .inr h

theorem exact_of_inRange (hfine : ∀ a ∈ i.amounts, a.Fine) (hsize : totalSize i.amounts < 10 ^ 18) :
    i.Exact :=
  .of_outstanding fun k => Component.exists_outstanding
    (fun a ha => hfine a (mem_amounts_of_part ha)) ((i.totalSize_part_le k).trans_lt hsize)

end Installment

/-! Totals over installments. -/

namespace Aspect

variable {m : Aspect → Money}

/-- The amounts of all aspects can be added up, one after the other. -/
theorem exists_sum (h : ∀ k, (m k).Plain 10) :
    ∃ two three all, (m .principal).add (m .interest) = .ok two ∧ two.add (m .fee) = .ok three ∧
      three.add (m .penalty) = .ok all ∧ Money.Sums (amounts m) all := by
  have hroom : Money.room = 7 * 10 ^ 18 := rfl
  have hprincipal := h .principal
  have hinterest := h .interest
  have hfee := h .fee
  have hpenalty := h .penalty
  obtain ⟨two, htwo, htwoSums⟩ := (Money.sums_singleton hprincipal.fine).exists_add
    hprincipal.nonneg hinterest.fine hinterest.nonneg
    (by linarith [hprincipal.small, hinterest.small])
  have htwoValue : two.value = (m .principal).value + (m .interest).value := by
    rw [htwoSums.value]
    simp
  have htwoNonneg : 0 ≤ two.value := htwoValue ▸ add_nonneg hprincipal.nonneg hinterest.nonneg
  obtain ⟨three, hthree, hthreeSums⟩ := htwoSums.exists_add htwoNonneg hfee.fine hfee.nonneg
    (by linarith [hprincipal.small, hinterest.small, hfee.small])
  have hthreeValue : three.value = two.value + (m .fee).value := by
    rw [hthreeSums.value, htwoValue]
    simp [add_assoc]
  have hthreeNonneg : 0 ≤ three.value := hthreeValue ▸ add_nonneg htwoNonneg hfee.nonneg
  obtain ⟨all, hall, hallSums⟩ := hthreeSums.exists_add hthreeNonneg hpenalty.fine hpenalty.nonneg
    (by linarith [hprincipal.small, hinterest.small, hfee.small, hpenalty.small])
  exact ⟨two, three, all, htwo, hthree, hall, hallSums⟩

theorem sum_amounts (m : Aspect → Money) : ((amounts m).map Money.value).sum =
    (m .principal).value + (m .interest).value + (m .fee).value + (m .penalty).value := by
  simp [amounts, add_assoc]

end Aspect

/-- An exact installment is settled when it is short of nothing. -/
theorem Installment.Exact.exists_isSettled {i : Installment} (h : i.Exact) :
    ∃ settled, i.isSettled = .ok settled ∧ (settled = true ↔ ¬i.Short) := by
  obtain ⟨two, three, all, htwo, hthree, hall, hsum⟩ := Aspect.exists_sum h.plain
  refine ⟨_, Installment.isSettled_eq h.outstanding htwo hthree hall, ?_⟩
  have hvalue := hsum.value
  rw [Aspect.sum_amounts] at hvalue
  have hnonneg := fun k => (h.plain k).nonneg
  rw [Money.isZero_iff_value, hvalue]
  constructor
  · rintro hzero ⟨k, hk⟩
    rw [← h.value k] at hk
    have hprincipal := hnonneg .principal
    have hinterest := hnonneg .interest
    have hfee := hnonneg .fee
    have hpenalty := hnonneg .penalty
    cases k <;> linarith
  · intro hnone
    have hzero : ∀ k, (i.owed k).value = 0 := fun k =>
      (not_lt.mp fun hk => hnone ⟨k, h.value k ▸ hk⟩).antisymm (hnonneg k)
    rw [hzero, hzero, hzero, hzero]
    norm_num

namespace Arrears

/-- Totals that show these values, aspect by aspect. -/
def Shows (t : OverdueTotals) (v : Aspect → ℚ) : Prop :=
  ∀ k, (t.part k).Plain 10 ∧ (t.part k).value = v k

theorem Shows.none : Shows .none fun _ => 0 := fun k => by
  rw [OverdueTotals.part_none]
  exact ⟨Money.plain_zero, Money.value_zero⟩

/-- Plain totals leave a row exactly when the principal is positive, with the sum of all of them. -/
theorem exists_row_total {t : OverdueTotals} (h : ∀ k, (t.part k).Plain 10) (id : LoanId)
    (since : Date) : ∃ total, Money.Sums (Aspect.amounts t.part) total ∧
      t.toArrears id since = .ok (if t.principal.isPositive
        then some ⟨id, t.principal, t.interest, t.fee, t.penalty, total, since⟩ else none) := by
  obtain ⟨two, three, all, htwo, hthree, hall, hsum⟩ := Aspect.exists_sum h
  exact ⟨all, hsum, OverdueTotals.toArrears_eq htwo hthree hall id since⟩

/-- Totals that show some values leave a row exactly when the principal is positive. -/
theorem exists_row {totals : OverdueTotals} {v : Aspect → ℚ} (h : Shows totals v) (id : LoanId)
    (since : Date) : ∃ row?, totals.toArrears id since = .ok row? ∧
      (row?.isSome = true ↔ 0 < v .principal) ∧
      ∀ row ∈ row?, row.loanId = id ∧ row.since = since ∧
        row.components.map Money.value = [v .principal, v .interest, v .fee, v .penalty] ∧
        row.total.value = v .principal + v .interest + v .fee + v .penalty := by
  have hvalue := fun k => (h k).2
  obtain ⟨total, hsums, hrow⟩ := exists_row_total (fun k => (h k).1) id since
  have hsum := hsums.value
  rw [Aspect.sum_amounts, hvalue, hvalue, hvalue, hvalue] at hsum
  have hpositive : totals.principal.isPositive = true ↔ 0 < v .principal := by
    rw [Money.isPositive_iff_value, ← hvalue]
    rfl
  refine ⟨_, hrow, ?_, ?_⟩
  · rw [← hpositive]
    split <;> simp_all
  · split
    · rintro row ⟨⟩
      refine ⟨rfl, rfl, ?_, hsum⟩
      rw [← hvalue, ← hvalue, ← hvalue, ← hvalue]
      rfl
    · exact fun _ hrow => (nomatch hrow)

/-- What installments are short of on an aspect, together. -/
def shortfalls (is : List Installment) (k : Aspect) : ℚ := (is.map (·.shortfall k)).sum

theorem shortfalls_cons (i : Installment) (is : List Installment) (k : Aspect) :
    shortfalls (i :: is) k = i.shortfall k + shortfalls is k := List.sum_cons

theorem shortfalls_nonneg (is : List Installment) (k : Aspect) : 0 ≤ shortfalls is k :=
  List.sum_nonneg (List.forall_mem_map.mpr fun i _ => (i.part k).shortfall_nonneg)

theorem shortfalls_le {is all : List Installment} (h : is.Sublist all) (k : Aspect) :
    shortfalls is k ≤ totalSize (all.flatMap Installment.amounts) := by
  have hparts : shortfalls is k ≤ totalSize (is.flatMap Installment.amounts) :=
    sum_le_totalSize_flatMap fun i _ => ((i.part k).shortfall_le).trans (i.totalSize_part_le k)
  exact hparts.trans (totalSize_le_of_subperm (h.flatMap _).subperm)

/-- Over exact installments the totals grow by what is owed on each, and the date is that of the
earliest one that is short of anything. -/
theorem exists_foldlM_live {is : List Installment} (hexact : ∀ i ∈ is, i.Exact) {t : LiveTally}
    {as : Aspect → List Money} (ht : ∀ k, Money.Sums (as k) (t.totals.part k))
    (hnonneg : ∀ k, 0 ≤ (t.totals.part k).value)
    (hroom : ∀ k, (t.totals.part k).value + shortfalls is k < 10 ^ 18) :
    ∃ u, is.foldlM LiveTally.include t = .ok u ∧
      (∀ k, Money.Sums (as k ++ is.map (·.owed k)) (u.totals.part k)) ∧
      Date.Earliest t.since ((is.filter (·.Short)).map (·.dueDate)) u.since := by
  -- Over the installments still to come: what they are short of must fit on top of the totals.
  induction is generalizing t as with
  | nil => exact ⟨t, rfl, fun k => (List.append_nil (as k)).symm ▸ ht k, Date.earliest_nil _⟩
  | cons i is ih =>
    obtain ⟨hi, his⟩ := List.forall_mem_cons.mp hexact
    have hroomSmall : (10 : ℚ) ^ 18 < Money.room := by norm_num [Money.room]
    have hstep : ∀ k, ∃ m, (t.totals.part k).add (i.owed k) = .ok m ∧
        Money.Sums (as k ++ [i.owed k]) m ∧ m.value = (t.totals.part k).value + i.shortfall k := by
      intro k
      have hrest := shortfalls_nonneg is k
      have hroom := hroom k
      rw [shortfalls_cons] at hroom
      have howed := hi.plain k
      obtain ⟨m, hm, hsums⟩ := (ht k).exists_add (hnonneg k) howed.fine howed.nonneg
        (by rw [hi.value]; linarith)
      refine ⟨m, hm, hsums, ?_⟩
      rw [hsums.value, List.map_append, List.sum_append, ← (ht k).value, ← hi.value k]
      simp
    choose m hm hsums hvalue using hstep
    obtain ⟨settled, hsettled, hsettledIff⟩ := hi.exists_isSettled
    rw [List.foldlM_cons, LiveTally.include_eq hi.outstanding hm hsettled, bind_ok]
    have hpart : ∀ k, (OverdueTotals.of m).part k = m k := OverdueTotals.part_of m
    obtain ⟨u, hu, huSums, hsince⟩ := @ih his
      ⟨.of m, if (!settled && i.dueDate < t.since) then i.dueDate else t.since⟩
      (fun k => as k ++ [i.owed k]) (fun k => (hpart k).symm ▸ hsums k)
      (fun k => by
        rw [hpart, hvalue]
        exact add_nonneg (hnonneg k) (i.part k).shortfall_nonneg)
      (fun k => by
        rw [hpart, hvalue, add_assoc, ← shortfalls_cons]
        exact hroom k)
    refine ⟨u, hu, fun k => ?_, ?_⟩
    · rw [List.map_cons]
      exact (List.append_assoc (as k) [i.owed k] _) ▸ huSums k
    · by_cases hshort : i.Short
      · rw [List.filter_cons_of_pos (by simpa using hshort), List.map_cons]
        have hopen : settled = false := Bool.eq_false_iff.mpr fun h => hsettledIff.mp h hshort
        refine Date.Earliest.cons ?_
        simpa [hopen] using hsince
      · rw [List.filter_cons_of_neg (by simpa using hshort)]
        simpa [hsettledIff.mpr hshort] using hsince

/-- Exact installments leave totals that show what they are short of. -/
theorem exists_live {is : List Installment} (hexact : ∀ i ∈ is, i.Exact) (today : Date)
    (hsmall : ∀ k, shortfalls is k < 10 ^ 18) :
    ∃ t, is.foldlM LiveTally.include ⟨.none, today⟩ = .ok t ∧ Shows t.totals (shortfalls is) ∧
      today.Earliest ((is.filter (·.Short)).map (·.dueDate)) t.since ∧
      ∀ k, Money.Sums (is.map (·.owed k)) (t.totals.part k) := by
  have hnone : ∀ k, (OverdueTotals.none.part k).value = 0 := fun k => (Shows.none k).2
  obtain ⟨t, ht, hsums, hsince⟩ := @exists_foldlM_live is hexact ⟨.none, today⟩ (fun _ => [])
    (fun k => (OverdueTotals.part_none k).symm ▸ Money.sums_nil) (fun k => (hnone k).ge)
    (fun k => by rw [hnone, zero_add]; exact hsmall k)
  refine ⟨t, ht, fun k => ?_, hsince, hsums⟩
  have hvalue : (t.totals.part k).value = shortfalls is k := by
    rw [(hsums k).value, List.nil_append, List.map_map, shortfalls]
    exact congrArg List.sum (List.map_congr_left fun i hi => (hexact i hi).value k)
  exact ⟨(hsums k).fine.plain (hvalue ▸ shortfalls_nonneg is k) (hvalue ▸ hsmall k), hvalue⟩

/-- The row of a loan by its installments that are overdue. There is one exactly when they are short
of principal; it shows what they are short of on every aspect and together, and the due date of the
earliest of them that is short of anything. -/
structure OfShortfalls (id : LoanId) (overdue : List Installment) (row? : Option Arrears) :
    Prop where
  isSome_iff : row?.isSome = true ↔ 0 < shortfalls overdue .principal
  loanId : ∀ row ∈ row?, row.loanId = id
  components : ∀ row ∈ row?, row.components.map Money.value =
    [shortfalls overdue .principal, shortfalls overdue .interest, shortfalls overdue .fee,
      shortfalls overdue .penalty]
  total : ∀ row ∈ row?, row.total.value = shortfalls overdue .principal +
    shortfalls overdue .interest + shortfalls overdue .fee + shortfalls overdue .penalty
  since : ∀ row ∈ row?, ∃ i ∈ overdue, i.Short ∧ row.since = i.dueDate
  earliest : ∀ row ∈ row?, ∀ i ∈ overdue, i.Short → row.since ≤ i.dueDate

/-- Two rows that are the same but for how they write a component of zero. -/
structure Agrees (a b : Arrears) : Prop where
  loanId : a.loanId = b.loanId
  components : List.Forall₂ Money.Agree a.components b.components
  total : a.total = b.total
  since : a.since = b.since

/-- Where installments are short of something, the earliest of them that is so tells the date. -/
theorem exists_short {overdue : List Installment} {today since : Date}
    (hdue : ∀ i ∈ overdue, i.dueDate < today) (hpos : 0 < shortfalls overdue .principal)
    (h : today.Earliest ((overdue.filter (·.Short)).map (·.dueDate)) since) :
    ∃ i ∈ overdue, i.Short ∧ since = i.dueDate := by
  obtain ⟨i, hi, hshort⟩ := List.exists_lt_of_sum_lt (l := overdue) (fun _ => 0)
    (fun i => i.shortfall .principal) (by simpa [shortfalls] using hpos)
  have hmem : i ∈ overdue.filter (·.Short) :=
    List.mem_filter.mpr ⟨hi, decide_eq_true ⟨.principal, hshort⟩⟩
  obtain ⟨j, hj, hsince⟩ := List.mem_map.mp
    (h.mem_of_lt ⟨_, List.mem_map_of_mem hmem, hdue i hi⟩)
  obtain ⟨hj, hshort⟩ := List.mem_filter.mp hj
  exact ⟨j, hj, of_decide_eq_true hshort, hsince.symm⟩

/-- Totals that agree leave rows that are the same but for zeros. -/
theorem exists_rows_agree {t u : OverdueTotals} (ht : ∀ k, (t.part k).Plain 10)
    (hu : ∀ k, (u.part k).Plain 10) (h : ∀ k, Money.Agree (t.part k) (u.part k)) (id : LoanId)
    (since : Date) : ∃ row? other?, t.toArrears id since = .ok row? ∧
      u.toArrears id since = .ok other? ∧ Option.Rel Agrees row? other? := by
  obtain ⟨a, ha, hrow⟩ := exists_row_total ht id since
  obtain ⟨b, hb, hother⟩ := exists_row_total hu id since
  refine ⟨_, _, hrow, hother, ?_⟩
  have hprincipal := h .principal
  have hpositive : t.principal.isPositive = u.principal.isPositive := by
    rw [Bool.eq_iff_iff, Money.isPositive_iff_value, Money.isPositive_iff_value]
    exact hprincipal.value_eq ▸ Iff.rfl
  rw [← hpositive]
  split
  · next hpos =>
    rw [Money.isPositive_iff_value] at hpos
    have hcomponents : List.Forall₂ Money.Agree (Aspect.amounts t.part) (Aspect.amounts u.part) :=
      .cons hprincipal (.cons (h .interest) (.cons (h .fee) (.cons (h .penalty) .nil)))
    have htotal : 0 < a.value := by
      rw [ha.value, Aspect.sum_amounts]
      have hnonneg := fun k => (ht k).nonneg
      exact add_pos_of_pos_of_nonneg (add_pos_of_pos_of_nonneg
        (add_pos_of_pos_of_nonneg hpos (hnonneg .interest)) (hnonneg .fee)) (hnonneg .penalty)
    exact .some ⟨rfl, hcomponents, (ha.agree_of_forall₂ hb hcomponents).eq_of_pos htotal, rfl⟩
  · exact .none

section

variable {today : Date} {installments others : List Installment}
  (hexact : ∀ i ∈ installments.filter (·.dueDate < today), i.Exact)
  (hsmall : ∀ k, shortfalls (installments.filter (·.dueDate < today)) k < 10 ^ 18)

include hexact hsmall

/-- Where the overdue installments are exact, they leave the row of what they are short of. -/
theorem exists_ofShortfalls (loan : LoanId) :
    ∃ row?, ofInstallments loan installments today = .ok row? ∧
      OfShortfalls loan (installments.filter (·.dueDate < today)) row? := by
  obtain ⟨t, ht, hshows, hsince, -⟩ := exists_live hexact today hsmall
  obtain ⟨row?, hrow, hsome, hlook⟩ := exists_row hshows loan t.since
  refine ⟨row?, bind_eq_ok.mpr ⟨t, ht, hrow⟩, hsome, fun row h => (hlook row h).1,
    fun row h => (hlook row h).2.2.1, fun row h => (hlook row h).2.2.2, fun row h => ?_,
    fun row h i hi hshort => ?_⟩
  · rw [(hlook row h).2.1]
    exact exists_short (fun i hi => of_decide_eq_true (List.mem_filter.mp hi).2)
      (hsome.mp (Option.isSome_iff_exists.mpr ⟨row, h⟩)) hsince
  · rw [(hlook row h).2.1]
    exact hsince.le _ (List.mem_cons_of_mem _ (List.mem_map_of_mem
      (List.mem_filter.mpr ⟨hi, decide_eq_true hshort⟩)))

/-- Where the overdue installments are exact, they leave the same row in another order. -/
theorem exists_rows_of_perm (loan : LoanId) (hperm : installments.Perm others) :
    ∃ row? other?, ofInstallments loan installments today = .ok row? ∧
      ofInstallments loan others today = .ok other? ∧ Option.Rel Agrees row? other? := by
  have hoverdue := hperm.filter (·.dueDate < today)
  have hsum : ∀ k, shortfalls (others.filter (·.dueDate < today)) k =
      shortfalls (installments.filter (·.dueDate < today)) k := fun k =>
    (hoverdue.symm.map _).sum_eq
  obtain ⟨t, ht, hshows, hsince, hsums⟩ := exists_live hexact today hsmall
  obtain ⟨u, hu, hshows', hsince', hsums'⟩ := exists_live
    (fun i hi => hexact i (hoverdue.mem_iff.mpr hi)) today fun k => hsum k ▸ hsmall k
  obtain ⟨row?, other?, hrow, hother, hrel⟩ := exists_rows_agree (fun k => (hshows k).1)
    (fun k => (hshows' k).1) (fun k => (hsums k).agree_of_perm (hsums' k) (hoverdue.map _)) loan
    t.since
  have hsame : t.since = u.since := hsince.eq_of_perm hsince' ((hoverdue.filter _).map _)
  exact ⟨row?, other?, bind_eq_ok.mpr ⟨t, ht, hrow⟩,
    bind_eq_ok.mpr ⟨u, hu, hsame ▸ hother⟩, hrel⟩

end

/-- In the exact range the row of a loan by its live schedule is that of what the installments due
before a date are short of, and in another order they leave the same row. -/
theorem ofInstallments_shortfalls (loan : LoanId) (today : Date) {installments : List Installment}
    (hfine : ∀ a ∈ installments.flatMap Installment.amounts, a.Fine)
    (hsize : totalSize (installments.flatMap Installment.amounts) < 10 ^ 18) :
    ∃ row?, ofInstallments loan installments today = .ok row? ∧
      OfShortfalls loan (installments.filter (·.dueDate < today)) row? ∧
      ∀ others, installments.Perm others → ∃ other?,
        ofInstallments loan others today = .ok other? ∧ Option.Rel Agrees row? other? := by
  have hexact : ∀ i ∈ installments.filter (·.dueDate < today), i.Exact := by
    intro i hi
    have hmem := (List.mem_filter.mp hi).1
    exact Installment.exact_of_inRange
      (fun a ha => hfine a (List.mem_flatMap.mpr ⟨i, hmem, ha⟩))
      ((totalSize_flatMap_le hmem).trans_lt hsize)
  have hsmall : ∀ k, shortfalls (installments.filter (·.dueDate < today)) k < 10 ^ 18 := fun k =>
    (shortfalls_le List.filter_sublist k).trans_lt hsize
  obtain ⟨row?, hrow, hshort⟩ := exists_ofShortfalls hexact hsmall loan
  refine ⟨row?, hrow, hshort, fun others hperm => ?_⟩
  obtain ⟨same?, other?, hsame, hother, hrel⟩ := exists_rows_of_perm hexact hsmall loan hperm
  obtain rfl := Except.ok.inj (hsame.symm.trans hrow)
  exact ⟨other?, hother, hrel⟩

end Arrears

/-! Two installments, the later one first. Of the earlier one only interest is outstanding, though
too much of its principal was paid. -/

/-- 125.00 principal and 12.50 interest that fall due on a date. -/
def winterInstallment (number : InstallmentNumber) (dueDate : Date) : Installment where
  number
  fromDate := dueDate
  dueDate
  principal := .ofDue (cents 12500)
  interest := .ofDue (cents 1250)
  fee := .ofDue .zero
  penalty := .ofDue .zero

/-- 140.00 principal was paid, of 125.00. -/
def overpaidInstallment : Installment :=
  { winterInstallment 1 januaryRow.dueDate with
    principal := ⟨cents 12500, cents 14000, .zero, .zero⟩ }

theorem ofInstallments_shortfalls_winter : ∃ row other,
    Arrears.ofInstallments 1 [winterInstallment 2 midFebruary, overpaidInstallment] firstOfMarch =
      .ok (some row) ∧
    Arrears.ofInstallments 1 [overpaidInstallment, winterInstallment 2 midFebruary] firstOfMarch =
      .ok (some other) ∧
    row.Agrees other ∧ row.components.map Money.value = [125, 25, 0, 0] ∧ row.total.value = 150 ∧
    row.since = januaryRow.dueDate := by
  have hfine : ∀ a ∈ [winterInstallment 2 midFebruary, overpaidInstallment].flatMap
      Installment.amounts, a.Fine := by
    unfold Money.Fine
    decide +kernel
  obtain ⟨row?, hrow, hshort, hperm⟩ :=
    Arrears.ofInstallments_shortfalls 1 firstOfMarch hfine (by decide +kernel)
  obtain ⟨other?, hother, hrel⟩ := hperm _ (.swap _ _ _)
  obtain ⟨row, rfl⟩ := Option.isSome_iff_exists.mp (hshort.isSome_iff.mpr (by decide +kernel))
  obtain ⟨other, rfl, hagrees⟩ := exists_of_rel_some hrel
  refine ⟨row, other, hrow, hother, hagrees, (hshort.components row rfl).trans (by decide +kernel),
    (hshort.total row rfl).trans (by decide +kernel), ?_⟩
  obtain ⟨i, hi, -, hsince⟩ := hshort.since row rfl
  have hfirst : januaryRow.dueDate ≤ row.since := by
    rw [hsince]
    clear hsince
    revert i
    decide +kernel
  exact Date.ext_day (Int.le_antisymm
    (hshort.earliest row rfl overpaidInstallment (by decide +kernel) (by decide +kernel)) hfirst)

end LoanLedger
