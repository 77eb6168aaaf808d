import LoanLedger.Proofs.Charge.Load
import LoanLedger.Proofs.Explanation

/-!
Exclusive attribution. On a schedule without gaps each charge with a due date within it is selected
by the period of one row, and no other charge by any; so the rows together bring in what the charges
can accrue, once each.
-/

set_option autoImplicit false
set_option relaxedAutoImplicit false

namespace LoanLedger

variable {policy : ChargePolicy} {row : ScheduleRow} {w : Window} {c : Charge} {cs : List Charge}
  {rows : List ScheduleRow} {due : Date}

namespace ScheduleRow

theorem fromDate_le_of_selected (h : c.selected policy due row row.period = true) :
    row.fromDate ≤ due := by
  have h : c.selected policy due row ⟨row.fromDate, row.dueDate⟩ = true := h
  cases policy with
  | dueDate =>
    simp only [Charge.selected, Charge.dueWithin, Bool.and_eq_true, Bool.or_eq_true,
      decide_eq_true_eq] at h
    exact h.1.elim (fun hfirst => hfirst.2 ▸ Int.le_refl _) Int.le_of_lt
  | submittedDate =>
    simp only [Charge.selected, Charge.submittedWithin, Bool.and_eq_true, Bool.or_eq_true,
      decide_eq_true_eq] at h
    exact h.1.1.elim (fun hfirst => hfirst.2 ▸ Int.le_refl _) Int.le_of_lt

theorem due_of_submitted (h : c.selected .submittedDate due row row.period = true) :
    c.selected .dueDate due row row.period = true := by
  have h : c.selected .submittedDate due row ⟨row.fromDate, row.dueDate⟩ = true := h
  show c.selected .dueDate due row ⟨row.fromDate, row.dueDate⟩ = true
  simp only [Charge.selected, Charge.submittedWithin, Charge.dueWithin, Bool.and_eq_true,
    Bool.or_eq_true, decide_eq_true_eq] at h ⊢
  exact ⟨h.1.1.imp_left fun hfirst => ⟨hfirst.1.1, hfirst.2.symm⟩, h.2⟩

/-- The date on which the last of some rows is due. -/
def finish (first : ScheduleRow) (rest : List ScheduleRow) : Date :=
  ((first :: rest).getLast (List.cons_ne_nil _ _)).dueDate

theorem finish_cons (first next : ScheduleRow) (rest : List ScheduleRow) :
    finish first (next :: rest) = finish next rest := by
  rw [finish, finish, List.getLast_cons (List.cons_ne_nil _ _)]

/-- Consecutive rows lie between the start of the first and the end of the last. -/
theorem Consecutive.within {first : ScheduleRow} {rest : List ScheduleRow}
    (h : Consecutive (first :: rest)) (hrow : row ∈ first :: rest) :
    first.fromDate ≤ row.fromDate ∧
      row.dueDate ≤ finish first rest := by
  induction rest generalizing first row with
  | nil =>
    obtain rfl := List.mem_singleton.mp hrow
    exact ⟨Int.le_refl _, Int.le_refl _⟩
  | cons next rest ih =>
    obtain ⟨hfirst, hforward⟩ := List.forall_mem_cons.mp h.forward
    have hnext : next.fromDate = first.dueDate := (List.isChain_cons_cons.mp h.follows).1
    have hrest : Consecutive (next :: rest) := ⟨h.follows.tail, hforward⟩
    rw [finish_cons]
    rcases List.mem_cons.mp hrow with rfl | hrow
    · have hlast := (ih hrest List.mem_cons_self).2
      exact ⟨Int.le_refl _, Date.le_trans (hnext ▸ hforward next List.mem_cons_self) hlast⟩
    · obtain ⟨hfrom, hlast⟩ := ih hrest hrow
      exact ⟨Date.le_trans hfirst (hnext ▸ hfrom), hlast⟩

/-- A date after the start of consecutive rows, up to their end, lies in one of them. -/
theorem Consecutive.exists_between {first : ScheduleRow} {rest : List ScheduleRow}
    (h : Consecutive (first :: rest)) (hfrom : first.fromDate < due)
    (hlast : due ≤ finish first rest) :
    ∃ row ∈ first :: rest, row.fromDate < due ∧ due ≤ row.dueDate := by
  induction rest generalizing first with
  | nil => exact ⟨first, List.mem_cons_self, hfrom, hlast⟩
  | cons next rest ih =>
    have hnext : next.fromDate = first.dueDate := (List.isChain_cons_cons.mp h.follows).1
    by_cases hdue : due ≤ first.dueDate
    · exact ⟨first, List.mem_cons_self, hfrom, hdue⟩
    · rw [finish_cons] at hlast
      obtain ⟨row, hrow, hbetween⟩ :=
        ih ⟨h.follows.tail, (List.forall_mem_cons.mp h.forward).2⟩
          (hnext ▸ Date.not_le_iff.mp hdue) hlast
      exact ⟨row, List.mem_cons_of_mem _ hrow, hbetween⟩

/-- The rows whose periods select a charge. -/
def selecting (policy : ChargePolicy) (c : Charge) (due : Date) (rows : List ScheduleRow) :
    List ScheduleRow :=
  rows.filter fun row => c.selected policy due row row.period

/-- A schedule without gaps that starts with installment 1. -/
structure Full (first : ScheduleRow) (rest : List ScheduleRow) : Prop where
  gapFree : GapFree (first :: rest)
  first : first.installment = 1

namespace Full

variable {first : ScheduleRow} {rest : List ScheduleRow}

/-- A charge that is due within a schedule is selected by one row by its due date, and by its
submission by that row or by none. -/
theorem selecting_eq (h : Full first rest) (c : Charge) (hfrom : first.fromDate ≤ due)
    (hlast : due ≤ finish first rest) :
    ∃ row, selecting .dueDate c due (first :: rest) = [row] ∧
      (selecting .submittedDate c due (first :: rest) = [row] ∨
        selecting .submittedDate c due (first :: rest) = []) := by
  have hfull : ∃ row ∈ first :: rest, c.selected .dueDate due row row.period = true := by
    rcases Int.lt_or_eq_of_le hfrom with hlt | heq
    · obtain ⟨row, hrow, hbetween⟩ := h.gapFree.consecutive.exists_between hlt hlast
      refine ⟨row, hrow, ?_⟩
      simp [Charge.selected, Charge.dueWithin, ScheduleRow.period, hbetween]
    · obtain rfl : first.fromDate = due := Date.ext_day heq
      refine ⟨first, List.mem_cons_self, ?_⟩
      have hforward := h.gapFree.forward first List.mem_cons_self
      simp [Charge.selected, Charge.dueWithin, ScheduleRow.period, h.first, hforward]
  obtain ⟨row, hrow, hselected⟩ := hfull
  have hnodup : (first :: rest).Nodup := h.gapFree.installments.of_map _
  have honly : ∀ row' ∈ selecting .dueDate c due (first :: rest), row' = row := by
    intro row' hrow'
    obtain ⟨hmem, hselected'⟩ := List.mem_filter.mp hrow'
    by_contra hne
    exact (h.gapFree.apart hmem hrow hne).selected .dueDate c due ⟨hselected', hselected⟩
  have hmem : row ∈ selecting .dueDate c due (first :: rest) := List.mem_filter.mpr ⟨hrow, hselected⟩
  have hone : selecting .dueDate c due (first :: rest) = [row] :=
    eq_singleton_of_nodup (hnodup.filter _) hmem honly
  refine ⟨row, hone, ?_⟩
  have hsub : (selecting .submittedDate c due (first :: rest)).Sublist [row] := by
    rw [← hone]
    exact List.monotone_filter_right _ fun row' => due_of_submitted
  rcases List.sublist_singleton.mp hsub with hnone | hsome
  · exact .inr hnone
  · exact .inl hsome

theorem selecting_eq_nil (h : Full first rest) (policy : ChargePolicy) (c : Charge)
    (hout : ¬(first.fromDate ≤ due ∧
      due ≤ finish first rest)) :
    selecting policy c due (first :: rest) = [] := by
  refine List.filter_eq_nil_iff.mpr fun row hrow hselected => hout ?_
  obtain ⟨hfrom, hlast⟩ := h.gapFree.consecutive.within hrow
  exact ⟨Date.le_trans hfrom (fromDate_le_of_selected hselected),
    Date.le_trans (due_of_selected hselected).1 hlast⟩

end Full
end ScheduleRow

/-! What the rows of a schedule bring in. -/

namespace Charge

/-- A charge with a due date between two dates is worth what can accrue on it. -/
def worthBetween (start finish : Date) (c : Charge) : ℚ :=
  match c.dueDate with
  | some due => if start ≤ due ∧ due ≤ finish then c.dues.accruable else 0
  | none => 0

/-- The shares of an installment fee for the rows of a schedule. -/
def sharesFor (rows : List ScheduleRow) (c : Charge) : List ChargeShare :=
  if c.dueDate.isNone && c.isInstallmentFee then rows.filterMap fun row => c.share? row.installment
  else []

/-- What can accrue on the shares of an installment fee for the rows of a schedule. -/
def worthOn (rows : List ScheduleRow) (c : Charge) : ℚ :=
  ((c.sharesFor rows).map fun s => s.dues.accruable).sum

/-- What the period of a row brings in, added up over the rows. -/
theorem sum_worth_of_due {due : Date} (hdue : c.dueDate = some due) (rows : List ScheduleRow) :
    (rows.map fun row => worth Dues.accruable (c.brought policy row row.period)).sum =
      ((ScheduleRow.selecting policy c due rows).length : ℚ) * c.dues.accruable := by
  induction rows with
  | nil => simp [ScheduleRow.selecting]
  | cons row rows ih =>
    rw [List.map_cons, List.sum_cons, ih, brought_of_due hdue]
    simp only [ScheduleRow.selecting, List.filter_cons]
    split
    · rw [worth_some, List.length_cons]
      push_cast
      ring
    · rw [worth_none, zero_add]

theorem sum_worth_of_shares (hdue : c.dueDate = none) (rows : List ScheduleRow) :
    (rows.map fun row => worth Dues.accruable (c.brought policy row row.period)).sum =
      c.worthOn rows := by
  have hbrought : ∀ row : ScheduleRow, c.brought policy row row.period =
      if c.isInstallmentFee then (c.share? row.installment).map ChargeShare.dues else none := by
    intro row
    rw [brought_of_shares hdue]
    simp [ScheduleRow.period]
  simp only [worthOn, sharesFor, hdue, hbrought]
  cases hfee : c.isInstallmentFee with
  | false => simp
  | true =>
    simp only [if_true, Option.isNone_none, Bool.and_self]
    induction rows with
    | nil => rfl
    | cons row rows ih =>
      rw [List.map_cons, List.sum_cons, ih]
      cases hs : c.share? row.installment with
      | none => simp [hs]
      | some s => simp [hs]

/-- What a charge brings to the rows of a schedule together: what can accrue on it if it is due within
the schedule, or what can accrue on its shares for the rows. -/
theorem sum_worth {first : ScheduleRow} {rest : List ScheduleRow}
    (h : ScheduleRow.Full first rest) (c : Charge) :
    ((first :: rest).map fun row => worth Dues.accruable (c.brought .dueDate row row.period)).sum =
      c.worthBetween first.fromDate (first.finish rest) +
        c.worthOn (first :: rest) := by
  cases hdue : c.dueDate with
  | none =>
    rw [sum_worth_of_shares hdue]
    simp only [worthBetween, hdue, zero_add]
  | some due =>
    rw [sum_worth_of_due hdue]
    have hnone : c.worthOn (first :: rest) = 0 := by
      simp [worthOn, sharesFor, hdue]
    simp only [worthBetween, hdue, hnone, add_zero]
    split
    · next hwithin =>
      obtain ⟨row, hrow, -⟩ := h.selecting_eq c hwithin.1 hwithin.2
      rw [hrow, List.length_singleton, Nat.cast_one, one_mul]
    · next hout =>
      rw [h.selecting_eq_nil .dueDate c hout, List.length_nil, Nat.cast_zero, zero_mul]

/-- Shares with different installments are for the rows of their installments. -/
theorem worthOn_of_nodup (hdue : c.dueDate = none) (hfee : c.isInstallmentFee = true)
    (hshares : (c.shares.map (·.installment)).Nodup) (hrows : (rows.map (·.installment)).Nodup) :
    c.worthOn rows = ((c.shares.filter fun s => s.installment ∈ rows.map (·.installment)).map
      fun s => s.dues.accruable).sum := by
  have hkey : ∀ {n s}, c.share? n = some s → s ∈ c.shares ∧ s.installment = n := fun hs =>
    ⟨List.mem_of_find?_eq_some hs, by simpa using List.find?_some hs⟩
  have hmap : (rows.filterMap fun row => c.share? row.installment) =
      (rows.map (·.installment)).filterMap c.share? := by
    rw [List.filterMap_map]
    rfl
  have hperm : ((rows.map (·.installment)).filterMap c.share?).Perm
      (c.shares.filter fun s => s.installment ∈ rows.map (·.installment)) := by
    refine (List.perm_ext_iff_of_nodup (hrows.filterMap fun n n' s hs hs' => ?_)
      ((hshares.of_map _).filter _)).mpr fun s => ?_
    · exact (hkey hs).2.symm.trans (hkey hs').2
    · rw [List.mem_filterMap, List.mem_filter, decide_eq_true_eq]
      constructor
      · rintro ⟨n, hn, hs⟩
        exact ⟨(hkey hs).1, (hkey hs).2 ▸ hn⟩
      · rintro ⟨hs, hn⟩
        exact ⟨s.installment, hn, find?_key_eq_some ChargeShare.installment hshares hs⟩
  simp only [worthOn, sharesFor, hdue, hfee, Option.isNone_none, Bool.and_self, if_true]
  rw [hmap]
  exact (hperm.map _).sum_eq

/-! Exactness of incomes. -/

theorem incomeIn_value {m : Money} (hfine : ∀ a ∈ c.amounts, a.Fine)
    (hsize : totalSize c.amounts < 10 ^ 18) (h : c.incomeIn policy row w = .ok m) :
    m.value = worth Dues.accruable (c.brought policy row w) := by
  simp only [incomeIn] at h
  -- With a due date the charge is selected as a whole, without one by its share.
  cases hdue : c.dueDate with
  | some due =>
    rw [hdue] at h
    rw [brought_of_due hdue]
    dsimp only at h
    split at h
    · next hselected =>
      rw [if_pos hselected, worth_some]
      exact (accruable_of_amounts hfine hsize h).2.1
    · next hselected =>
      rw [if_neg hselected, ← Except.ok.inj h, Money.value_zero, worth_none]
  | none =>
    rw [hdue] at h
    rw [brought_of_shares hdue]
    dsimp only at h
    split at h
    · next hno =>
      have hmissed : ¬(c.isInstallmentFee && decide (w.finish = row.dueDate)) = true := by
        simpa [imp_iff_not_or] using hno
      rw [if_neg hmissed, ← Except.ok.inj h, Money.value_zero, worth_none]
    · next hno =>
      have hfalls : (c.isInstallmentFee && decide (w.finish = row.dueDate)) = true := by
        simpa using hno
      rw [if_pos hfalls]
      cases hs : c.share? row.installment with
      | none =>
        rw [hs] at h
        rw [← Except.ok.inj h, Money.value_zero, Option.map_none, worth_none]
      | some s =>
        rw [hs] at h
        obtain ⟨hsFine, -, hsSize⟩ := amounts_of_share (List.mem_of_find?_eq_some hs) hfine hsize
        rw [Option.map_some, worth_some]
        exact (accruable_value hsFine hsSize h).2.1

end Charge

private theorem foldlM_addIncome_worth {penalty : Bool} {t u : Money}
    (hfine : ∀ a ∈ cs.flatMap Charge.amounts, a.Fine)
    (hsize : |t.value| + totalSize (cs.flatMap Charge.amounts) < 10 ^ 18) (ht : t.Fine)
    (h : cs.foldlM (Charge.addIncome penalty policy row w) t = .ok u) :
    u.value = t.value +
      Charge.total penalty (fun c => worth Dues.accruable (c.brought policy row w)) cs := by
  induction cs generalizing t with
  | nil =>
    rw [List.foldlM_nil, pure_eq_ok] at h
    rw [h, Charge.total_nil, add_zero]
  | cons c cs ih =>
    rw [List.flatMap_cons] at hfine hsize
    rw [totalSize_append] at hsize
    rw [List.foldlM_cons, bind_eq_ok] at h
    obtain ⟨v, hv, hrest⟩ := h
    have hown : ∀ a ∈ c.amounts, a.Fine := fun a ha => hfine a (List.mem_append_left _ ha)
    have hrestSize := totalSize_nonneg (cs.flatMap Charge.amounts)
    have htAbs := abs_nonneg t.value
    obtain ⟨hvFine, hvSize, hother, hkind⟩ := Charge.addIncome_value hown (by linarith) ht hv
    have hstep : v.value = t.value +
        if c.isPenalty = penalty then worth Dues.accruable (c.brought policy row w) else 0 := by
      split
      · next heq =>
        obtain ⟨m, hm, hvalue⟩ := hkind heq
        rw [hvalue, Charge.incomeIn_value hown (by linarith) hm]
      · next hne => rw [hother hne, add_zero]
    rw [ih (fun a ha => hfine a (List.mem_append_right _ ha)) (by linarith) hvFine hrest, hstep,
      Charge.total_cons]
    ring

theorem income_worth {penalty : Bool} {u : Money} (hfine : ∀ a ∈ cs.flatMap Charge.amounts, a.Fine)
    (hsize : totalSize (cs.flatMap Charge.amounts) < 10 ^ 18)
    (h : income penalty policy row w cs = .ok u) :
    u.value = Charge.total penalty (fun c => worth Dues.accruable (c.brought policy row w)) cs := by
  have hvalue := foldlM_addIncome_worth hfine
    (by rw [Money.value_zero, abs_zero, zero_add]; exact hsize) Money.fine_zero h
  rwa [Money.value_zero, zero_add] at hvalue

/-- What several rows bring in is, kind by kind, what the charges bring to them. -/
private theorem sum_total {penalty : Bool} (f : ScheduleRow → Charge → ℚ) (rows : List ScheduleRow) :
    (rows.map fun row => Charge.total penalty (f row) cs).sum =
      Charge.total penalty (fun c => (rows.map fun row => f row c).sum) cs := by
  induction rows with
  | nil => exact (Charge.total_eq_zero fun _ _ => rfl).symm
  | cons row rows ih =>
    rw [List.map_cons, List.sum_cons, ih, ← Charge.total_add]
    simp only [List.map_cons, List.sum_cons]

namespace Apportionment

/-- The income from fees, or from penalties. -/
def incomeOf (penalty : Bool) (a : Apportionment) : Money :=
  Money.orZero (if penalty then a.penaltyIncome else a.feeIncome)

/-- Charges in the exact range can be apportioned over any window, and the incomes are what they bring
to it. -/
theorem exists_ofCharges_of_figures (policy : ChargePolicy) (row : ScheduleRow) (w : Window)
    (hfine : ∀ a ∈ cs.flatMap Charge.figures, a.Fine)
    (hsize : totalSize (cs.flatMap Charge.figures) < 10 ^ 18) :
    ∃ a, ofCharges policy row w cs = .ok a ∧ ∀ penalty, (a.incomeOf penalty).value =
      Charge.total penalty (fun c => worth Dues.accruable (c.brought policy row w)) cs := by
  have hamounts := Charge.flatMap_amounts_sublist cs
  have hamountsFine : ∀ a ∈ cs.flatMap Charge.amounts, a.Fine :=
    fun a ha => hfine a (hamounts.subset ha)
  have hamountsSize := (totalSize_le_of_sublist hamounts).trans_lt hsize
  have hheld : ∀ c ∈ cs, c.Held (22 * 10 ^ 18) := fun c hc => by
    have := totalSize_flatMap_le (f := Charge.figures) hc
    exact Charge.held_of_size (by linarith)
  have hcapacity : Money.capacity = 7 * 10 ^ 28 := rfl
  obtain ⟨a, ha, -⟩ := exists_ofCharges_of_load policy row w hheld (by linarith) (by norm_num)
  refine ⟨a, ha, fun penalty => ?_⟩
  obtain ⟨fee, penaltyTotal, hfee, hpenalty, hfeeIncome, hpenaltyIncome⟩ := ofCharges_income ha
  cases penalty with
  | false =>
    simp only [incomeOf, Bool.false_eq_true, if_false]
    rw [hfeeIncome, Money.value_orZero_nonZero, income_worth hamountsFine hamountsSize hfee]
  | true =>
    simp only [incomeOf, if_true]
    rw [hpenaltyIncome, Money.value_orZero_nonZero, income_worth hamountsFine hamountsSize hpenalty]

end Apportionment

namespace ScheduleRow

/-- Each charge belongs to one row. A charge that is due within a schedule is selected by the period
of one row by its due date, and by its submission by that row or by none; another charge is selected
by none. In the exact range the rows bring in what can accrue on those charges, and on the shares of
installment fees for the rows, once each. -/
structure Exclusive (first : ScheduleRow) (rest : List ScheduleRow) (cs : List Charge) : Prop where
  within : ∀ c ∈ cs, ∀ due, c.dueDate = some due → first.fromDate ≤ due → due ≤ finish first rest →
    ∃ row, selecting .dueDate c due (first :: rest) = [row] ∧
      (selecting .submittedDate c due (first :: rest) = [row] ∨
        selecting .submittedDate c due (first :: rest) = [])
  outside : ∀ c ∈ cs, ∀ due, c.dueDate = some due →
    ¬(first.fromDate ≤ due ∧ due ≤ finish first rest) →
      ∀ policy, selecting policy c due (first :: rest) = []
  incomes : (∀ a ∈ cs.flatMap Charge.figures, a.Fine) →
    totalSize (cs.flatMap Charge.figures) < 10 ^ 18 →
      ∃ as, (first :: rest).mapM (fun row => Apportionment.ofCharges .dueDate row row.period cs) =
          .ok as ∧
        ∀ penalty, (as.map fun a => (a.incomeOf penalty).value).sum =
          Charge.total penalty (Charge.worthBetween first.fromDate (finish first rest)) cs +
            Charge.total penalty (Charge.worthOn (first :: rest)) cs
  shares : ∀ c ∈ cs, c.dueDate = none → c.isInstallmentFee = true →
    (c.shares.map (·.installment)).Nodup → c.worthOn (first :: rest) =
      ((c.shares.filter fun s => s.installment ∈ (first :: rest).map (·.installment)).map
        fun s => s.dues.accruable).sum

/-- On a schedule without gaps each charge belongs to one row. -/
theorem Full.exclusive {first : ScheduleRow} {rest : List ScheduleRow} (h : Full first rest)
    (cs : List Charge) : Exclusive first rest cs where
  within c _ due _ hfrom hlast := h.selecting_eq c hfrom hlast
  outside c _ due _ hout policy := h.selecting_eq_nil policy c hout
  incomes hfine hsize := by
    have hincomes := fun row : ScheduleRow =>
      Apportionment.exists_ofCharges_of_figures .dueDate row row.period hfine hsize
    obtain ⟨as, has⟩ := exists_mapM (l := first :: rest) fun row _ =>
      (hincomes row).imp fun a ha => ha.1
    refine ⟨as, has, fun penalty => ?_⟩
    have hvalues : as.map (fun a => (a.incomeOf penalty).value) = (first :: rest).map fun row =>
        Charge.total penalty
          (fun c => worth Dues.accruable (c.brought .dueDate row row.period)) cs := by
      refine (map_eq_of_forall₂ (mapM_eq_ok_iff.mp has) fun row a ha => ?_).symm
      obtain ⟨a', ha', hvalue⟩ := hincomes row
      obtain rfl : a' = a := Except.ok.inj (ha'.symm.trans ha)
      exact (hvalue penalty).symm
    rw [hvalues, sum_total, ← Charge.total_add]
    simp only [Charge.sum_worth h]
  shares c _ hdue hfee hshares := Charge.worthOn_of_nodup hdue hfee hshares h.gapFree.installments

end ScheduleRow

/-- A row without a day, on 2024-01-31. -/
def emptyRow : ScheduleRow :=
  monthlyRow 103 3 januaryRow.dueDate januaryRow.dueDate

/-- Fees due at the start of the first row, at its end and after the last row, a fee for two
installments, and a penalty. -/
def boundaryCharges : List Charge :=
  [tenFee 11 januaryRow.fromDate, tenFee 14 januaryRow.dueDate,
    tenFee 15 ⟨739252, by decide, by decide⟩, splitFee, latePenalty]

theorem exclusive_boundaryCharges :
    januaryRow.Exclusive [emptyRow, februaryRow] boundaryCharges ∧
    ((∀ a ∈ boundaryCharges.flatMap Charge.figures, a.Fine) ∧
      totalSize (boundaryCharges.flatMap Charge.figures) < 10 ^ 18) ∧
    [januaryRow, emptyRow, februaryRow].mapM (fun row =>
      (fun a => (a.feeIncome, a.penaltyIncome)) <$>
        Apportionment.ofCharges .dueDate row row.period boundaryCharges) =
      .ok [(some (cents 2300), none), (none, none), (some (cents 300), some (cents 1500))] := by
  refine ⟨ScheduleRow.Full.exclusive ⟨⟨?_, ?_, ?_, ?_⟩, ?_⟩ boundaryCharges, ⟨?_, ?_⟩, ?_⟩
  · decide
  · decide
  · decide
  · decide
  · decide
  · unfold Money.Fine
    decide +kernel
  · decide +kernel
  · decide +kernel

end LoanLedger
