import Mathlib.Algebra.Order.BigOperators.Group.Finset
import LoanLedger.Proofs.Charge.Soundness

/-!
Charges within capacity. Windows may bring in the same charge again and again, and rounding may
leave a little to accrue each time, so the allocations to a charge have no bound by their number.
They have one by what is left to accrue: each of them uses up of it, times eleven, at least its
own load.
-/

set_option autoImplicit false
set_option relaxedAutoImplicit false

namespace LoanLedger

variable {policy : ChargePolicy} {row : ScheduleRow} {w : Window} {c d : Charge}
  {cs ds : List Charge} {a : Apportionment} {bound : ℚ}

/-- How far what has accrued is below what can accrue. -/
def Dues.gap (x : Dues) : ℚ :=
  match x.amount.sub x.unrecognized with
  | .ok accruable => max (accruable.value - x.accrued.value) 0
  | .error _ => 0

namespace Dues

variable {x : Dues} {accruable delta : Money}

theorem gap_eq (h : x.amount.sub x.unrecognized = .ok accruable) :
    x.gap = max (accruable.value - x.accrued.value) 0 := by
  rw [gap, h]

theorem gap_nonneg (x : Dues) : 0 ≤ x.gap := by
  rw [gap]
  split
  · exact le_max_right _ _
  · exact le_rfl

theorem gap_le (x : Dues) : 11 * x.gap ≤ 12 * totalSize x.figures := by
  have hsize : |x.amount.value| + |x.unrecognized.value| + |x.accrued.value| ≤
      totalSize x.figures := by
    simp only [figures, totalSize_cons, totalSize_nil]
    linarith [abs_nonneg x.paid.value, abs_nonneg x.waived.value, abs_nonneg x.adjusted.value]
  have hamount := abs_nonneg x.amount.value
  have hunrecognized := abs_nonneg x.unrecognized.value
  have haccrued := abs_nonneg x.accrued.value
  rw [gap]
  split
  · next accruable h =>
    have hnear := (abs_le.mp (Money.sub_rounds h).near).2
    have hdiff := abs_sub x.amount.value x.unrecognized.value
    have hself := le_abs_self (x.amount.value - x.unrecognized.value)
    have hneg := neg_abs_le x.accrued.value
    rcases max_choice (accruable.value - x.accrued.value) 0 with hmax | hmax <;> rw [hmax]
    · linarith
    · linarith
  · linarith

/-- What is newly accruable is the gap, but for rounding. -/
private theorem newlyAccruable_near (h : x.amount.sub x.unrecognized = .ok accruable)
    (hdelta : Charge.newlyAccruable accruable x.accrued = .ok (some delta)) :
    0 ≤ delta.value ∧ x.gap = accruable.value - x.accrued.value ∧
      |delta.value - x.gap| ≤ x.gap / (7 * 10 ^ 26) := by
  obtain ⟨hsub, hnonneg⟩ := Charge.newlyAccruable_eq_some hdelta
  have hnear := (Money.sub_rounds hsub).near
  have hgap : 0 ≤ accruable.value - x.accrued.value := by
    by_contra hneg
    rw [abs_of_neg (not_le.mp hneg)] at hnear
    have := (abs_le.mp hnear).2
    linarith
  rw [gap_eq h, max_eq_left hgap]
  rw [abs_of_nonneg hgap] at hnear
  exact ⟨hnonneg, rfl, hnear⟩

/-- What accrues uses up of the gap, times eleven, at least its own load. -/
theorem gap_step (h : x.amount.sub x.unrecognized = .ok accruable)
    (hdelta : Charge.newlyAccruable accruable x.accrued = .ok (some delta)) {accrued : Money}
    (hadd : x.accrued.add delta = .ok accrued) :
    delta.load + 11 * ({ x with accrued } : Dues).gap ≤ 11 * x.gap := by
  obtain ⟨hnonneg, hgap, hnear⟩ := newlyAccruable_near h hdelta
  have hload := delta.load_le
  rw [abs_of_nonneg hnonneg] at hload
  have hle := (abs_le.mp hnear).2
  have hgapNonneg := x.gap_nonneg
  have hclose : |accrued.value - accruable.value| ≤ 10 * |delta.value - x.gap| := by
    have hclose := (Money.add_rounds hadd).close accruable
    rwa [show x.accrued.value + delta.value - accruable.value = delta.value - x.gap by
      rw [hgap]; ring] at hclose
  have hbelow := (abs_le.mp hclose).1
  have hrest : ({ x with accrued } : Dues).gap ≤ 10 * (x.gap / (7 * 10 ^ 26)) := by
    rw [gap_eq (x := { x with accrued }) h]
    exact max_le (by dsimp only; linarith) (by positivity)
  linarith

/-- What accrues has no more load than the gap, times eleven. -/
theorem load_le_gap (h : x.amount.sub x.unrecognized = .ok accruable)
    (hdelta : Charge.newlyAccruable accruable x.accrued = .ok (some delta)) :
    delta.load ≤ 11 * x.gap := by
  obtain ⟨hnonneg, -, hnear⟩ := newlyAccruable_near h hdelta
  have hload := delta.load_le
  rw [abs_of_nonneg hnonneg] at hload
  have hle := (abs_le.mp hnear).2
  have hgapNonneg := x.gap_nonneg
  linarith

end Dues

namespace Charge

theorem amounts_sublist (c : Charge) : c.amounts.Sublist c.figures := by
  have hdues : ∀ x : Dues, [x.amount, x.unrecognized].Sublist x.figures := fun x => by
    simp [Dues.figures]
  have hshares : (c.shares.flatMap ChargeShare.amounts).Sublist
      (c.shares.flatMap fun s => s.dues.figures) := by
    induction c.shares with
    | nil => exact .slnil
    | cons s ss ih =>
      rw [List.flatMap_cons, List.flatMap_cons]
      exact (hdues s.dues).append ih
  exact (hdues c.dues).append hshares

theorem flatMap_amounts_sublist (cs : List Charge) :
    (cs.flatMap amounts).Sublist (cs.flatMap figures) := by
  induction cs with
  | nil => exact .slnil
  | cons c cs ih =>
    rw [List.flatMap_cons, List.flatMap_cons]
    exact c.amounts_sublist.append ih

/-- How far a charge is below what can accrue on it; where it is spread over the schedule, the share
that an installment finds, for each installment. -/
def shortfall (c : Charge) : ℚ :=
  match c.dueDate with
  | some _ => c.dues.gap
  | none => ∑ n ∈ (c.shares.map (·.installment)).toFinset, worth Dues.gap (c.partOf? n)

theorem shortfall_of_due {due : Date} (hdue : c.dueDate = some due) :
    c.shortfall = c.dues.gap := by
  rw [shortfall, hdue]

theorem shortfall_of_shares (hdue : c.dueDate = none) : c.shortfall =
    ∑ n ∈ (c.shares.map (·.installment)).toFinset, worth Dues.gap (c.partOf? n) := by
  rw [shortfall, hdue]

private theorem worth_gap_nonneg (x : Option Dues) : 0 ≤ worth Dues.gap x := by
  cases x with
  | none => exact le_rfl
  | some x => exact x.gap_nonneg

private theorem mem_installments {n : InstallmentNumber} {s : ChargeShare}
    (hs : c.share? n = some s) : n ∈ (c.shares.map (·.installment)).toFinset := by
  have hn : s.installment = n := by simpa using List.find?_some hs
  rw [List.mem_toFinset, ← hn]
  exact List.mem_map_of_mem (List.mem_of_find?_eq_some hs)

/-- The gap of each part is one of those that make up the shortfall. -/
theorem gap_le_shortfall {n : InstallmentNumber} {x : Dues} (h : c.partOf? n = some x) :
    x.gap ≤ c.shortfall := by
  cases hdue : c.dueDate with
  | some due =>
    rw [partOf?_of_due hdue] at h
    rw [shortfall_of_due hdue, Option.some.inj h]
  | none =>
    have hpart := h
    rw [partOf?_of_shares hdue] at hpart
    obtain ⟨s, hs, -⟩ := Option.map_eq_some_iff.mp hpart
    have hsingle := Finset.single_le_sum (f := fun n => worth Dues.gap (c.partOf? n))
      (fun n _ => worth_gap_nonneg _) (mem_installments hs)
    rw [shortfall_of_shares hdue]
    rwa [h, worth_some] at hsingle

/-- Where only the part for one installment changes, the shortfall moves with the gap of that part. -/
private theorem shortfall_of_part (hdue : c.dueDate = none) (hdate : d.dueDate = none)
    (hinstallments : d.shares.map (·.installment) = c.shares.map (·.installment))
    {n : InstallmentNumber} {x y : Dues} (hx : c.partOf? n = some x) (hy : d.partOf? n = some y)
    (hother : ∀ k, k ≠ n → d.partOf? k = c.partOf? k) :
    d.shortfall + x.gap = c.shortfall + y.gap := by
  have hpart := hx
  rw [partOf?_of_shares hdue] at hpart
  obtain ⟨s, hs, -⟩ := Option.map_eq_some_iff.mp hpart
  have hmem := mem_installments hs
  have hrest : ∑ k ∈ ((c.shares.map (·.installment)).toFinset.erase n),
      worth Dues.gap (d.partOf? k) =
        ∑ k ∈ ((c.shares.map (·.installment)).toFinset.erase n), worth Dues.gap (c.partOf? k) :=
    Finset.sum_congr rfl fun k hk => by rw [hother k (Finset.ne_of_mem_erase hk)]
  rw [shortfall_of_shares hdue, shortfall_of_shares hdate, hinstallments,
    ← Finset.add_sum_erase _ _ hmem, ← Finset.add_sum_erase _ _ hmem, hrest, hx, hy, worth_some,
    worth_some]
  ring

/-- Elements found by their keys, for each key once, are worth no more than all elements. -/
private theorem sum_find?_le {α β : Type} [DecidableEq β] (key : α → β) {f : α → ℚ}
    (hf : ∀ x, 0 ≤ f x) (l : List α) :
    ∑ k ∈ (l.map key).toFinset, ((l.find? fun x => key x == k).map f).getD 0 ≤
      (l.map f).sum := by
  induction l with
  | nil => exact le_rfl
  | cons x l ih =>
    have hmem : key x ∈ ((x :: l).map key).toFinset := by simp
    have hsubset : ((x :: l).map key).toFinset.erase (key x) ⊆ (l.map key).toFinset := by
      rw [List.map_cons, List.toFinset_cons]
      exact Finset.erase_insert_subset _ _
    have hnonneg : ∀ k, 0 ≤ ((l.find? fun x => key x == k).map f).getD 0 := by
      intro k
      cases l.find? fun x => key x == k with
      | none => exact le_rfl
      | some y => exact hf y
    rw [← Finset.add_sum_erase _ _ hmem, List.map_cons (f := f), List.sum_cons]
    refine add_le_add ?_ (le_trans ?_ ih)
    · rw [List.find?_cons_of_pos (by simp)]
      exact le_rfl
    · refine le_trans (le_of_eq (Finset.sum_congr rfl fun k hk => ?_))
        (Finset.sum_le_sum_of_subset_of_nonneg hsubset fun k _ _ => hnonneg k)
      have hne : key x ≠ k := (Finset.ne_of_mem_erase hk).symm
      rw [List.find?_cons_of_neg (by simpa using hne)]

theorem shortfall_le (c : Charge) : 11 * c.shortfall ≤ 12 * totalSize c.figures := by
  have hsplit : totalSize c.figures = totalSize c.dues.figures +
      totalSize (c.shares.flatMap fun s => s.dues.figures) := totalSize_append _ _
  have hown := totalSize_nonneg c.dues.figures
  have hshares := totalSize_nonneg (c.shares.flatMap fun s => s.dues.figures)
  cases hdue : c.dueDate with
  | some due =>
    rw [shortfall_of_due hdue]
    have := c.dues.gap_le
    linarith
  | none =>
    have hfound := sum_find?_le ChargeShare.installment
      (f := fun s : ChargeShare => s.dues.gap) (fun s => s.dues.gap_nonneg) c.shares
    have hsum : c.shortfall ≤ (c.shares.map fun s => s.dues.gap).sum := by
      rw [shortfall_of_shares hdue]
      refine le_trans (le_of_eq (Finset.sum_congr rfl fun n _ => ?_)) hfound
      rw [partOf?_of_shares hdue, worth, Option.map_map]
      rfl
    have hgaps : (c.shares.map fun s => 11 / 12 * s.dues.gap).sum ≤
        totalSize (c.shares.flatMap fun s => s.dues.figures) :=
      sum_le_totalSize_flatMap fun s _ => by linarith [s.dues.gap_le]
    rw [List.sum_map_mul_left] at hgaps
    linarith

/-- Whatever accrued on a charge and its shares leaves room for all that may still accrue. -/
structure Held (bound : ℚ) (c : Charge) : Prop where
  own : c.accrued.load + 11 * c.shortfall ≤ bound
  shares : ∀ s ∈ c.shares, s.accrued.load + 11 * c.shortfall ≤ bound

theorem held_of_size (h : 22 * totalSize c.figures ≤ bound) : c.Held bound := by
  have hshortfall := c.shortfall_le
  refine ⟨?_, fun s hs => ?_⟩
  · have hmem : c.accrued ∈ c.figures := List.mem_append_left _ (by simp [dues, Dues.figures])
    have := Money.load_le_of_mem hmem
    linarith
  · have hmem : s.accrued ∈ c.figures := List.mem_append_right _
      (List.mem_flatMap.mpr ⟨s, hs, by simp [ChargeShare.dues, Dues.figures]⟩)
    have := Money.load_le_of_mem hmem
    linarith

/-- What has accrued on a part leaves room for its gap. -/
theorem Held.part (h : c.Held bound) {n : InstallmentNumber} {x : Dues}
    (hx : c.partOf? n = some x) : x.accrued.load + 11 * x.gap ≤ bound := by
  have hgap := gap_le_shortfall hx
  cases hdue : c.dueDate with
  | some due =>
    rw [partOf?_of_due hdue] at hx
    have hown := h.own
    rw [← Option.some.inj hx] at hgap ⊢
    have hsame : c.dues.accrued = c.accrued := rfl
    rw [hsame]
    linarith
  | none =>
    rw [partOf?_of_shares hdue] at hx
    obtain ⟨s, hs, rfl⟩ := Option.map_eq_some_iff.mp hx
    have hshare := h.shares s (List.mem_of_find?_eq_some hs)
    have hsame : s.dues.accrued = s.accrued := rfl
    rw [hsame]
    linarith

/-- The amounts that decide what can accrue on a part are among those of the charge. -/
private theorem part_size {n : InstallmentNumber} {x : Dues} (hx : c.partOf? n = some x) :
    |x.amount.value| + |x.unrecognized.value| ≤ totalSize c.amounts := by
  have hsplit : totalSize c.amounts = totalSize [c.amount, c.unrecognized] +
      totalSize (c.shares.flatMap ChargeShare.amounts) := totalSize_append _ _
  rw [totalSize_cons, totalSize_cons, totalSize_nil] at hsplit
  cases hdue : c.dueDate with
  | some due =>
    have hshares := totalSize_nonneg (c.shares.flatMap ChargeShare.amounts)
    rw [partOf?_of_due hdue] at hx
    rw [← Option.some.inj hx]
    simp only [dues]
    linarith
  | none =>
    have hamount := abs_nonneg c.amount.value
    have hunrecognized := abs_nonneg c.unrecognized.value
    rw [partOf?_of_shares hdue] at hx
    obtain ⟨s, hs, rfl⟩ := Option.map_eq_some_iff.mp hx
    have hle := totalSize_flatMap_le (f := ChargeShare.amounts) (List.mem_of_find?_eq_some hs)
    rw [ChargeShare.amounts, totalSize_cons, totalSize_cons, totalSize_nil] at hle
    simp only [ChargeShare.dues]
    linarith

/-- A charge within capacity has its contribution, with no more income than its amounts load. -/
theorem exists_contributionTo_of_load (policy : ChargePolicy) (row : ScheduleRow) (w : Window)
    (hheld : c.Held bound) (h : 10 * totalSize c.amounts + bound ≤ Money.capacity) :
    ∃ m o, c.contributionTo policy row w = .ok (m, o) ∧ m.load ≤ 10 * totalSize c.amounts := by
  have hsize := totalSize_nonneg c.amounts
  rw [contributionTo_eq]
  cases hx : c.brought policy row w with
  | none => exact ⟨.zero, none, rfl, by rw [Money.load_zero]; linarith⟩
  | some x =>
    have hpart := (brought_eq_some.mp hx).2
    have hxSize := part_size hpart
    have hroom := hheld.part hpart
    have hgap := x.gap_nonneg
    have haccrued := x.accrued.load_nonneg
    have hamount := x.amount.load_le
    have hunrecognized := x.unrecognized.load_le
    obtain ⟨m, hm, hload⟩ :=
      Money.exists_sub_of_load (a := x.amount) (b := x.unrecognized) (by linarith)
    have hopen : 0 < m.value → ∃ delta, m.sub x.accrued = .ok delta := fun _ => by
      obtain ⟨delta, hdelta, -⟩ :=
        Money.exists_sub_of_load (a := m) (b := x.accrued) (by linarith)
      exact ⟨delta, hdelta⟩
    obtain ⟨⟨income, o⟩, ho⟩ := exists_contribution_of c
      (if c.dueDate.isSome then none else some row.installment) hopen
    obtain rfl : m = income := by
      obtain ⟨delta, -, hpair⟩ := bind_eq_ok.mp ho
      exact congrArg Prod.fst (pure_eq_ok.mp hpair)
    exact ⟨m, o, bind_eq_ok.mpr ⟨m, hm, ho⟩, by linarith⟩

end Charge

namespace Apportionment

private theorem advanceShare_cases {y : Allocation} {s t : ChargeShare}
    (h : advanceShare y s = .ok t) :
    (y.installment = some s.installment ∧ ∃ b, s.accrued.add y.amount = .ok b ∧
      t = { s with accruedSoFar := some b }) ∨
    (y.installment ≠ some s.installment ∧ t = s) := by
  simp only [advanceShare] at h
  split at h
  · next hn =>
    obtain ⟨b, hb, ht⟩ := bind_eq_ok.mp h
    exact .inl ⟨hn, b, hb, (pure_eq_ok.mp ht).symm⟩
  · next hn => exact .inr ⟨hn, (Except.ok.inj h).symm⟩

/-- Shares after an allocation to an installment: those of other installments are as they were, and
to the one that is found for the installment the allocation was added. -/
private theorem share?_advanced {y : Allocation} {ss ts : List ChargeShare} {n : InstallmentNumber}
    (hn : y.installment = some n)
    (h : List.Forall₂ (fun s t => advanceShare y s = .ok t) ss ts) (k : InstallmentNumber) :
    Option.Rel (fun s t => (k ≠ n → t = s) ∧ (k = n → ∃ b, s.accrued.add y.amount = .ok b ∧
        t = { s with accruedSoFar := some b }))
      (ss.find? fun s => s.installment == k) (ts.find? fun s => s.installment == k) := by
  have hsame : ∀ s t, advanceShare y s = .ok t →
      (s.installment == k) = (t.installment == k) := by
    intro s t hst
    rcases advanceShare_cases hst with ⟨-, b, -, rfl⟩ | ⟨-, rfl⟩ <;> rfl
  have hfound := forall₂_find? h hsame
  generalize ss.find? (fun s => s.installment == k) = found at hfound
  generalize ts.find? (fun s => s.installment == k) = found' at hfound
  cases hfound with
  | none => exact .none
  | some hst =>
    obtain ⟨hk, hst⟩ := hst
    have hk := beq_iff_eq.mp hk
    refine .some ?_
    rcases advanceShare_cases hst with ⟨hs, b, hb, ht⟩ | ⟨hs, ht⟩
    · have hkn : k = n := by rw [← hk, ← Option.some.inj (hs.symm.trans hn)]
      exact ⟨fun hne => absurd hkn hne, fun _ => ⟨b, hb, ht⟩⟩
    · exact ⟨fun _ => ht, fun hkn => absurd (by rw [hn, hk, hkn]) hs⟩

/-- An allocation uses up of the shortfall of its charge, times eleven, at least its own load. -/
private theorem shortfall_step {y : Allocation} {x : Dues} {m b : Money} {ts : List ChargeShare}
    (hpart : c.partOf? row.installment = some x) (hm : x.amount.sub x.unrecognized = .ok m)
    (hdelta : Charge.newlyAccruable m x.accrued = .ok (some y.amount))
    (hn : y.installment = if c.dueDate.isSome then none else some row.installment)
    (hb : c.accrued.add y.amount = .ok b)
    (hshares : List.Forall₂ (fun s t => advanceShare y s = .ok t) c.shares ts) :
    y.amount.load + 11 * ({ c with accruedSoFar := some b, shares := ts } : Charge).shortfall ≤
      11 * c.shortfall := by
  obtain ⟨d, hd⟩ : ∃ d : Charge, d = { c with accruedSoFar := some b, shares := ts } := ⟨_, rfl⟩
  rw [← hd]
  have hdate : d.dueDate = c.dueDate := by rw [hd]
  cases hdue : c.dueDate with
  | some due =>
    rw [Charge.partOf?_of_due hdue] at hpart
    obtain rfl : c.dues = x := Option.some.inj hpart
    have hdues : d.dues = { c.dues with accrued := b } := by
      rw [hd]
      rfl
    rw [Charge.shortfall_of_due hdue, Charge.shortfall_of_due (hdate.trans hdue), hdues]
    exact Dues.gap_step hm hdelta hb
  | none =>
    rw [hdue] at hn
    have hfound := share?_advanced hn hshares
    have hpartOf : ∀ k, d.partOf? k = (ts.find? fun s => s.installment == k).map ChargeShare.dues :=
      fun k => by
        rw [Charge.partOf?_of_shares (hdate.trans hdue), Charge.share?, hd]
    -- Only the share of the row moves, so of the sum over the installments one term changes.
    have hother : ∀ k, k ≠ row.installment → d.partOf? k = c.partOf? k := by
      intro k hk
      rw [hpartOf, Charge.partOf?_of_shares hdue]
      exact (map_eq_of_rel (hfound k) fun s t hst => by rw [hst.1 hk]).symm
    have hinstallments : d.shares.map (·.installment) = c.shares.map (·.installment) := by
      rw [hd]
      refine (map_eq_of_forall₂ hshares fun s t hst => ?_).symm
      rcases advanceShare_cases hst with ⟨-, b, -, rfl⟩ | ⟨-, rfl⟩ <;> rfl
    have hshare := hpart
    rw [Charge.partOf?_of_shares hdue] at hshare
    obtain ⟨s, hs, rfl⟩ := Option.map_eq_some_iff.mp hshare
    have hfirst : (c.shares.find? fun s => s.installment == row.installment) = some s := hs
    obtain ⟨t, ht, -, hst⟩ := exists_of_rel_some (hfirst ▸ hfound row.installment)
    obtain ⟨b', hb', rfl⟩ := hst rfl
    have hnew : d.partOf? row.installment = some { s.dues with accrued := b' } := by
      rw [hpartOf, ht]
      rfl
    have hstep := Dues.gap_step (x := s.dues) hm hdelta hb'
    have hmoved := Charge.shortfall_of_part hdue (hdate.trans hdue) hinstallments hpart hnew hother
    linarith

/-- Within capacity the allocation of a charge can accrue on it, and leaves it within capacity. -/
theorem exists_advance_of_load (hheld : c.Held bound) (hbound : bound ≤ Money.capacity) {m : Money}
    (h : c.contributionTo policy row w = .ok (m, a.allocationFor? c.id)) :
    ∃ d, a.advance c = .ok d ∧ d.Held bound := by
  simp only [advance]
  cases hy : a.allocationFor? c.id with
  | none => exact ⟨c, rfl, hheld⟩
  | some y =>
    rw [hy] at h
    have hn := (Charge.contributionTo_isOf h).installment
    obtain ⟨x, hx, hm, hdelta⟩ := Charge.contributionTo_some h
    have hpart := (Charge.brought_eq_some.mp hx).2
    have hload := Dues.load_le_gap hm hdelta
    have hgap := Charge.gap_le_shortfall hpart
    -- The charge and each of its shares have room for what still accrues, and this is part of it.
    have hroom : ∀ {accrued : Money}, accrued.load + 11 * c.shortfall ≤ bound →
        ∃ b, accrued.add y.amount = .ok b ∧ b.load ≤ accrued.load + y.amount.load :=
      fun haccrued => Money.exists_add_of_load (by linarith)
    obtain ⟨b, hb, hbLoad⟩ := hroom hheld.own
    obtain ⟨ts, hts⟩ := exists_mapM (f := advanceShare y) (l := c.shares) fun s hs => by
      obtain ⟨b', hb', -⟩ := hroom (hheld.shares s hs)
      simp only [advanceShare]
      split
      · exact ⟨_, bind_eq_ok.mpr ⟨b', hb', rfl⟩⟩
      · exact ⟨s, rfl⟩
    have hshares := mapM_eq_ok_iff.mp hts
    have hstep := shortfall_step hpart hm hdelta hn hb hshares
    have hnonneg := y.amount.load_nonneg
    refine ⟨{ c with accruedSoFar := some b, shares := ts },
      bind_eq_ok.mpr ⟨b, hb, bind_eq_ok.mpr ⟨ts, hts, rfl⟩⟩, ⟨?_, fun t ht => ?_⟩⟩
    · have hown := hheld.own
      show b.load + _ ≤ bound
      linarith
    · obtain ⟨s, hs, hst⟩ := exists_mem_of_forall₂ hshares.flip ht
      have hshare := hheld.shares s hs
      rcases advanceShare_cases hst with ⟨-, b', hb', rfl⟩ | ⟨-, rfl⟩
      · obtain ⟨e, he, heLoad⟩ := hroom hshare
        rw [hb'] at he
        cases he
        show b'.load + _ ≤ bound
        linarith
      · linarith

/-- Charges within capacity can be apportioned, and bring no more income than their amounts load. -/
theorem exists_ofCharges_of_load (policy : ChargePolicy) (row : ScheduleRow) (w : Window)
    (hheld : ∀ c ∈ cs, c.Held bound)
    (h : 10 * totalSize (cs.flatMap Charge.amounts) + bound ≤ Money.capacity)
    (hbound : 0 ≤ bound) :
    ∃ a, ofCharges policy row w cs = .ok a ∧
      (Money.orZero a.feeIncome).load + (Money.orZero a.penaltyIncome).load ≤
        10 * totalSize (cs.flatMap Charge.amounts) := by
  have hsum : (cs.map fun c => 10 * totalSize c.amounts).sum =
      10 * totalSize (cs.flatMap Charge.amounts) := by
    rw [List.sum_map_mul_left, ← totalSize_flatMap]
  rw [← hsum]
  refine exists_ofCharges_of policy row w _ (by linarith) fun c hc => ?_
  have hsize := totalSize_flatMap_le (f := Charge.amounts) hc
  exact Charge.exists_contributionTo_of_load policy row w (hheld c hc) (by linarith)

/-- Within capacity all allocations can accrue, and leave the charges within capacity. -/
theorem exists_applyTo_of_load (hof : ofCharges policy row w cs = .ok a)
    (hcs : (cs.map (·.id)).Nodup) (hheld : ∀ c ∈ cs, c.Held bound)
    (hbound : bound ≤ Money.capacity) :
    ∃ ds, a.applyTo cs = .ok ds ∧ ∀ d ∈ ds, d.Held bound := by
  have hadvance : ∀ c ∈ cs, ∃ d, a.advance c = .ok d ∧ d.Held bound := fun c hc => by
    obtain ⟨m, hm⟩ := allocationFor?_eq hof hcs hc
    exact exists_advance_of_load (hheld c hc) hbound hm
  obtain ⟨ds, hds⟩ := exists_mapM (f := a.advance) (l := cs) fun c hc =>
    (hadvance c hc).imp fun d hd => hd.1
  refine ⟨ds, hds, fun d hd => ?_⟩
  obtain ⟨c, hc, hcd⟩ := exists_mem_of_forall₂ (mapM_eq_ok_iff.mp hds).flip hd
  obtain ⟨d', hd', hheld'⟩ := hadvance c hc
  rw [hcd] at hd'
  exact Except.ok.inj hd' ▸ hheld'

end Apportionment
end LoanLedger
