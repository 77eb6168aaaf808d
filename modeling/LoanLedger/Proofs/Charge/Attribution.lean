import LoanLedger.Proofs.Charge.Dues
import LoanLedger.Proofs.Charge.Income

/-!
Which dues a charge brings to a window. On a schedule without gaps a charge with a due date belongs
to one row at most, and each share of an installment fee to the row of its installment; what a
charge brings to a window of its row is all accruable there once the window has been accrued.
-/

set_option autoImplicit false
set_option relaxedAutoImplicit false

namespace LoanLedger

variable {places : Nat} {policy : ChargePolicy} {row : ScheduleRow} {w : Window} {c d : Charge}
  {cs ds : List Charge} {a : Apportionment}

namespace Charge

/-- Whether a window of a row takes a charge in. One with a due date is selected by the policy, an
installment fee when the window reaches the due date of the row. -/
def falls (policy : ChargePolicy) (row : ScheduleRow) (w : Window) (c : Charge) : Bool :=
  match c.dueDate with
  | some due => c.selected policy due row w
  | none => c.isInstallmentFee && w.finish = row.dueDate

/-- The dues of a charge for an installment: its own if it has a due date, else those of a share. -/
def partOf? (c : Charge) (n : InstallmentNumber) : Option Dues :=
  match c.dueDate with
  | some _ => some c.dues
  | none => (c.share? n).map ChargeShare.dues

/-- The dues that a charge brings to a window of a row. -/
def brought (policy : ChargePolicy) (row : ScheduleRow) (w : Window) (c : Charge) : Option Dues :=
  if c.falls policy row w then c.partOf? row.installment else none

theorem partOf?_of_due {due : Date} (hdue : c.dueDate = some due) (n : InstallmentNumber) :
    c.partOf? n = some c.dues := by
  simp only [partOf?]
  rw [hdue]

theorem partOf?_of_shares (hdue : c.dueDate = none) (n : InstallmentNumber) :
    c.partOf? n = (c.share? n).map ChargeShare.dues := by
  simp only [partOf?]
  rw [hdue]

theorem mem_parts_of_partOf? {n : InstallmentNumber} {x : Dues} (h : c.partOf? n = some x) :
    x ∈ c.parts := by
  simp only [parts]
  cases hdue : c.dueDate with
  | some due =>
    rw [partOf?_of_due hdue] at h
    exact List.mem_singleton.mpr (Option.some.inj h).symm
  | none =>
    rw [partOf?_of_shares hdue] at h
    obtain ⟨s, hs, rfl⟩ := Option.map_eq_some_iff.mp h
    exact List.mem_map_of_mem (List.mem_of_find?_eq_some hs)

theorem brought_of_due {due : Date} (hdue : c.dueDate = some due) :
    c.brought policy row w = if c.selected policy due row w then some c.dues else none := by
  have hfalls : c.falls policy row w = c.selected policy due row w := by
    simp only [falls]
    rw [hdue]
  rw [brought, hfalls, partOf?_of_due hdue]

theorem brought_of_shares (hdue : c.dueDate = none) : c.brought policy row w =
    if c.isInstallmentFee && w.finish = row.dueDate then
      (c.share? row.installment).map ChargeShare.dues
    else none := by
  have hfalls : c.falls policy row w = (c.isInstallmentFee && w.finish = row.dueDate) := by
    simp only [falls]
    rw [hdue]
  rw [brought, hfalls, partOf?_of_shares hdue]

theorem brought_eq_some {x : Dues} : c.brought policy row w = some x ↔
    c.falls policy row w = true ∧ c.partOf? row.installment = some x := by
  simp [brought]

theorem mem_parts_of_brought {x : Dues} (h : c.brought policy row w = some x) : x ∈ c.parts :=
  mem_parts_of_partOf? (brought_eq_some.mp h).2

/-- A window that ends later, but by the due date of the row, takes in no less. -/
theorem falls_mono {till till' : Date} (hle : till ≤ till') (hdue : till' ≤ row.dueDate)
    (h : c.falls policy row ⟨row.fromDate, till⟩ = true) :
    c.falls policy row ⟨row.fromDate, till'⟩ = true := by
  simp only [falls] at h ⊢
  cases hc : c.dueDate with
  | some due =>
    rw [hc] at h
    exact selected_mono hle h
  | none =>
    rw [hc] at h
    simp only [Bool.and_eq_true, decide_eq_true_eq] at h ⊢
    exact ⟨h.1, Date.ext_day (Int.le_antisymm hdue (h.2 ▸ hle))⟩

theorem brought_period {till : Date} {x : Dues} (hdue : till ≤ row.dueDate)
    (h : c.brought policy row ⟨row.fromDate, till⟩ = some x) :
    c.brought policy row row.period = some x := by
  obtain ⟨hfalls, hpart⟩ := brought_eq_some.mp h
  exact brought_eq_some.mpr ⟨falls_mono hdue (Int.le_refl _) hfalls, hpart⟩

end Charge

/-- A value of dues that may not be there. -/
def worth (f : Dues → ℚ) (x : Option Dues) : ℚ := (x.map f).getD 0

@[simp] theorem worth_none (f : Dues → ℚ) : worth f none = 0 := rfl

@[simp] theorem worth_some (f : Dues → ℚ) (x : Dues) : worth f (some x) = f x := rfl

/-- What was allocated, if anything. -/
def Allocation.amountOf (o : Option Allocation) : Money := Money.orZero (o.map (·.amount))

/-- What a charge contributes to a window, as money: the income from the dues that it brings, and an
allocation of what is left to accrue on them. -/
structure Charge.Contributes (places : Nat) (x : Option Dues) (income : Money)
    (o : Option Allocation) : Prop where
  income : income.Plain places ∧ income.value = worth Dues.accruable x
  allocation : (Allocation.amountOf o).Plain places ∧
    (Allocation.amountOf o).value = worth Dues.remaining x
  nothing : x = none → o = none

namespace Charge

private theorem newlyAccruable_plain {x : Dues} (hx : x.Proper places) {accruable : Money}
    {delta : Option Money} (haccruable : accruable.Plain places)
    (hvalue : accruable.value = x.accruable) (h : newlyAccruable accruable x.accrued = .ok delta) :
    (Money.orZero delta).Plain places ∧ (Money.orZero delta).value = x.remaining := by
  have hle := hx.accrued_le
  simp only [newlyAccruable] at h
  split at h
  · next hnone =>
    -- nothing can accrue, or all of it has
    have hall : x.remaining = 0 := by
      simp only [Bool.or_eq_true, Bool.not_eq_true', decide_eq_true_eq] at hnone
      unfold Dues.remaining
      rcases hnone with hpos | hequiv
      · have hnot : ¬0 < accruable.value := by
          rw [Money.value_pos_iff, ← Money.isPositive_iff, hpos]
          exact Bool.false_ne_true
        linarith [hx.accrued.nonneg]
      · rw [Money.equiv_iff_value] at hequiv
        linarith
    cases h
    rw [Money.orZero_none, Money.value_zero, hall]
    exact ⟨Money.plain_zero, rfl⟩
  · obtain ⟨m, hm, h⟩ := bind_eq_ok.mp h
    obtain ⟨hplain, hmValue⟩ := haccruable.sub hx.accrued hm (hvalue ▸ hle)
    have hnot : ¬m.isNegative = true := by
      rw [Money.isNegative_iff, not_lt]
      exact Money.value_nonneg_iff.mp hplain.nonneg
    rw [if_neg hnot] at h
    rw [← pure_eq_ok.mp h, Money.orZero_some, hmValue, hvalue]
    exact ⟨hplain, rfl⟩

private theorem contribution_contributes {x : Dues} (hx : x.Proper places)
    {n : Option InstallmentNumber} {accruable income : Money} {o : Option Allocation}
    (haccruable : x.amount.sub x.unrecognized = .ok accruable)
    (h : c.contribution n accruable x.accrued = .ok (income, o)) :
    Contributes places (some x) income o := by
  have hle : x.unrecognized.value ≤ x.amount.value := sub_nonneg.mp hx.accruable_nonneg
  obtain ⟨hplain, hvalue⟩ := hx.amount.sub hx.unrecognized haccruable hle
  obtain ⟨delta, hdelta, h⟩ := bind_eq_ok.mp h
  cases pure_eq_ok.mp h
  have hnew := newlyAccruable_plain hx hplain hvalue hdelta
  refine ⟨⟨hplain, hvalue⟩, ?_, fun hnone => absurd hnone (Option.some_ne_none x)⟩
  cases delta <;> exact hnew

/-- A charge contributes by the dues that it brings. -/
theorem contributionTo_eq (policy : ChargePolicy) (row : ScheduleRow) (w : Window) (c : Charge) :
    c.contributionTo policy row w =
      match c.brought policy row w with
      | none => .ok (.zero, none)
      | some x => x.amount.sub x.unrecognized >>= fun accruable =>
        c.contribution (if c.dueDate.isSome then none else some row.installment) accruable
          x.accrued := by
  simp only [contributionTo]
  cases hdue : c.dueDate with
  | some due =>
    rw [brought_of_due hdue]
    dsimp only
    split <;> rfl
  | none =>
    rw [brought_of_shares hdue]
    dsimp only
    by_cases hfalls : (c.isInstallmentFee && decide (w.finish = row.dueDate)) = true
    · rw [if_pos hfalls, if_neg (by simpa using hfalls)]
      cases hs : c.share? row.installment with
      | none => rfl
      | some s =>
        have hn : s.installment = row.installment := by simpa using List.find?_some hs
        dsimp only [Option.map_some]
        rw [hn]
        rfl
    · rw [if_neg hfalls, if_pos (by simpa [imp_iff_not_or] using hfalls)]

/-- What an allocation of a charge was made from. -/
theorem contributionTo_some {m : Money} {y : Allocation}
    (h : c.contributionTo policy row w = .ok (m, some y)) :
    ∃ x, c.brought policy row w = some x ∧ x.amount.sub x.unrecognized = .ok m ∧
      newlyAccruable m x.accrued = .ok (some y.amount) := by
  rw [contributionTo_eq] at h
  cases hx : c.brought policy row w with
  | none =>
    rw [hx] at h
    cases h
  | some x =>
    rw [hx] at h
    obtain ⟨accruable, haccruable, h⟩ := bind_eq_ok.mp h
    obtain ⟨delta, hdelta, h⟩ := bind_eq_ok.mp h
    obtain ⟨rfl, hy⟩ := Prod.mk.inj (pure_eq_ok.mp h)
    obtain ⟨amount, rfl, rfl⟩ := Option.map_eq_some_iff.mp hy
    exact ⟨x, rfl, haccruable, hdelta⟩

/-- A charge contributes to a window as money what the dues that it brings are worth. -/
theorem contributionTo_contributes {income : Money} {o : Option Allocation} (hc : c.Proper places)
    (h : c.contributionTo policy row w = .ok (income, o)) :
    Contributes places (c.brought policy row w) income o := by
  rw [contributionTo_eq] at h
  cases hx : c.brought policy row w with
  | none =>
    rw [hx] at h
    cases h
    exact ⟨⟨Money.plain_zero, Money.value_zero⟩, ⟨Money.plain_zero, Money.value_zero⟩, fun _ => rfl⟩
  | some x =>
    rw [hx] at h
    obtain ⟨accruable, haccruable, h⟩ := bind_eq_ok.mp h
    exact contribution_contributes (hc.parts x (mem_parts_of_brought hx)) haccruable h

end Charge

namespace Apportionment

private theorem foldlM_include_contributions {t u : Tally}
    (h : cs.foldlM (Tally.include policy row w) t = .ok u) :
    ∃ os, List.Forall₂ (fun c o => ∃ m, c.contributionTo policy row w = .ok (m, o)) cs os ∧
      u.allocations = t.allocations ++ os.reduceOption := by
  induction cs generalizing t with
  | nil =>
    rw [List.foldlM_nil, pure_eq_ok] at h
    exact ⟨[], .nil, by rw [h, List.reduceOption_nil, List.append_nil]⟩
  | cons c cs ih =>
    rw [List.foldlM_cons, bind_eq_ok] at h
    obtain ⟨v, hv, hrest⟩ := h
    obtain ⟨os, hos, hallocations⟩ := ih hrest
    obtain ⟨⟨m, o⟩, hm, hadd⟩ := bind_eq_ok.mp hv
    have hstep : v.allocations = t.allocations ++ o.toList := by
      dsimp only at hadd
      split at hadd
      · obtain ⟨x, -, hv⟩ := bind_eq_ok.mp hadd
        rw [← pure_eq_ok.mp hv]
      · obtain ⟨x, -, hv⟩ := bind_eq_ok.mp hadd
        rw [← pure_eq_ok.mp hv]
    refine ⟨o :: os, .cons ⟨m, hm⟩ hos, ?_⟩
    rw [hallocations, hstep]
    cases o with
    | none => rw [Option.toList_none, List.append_nil, List.reduceOption_cons_of_none]
    | some x =>
      rw [Option.toList_some, List.append_assoc, List.singleton_append,
        List.reduceOption_cons_of_some]

theorem ofCharges_contributions (h : ofCharges policy row w cs = .ok a) :
    ∃ os, List.Forall₂ (fun c o => ∃ m, c.contributionTo policy row w = .ok (m, o)) cs os ∧
      a.allocations = os.reduceOption := by
  obtain ⟨t, ht, ha⟩ := bind_eq_ok.mp h
  obtain ⟨os, hos, hallocations⟩ := foldlM_include_contributions ht
  rw [← pure_eq_ok.mp ha]
  exact ⟨os, hos, hallocations⟩

theorem exists_contributionTo_of_mem (h : ofCharges policy row w cs = .ok a) {x : Allocation}
    (hx : x ∈ a.allocations) : ∃ c ∈ cs, ∃ m, c.contributionTo policy row w = .ok (m, some x) := by
  obtain ⟨os, hos, hallocations⟩ := ofCharges_contributions h
  rw [hallocations, List.reduceOption_mem_iff] at hx
  exact exists_mem_of_forall₂ hos.flip hx

/-- The allocation of a charge is the one that it contributes. -/
theorem allocationFor?_eq (h : ofCharges policy row w cs = .ok a) (hcs : (cs.map (·.id)).Nodup)
    (hc : c ∈ cs) :
    ∃ m, c.contributionTo policy row w = .ok (m, a.allocationFor? c.id) := by
  obtain ⟨os, hos, hallocations⟩ := ofCharges_contributions h
  obtain ⟨o, ho, m, hm⟩ := exists_mem_of_forall₂ hos hc
  refine ⟨m, ?_⟩
  suffices hfound : a.allocationFor? c.id = o by rw [hfound, hm]
  cases o with
  | some x =>
    have hx : x ∈ a.allocations := hallocations ▸ List.reduceOption_mem_iff.mpr ho
    have hid : x.chargeId = c.id := (Charge.contributionTo_isOf hm).chargeId
    simp only [allocationFor?]
    rw [← hid]
    exact find?_key_eq_some Allocation.chargeId (nodup_allocations h hcs) hx
  | none =>
    apply List.find?_eq_none.mpr
    intro x hx hid
    obtain ⟨d, hd, n, hn⟩ := exists_contributionTo_of_mem h hx
    have hdc : d = c := List.inj_on_of_nodup_map hcs hd hc
      ((Charge.contributionTo_isOf hn).chargeId.symm.trans (beq_iff_eq.mp hid))
    rw [hdc, hm] at hn
    cases hn

end Apportionment

/-- A charge after what it brought to a window has accrued: if it brought dues, all of them that is
accruable now is accrued, and dues that it did not bring are as they were. -/
structure Charge.AccruedIn (places : Nat) (policy : ChargePolicy) (row : ScheduleRow) (w : Window)
    (c d : Charge) : Prop where
  sameTerms : c.SameTerms d
  proper : d.Proper places
  missed : c.brought policy row w = none → d = c
  caught : ∀ x, c.brought policy row w = some x → ∃ m : Money, m.value = x.accruable ∧
    d.partOf? row.installment = some { x with accrued := m }
  elsewhere : c.dueDate = none → ∀ n, n ≠ row.installment → d.partOf? n = c.partOf? n

private theorem addAll_amountOf {x : Dues} (hx : x.Proper places) {o : Option Allocation}
    {m : Money}
    (ho : (Allocation.amountOf o).Plain places ∧ (Allocation.amountOf o).value = x.remaining)
    (h : x.accrued.addAll (o.toList.map (·.amount)) = .ok m) :
    m.Plain places ∧ m.value = x.accruable := by
  have hall : x.accrued.value + x.remaining = x.accruable := by
    unfold Dues.remaining
    ring
  cases o with
  | none =>
    rw [Option.toList_none, List.map_nil, Money.addAll_nil] at h
    have hnone : x.remaining = 0 := ho.2.symm.trans Money.value_zero
    rw [← Except.ok.inj h, ← hall, hnone, add_zero]
    exact ⟨hx.accrued, rfl⟩
  | some y =>
    rw [Option.toList_some, List.map_singleton, Money.addAll_singleton] at h
    obtain ⟨hplain, hmValue⟩ := hx.accrued.add ho.1 h
      (by rw [ho.2, hall]; linarith [hx.accruable_le, hx.amount.small])
    exact ⟨hplain, by rw [hmValue, ho.2, hall]⟩

private theorem Dues.Proper.accrueAll {x : Dues} (hx : x.Proper places) {m : Money}
    (hm : m.Plain places) (hvalue : m.value = x.accruable) :
    ({ x with accrued := m } : Dues).Proper places where
  plain := forall_mem_figures.mpr
    ⟨hx.amount, hx.paid, hx.waived, hx.adjusted, hm, hx.unrecognized⟩
  unrecognized_le := hx.unrecognized_le
  accrued_le := hvalue.le

/-- A share after the allocation of its charge: that of its installment was added to what had
accrued, and other shares are as they were. -/
theorem dues_of_advancedBy {s t : ChargeShare} {o : Option Allocation} {id : TransactionId}
    {n : InstallmentNumber}
    (h : s.AdvancedBy (o.toList.map fun x => ⟨id, x.chargeId, x.amount, n⟩) t) :
    (s.installment ≠ n → t.dues = s.dues) ∧
      (s.installment = n → s.accrued.addAll (o.toList.map (·.amount)) = .ok t.accrued ∧
        t.dues = { s.dues with accrued := t.accrued }) := by
  have hdues : t.dues = { s.dues with accrued := t.accrued } := by
    rw [h.terms]
    rfl
  have haccrued := h.accrued
  constructor
  · intro hne
    have hnone : (o.toList.map fun x => (⟨id, x.chargeId, x.amount, n⟩ : ChargePayment)).filter
        (fun p => p.installment = s.installment) = [] := by
      apply List.filter_eq_nil_iff.mpr
      intro p hp hinstallment
      obtain ⟨x, -, rfl⟩ := List.mem_map.mp hp
      exact hne (of_decide_eq_true hinstallment).symm
    rw [hnone, List.map_nil, Money.addAll_nil] at haccrued
    rw [hdues, ← Except.ok.inj haccrued]
    rfl
  · intro heq
    have hall : (o.toList.map fun x => (⟨id, x.chargeId, x.amount, n⟩ : ChargePayment)).filter
        (fun p => p.installment = s.installment) =
          o.toList.map fun x => ⟨id, x.chargeId, x.amount, n⟩ := by
      apply List.filter_eq_self.mpr
      intro p hp
      obtain ⟨x, -, rfl⟩ := List.mem_map.mp hp
      exact decide_eq_true heq.symm
    rw [hall, List.map_map] at haccrued
    exact ⟨haccrued, hdues⟩

private theorem Charge.AdvancedBy.sameTerms {paid : List ChargePayment} (h : c.AdvancedBy paid d) :
    c.SameTerms d := ⟨h.terms, h.shares.imp fun _ _ hst => hst.terms⟩

private theorem Charge.AdvancedBy.installments {paid : List ChargePayment}
    (h : c.AdvancedBy paid d) : d.shares.map (·.installment) = c.shares.map (·.installment) :=
  (map_eq_of_forall₂ h.shares fun _ _ hst => (congrArg (·.installment) hst.terms).symm).symm

private theorem Charge.AccruedIn.of_caught {x : Dues} {m : Money}
    (hx : c.brought policy row w = some x)
    (hterms : c.SameTerms d) (hproper : d.Proper places) (hm : m.value = x.accruable)
    (hpart : d.partOf? row.installment = some { x with accrued := m })
    (helsewhere : c.dueDate = none → ∀ n, n ≠ row.installment → d.partOf? n = c.partOf? n) :
    c.AccruedIn places policy row w d where
  sameTerms := hterms
  proper := hproper
  missed hnone := absurd (hx.symm.trans hnone) (Option.some_ne_none x)
  caught y hy := by
    obtain rfl : x = y := Option.some.inj (hx.symm.trans hy)
    exact ⟨m, hm, hpart⟩
  elsewhere := helsewhere

/-- A charge with a due date accrues all that it brings. -/
private theorem accruedIn_of_due {due : Date} (hdue : c.dueDate = some due)
    (hproper : c.Proper places) {paid : List ChargePayment} (hadvanced : c.AdvancedBy paid d)
    {x : Dues} (hx : c.brought policy row w = some x) {o : Option Allocation}
    (ho : (Allocation.amountOf o).Plain places ∧ (Allocation.amountOf o).value = x.remaining)
    (hpaid : (paid.filter fun p => p.chargeId = c.id).map (·.amount) = o.toList.map (·.amount)) :
    c.AccruedIn places policy row w d := by
  have hpart := (Charge.brought_eq_some.mp hx).2
  rw [Charge.partOf?_of_due hdue] at hpart
  obtain rfl : c.dues = x := Option.some.inj hpart
  have hown : c.dues.Proper places := hproper.own (hdue ▸ rfl)
  have haccrued := hadvanced.accrued
  rw [hpaid] at haccrued
  obtain ⟨hplain, hvalue⟩ := addAll_amountOf (x := c.dues) hown ho haccrued
  have hdues : d.dues = { c.dues with accrued := d.accrued } := by
    rw [hadvanced.terms]
    rfl
  have hdate : d.dueDate = c.dueDate := congrArg (·.dueDate) hadvanced.terms
  have hdated : c.dueDate ≠ none := hdue ▸ Option.some_ne_none due
  refine .of_caught hx hadvanced.sameTerms ?_ hvalue ?_ fun hnone => absurd hnone hdated
  · refine hproper.of_parts (congrArg (·.isInstallmentFee) hadvanced.terms) hdate
      hadvanced.installments (fun _ => ?_) fun hnone => absurd hnone hdated
    rw [hdues]
    exact hown.accrueAll hplain hvalue
  · rw [Charge.partOf?_of_due (hdate.trans hdue), hdues]

/-- An installment fee accrues all that the share of the installment brings. -/
private theorem accruedIn_of_shares (hdue : c.dueDate = none) (hproper : c.Proper places)
    {paid : List ChargePayment} (hadvanced : c.AdvancedBy paid d) {x : Dues}
    (hx : c.brought policy row w = some x) {o : Option Allocation} {id : TransactionId}
    (ho : (Allocation.amountOf o).Plain places ∧ (Allocation.amountOf o).value = x.remaining)
    (hpaid : (paid.filter fun p => p.chargeId = c.id) =
      o.toList.map fun x => ⟨id, x.chargeId, x.amount, row.installment⟩) :
    c.AccruedIn places policy row w d := by
  have hpart := (Charge.brought_eq_some.mp hx).2
  rw [Charge.partOf?_of_shares hdue] at hpart
  obtain ⟨s, hs, rfl⟩ := Option.map_eq_some_iff.mp hpart
  have hshares := hadvanced.shares
  rw [if_neg (by simp [hdue]), hpaid] at hshares
  have hdate : d.dueDate = c.dueDate := congrArg (·.dueDate) hadvanced.terms
  have hown : s.dues.Proper places := hproper.share hdue (List.mem_of_find?_eq_some hs)
  -- every share of the installment is the one that was found
  have haccrued : ∀ u ∈ c.shares, ∀ t, u.installment = row.installment →
      u.AdvancedBy (o.toList.map fun x => ⟨id, x.chargeId, x.amount, row.installment⟩) t →
      t.accrued.Plain places ∧ t.accrued.value = s.dues.accruable ∧
        t.dues = { s.dues with accrued := t.accrued } := by
    intro u hu t hn hut
    have hfound := find?_key_eq_some ChargeShare.installment (hproper.installments hdue) hu
    rw [hn] at hfound
    obtain rfl : u = s := Option.some.inj (hfound.symm.trans hs)
    obtain ⟨haccrued, hdues⟩ := (dues_of_advancedBy hut).2 hn
    obtain ⟨hplain, hvalue⟩ := addAll_amountOf (x := u.dues) hown ho haccrued
    exact ⟨hplain, hvalue, hdues⟩
  have hfound : ∀ n, Option.Rel (fun u t => (u.installment == n) = true ∧
      u.AdvancedBy (o.toList.map fun x => ⟨id, x.chargeId, x.amount, row.installment⟩) t)
      (c.share? n) (d.share? n) :=
    fun n => forall₂_find? hshares fun u t hut => by
      rw [show t.installment = u.installment from congrArg (·.installment) hut.terms]
  obtain ⟨t, ht, hn, hst⟩ := exists_of_rel_some (hs ▸ hfound row.installment)
  obtain ⟨-, hvalue, hdues⟩ :=
    haccrued s (List.mem_of_find?_eq_some hs) t (beq_iff_eq.mp hn) hst
  refine .of_caught hx hadvanced.sameTerms ?_ hvalue ?_ fun _ n hne => ?_
  · refine hproper.of_parts (congrArg (·.isInstallmentFee) hadvanced.terms) hdate
      hadvanced.installments (fun hsome => ?_) fun _ v hv => ?_
    · rw [hdue] at hsome
      cases hsome
    · obtain ⟨u, hu, huv⟩ := exists_mem_of_forall₂ hshares.flip hv
      by_cases hn : u.installment = row.installment
      · obtain ⟨hplain, hvalue, hdues⟩ := haccrued u hu v hn huv
        rw [hdues]
        exact hown.accrueAll hplain hvalue
      · rw [(dues_of_advancedBy huv).1 hn]
        exact hproper.share hdue hu
  · rw [Charge.partOf?_of_shares (hdate.trans hdue), ht, Option.map_some, hdues]
  · rw [Charge.partOf?_of_shares (hdate.trans hdue), Charge.partOf?_of_shares hdue]
    refine (map_eq_of_rel (hfound n) fun u v huv => ?_).symm
    exact ((dues_of_advancedBy huv.2).1 ((beq_iff_eq.mp huv.1).trans_ne hne)).symm

namespace Apportionment

/-- Accruing the allocations accrues on each charge what it brought to the window. -/
theorem advance_accruedIn (hof : ofCharges policy row w cs = .ok a) (hcs : (cs.map (·.id)).Nodup)
    (hc : c ∈ cs) (hproper : c.Proper places) (h : a.advance c = .ok d) :
    c.AccruedIn places policy row w d := by
  obtain ⟨income, hincome⟩ := allocationFor?_eq hof hcs hc
  have hcontributes := Charge.contributionTo_contributes hproper hincome
  cases hx : c.brought policy row w with
  | none =>
    simp only [advance] at h
    rw [hcontributes.nothing hx] at h
    obtain rfl : c = d := Except.ok.inj h
    exact ⟨.refl c, hproper, fun _ => rfl,
      fun y hy => absurd (hy.symm.trans hx) (Option.some_ne_none y), fun _ _ _ => rfl⟩
  | some x =>
    have hallocated := hcontributes.allocation
    rw [hx, worth_some] at hallocated
    have hadvanced := advance_advancedBy hof hcs hc h default
    have hpaid := filter_payments (c := c) (nodup_allocations hof hcs) default row.installment
    cases hdue : c.dueDate with
    | some due =>
      refine accruedIn_of_due hdue hproper hadvanced hx hallocated ?_
      rw [hpaid, List.map_map]
      rfl
    | none => exact accruedIn_of_shares hdue hproper hadvanced hx hallocated hpaid

theorem applyTo_accruedIn (hof : ofCharges policy row w cs = .ok a) (hcs : (cs.map (·.id)).Nodup)
    (hproper : ∀ c ∈ cs, c.Proper places) (h : a.applyTo cs = .ok ds) :
    List.Forall₂ (Charge.AccruedIn places policy row w) cs ds := by
  refine (forall₂_mem (mapM_eq_ok_iff.mp h)).imp ?_
  rintro c d ⟨hc, -, hcd⟩
  exact advance_accruedIn hof hcs hc (hproper c hc) hcd

end Apportionment
end LoanLedger
