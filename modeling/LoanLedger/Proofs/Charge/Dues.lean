import LoanLedger.Charge.Relief
import LoanLedger.Proofs.Lists
import LoanLedger.Proofs.Money.Whole

/-!
What is due on charges. Income accrues on the dues of a charge or, where it is spread over the
schedule, on the dues of its shares; a waiver and its undoing leave what has accrued alone, and
never make it more than what can accrue.
-/

set_option autoImplicit false
set_option relaxedAutoImplicit false

namespace LoanLedger

/-- What is due on a charge or a share, and what has become of it. -/
structure Dues where
  amount : Money
  paid : Money
  waived : Money
  adjusted : Money
  accrued : Money
  unrecognized : Money

namespace Dues

/-- All amounts of the dues. -/
def figures (d : Dues) : List Money :=
  [d.amount, d.paid, d.waived, d.adjusted, d.accrued, d.unrecognized]

theorem forall_mem_figures {d : Dues} {P : Money → Prop} : (∀ a ∈ d.figures, P a) ↔
    P d.amount ∧ P d.paid ∧ P d.waived ∧ P d.adjusted ∧ P d.accrued ∧ P d.unrecognized := by
  simp [figures]

/-- The most that can ever accrue. -/
def accruable (d : Dues) : ℚ := d.amount.value - d.unrecognized.value

/-- What is left to accrue. -/
def remaining (d : Dues) : ℚ := d.accruable - d.accrued.value

/-- What is neither paid nor waived nor adjusted. -/
def owed (d : Dues) : ℚ :=
  max (d.amount.value - (d.paid.value + d.waived.value + d.adjusted.value)) 0

/-- Plain amounts of which no more has accrued than can accrue. -/
structure Proper (places : Nat) (d : Dues) : Prop where
  plain : ∀ a ∈ d.figures, a.Plain places
  unrecognized_le : d.unrecognized.value ≤ d.waived.value
  accrued_le : d.accrued.value ≤ d.accruable

namespace Proper

variable {places : Nat} {d : Dues}

theorem amount (h : d.Proper places) : d.amount.Plain places := h.plain _ (by simp [figures])

theorem paid (h : d.Proper places) : d.paid.Plain places := h.plain _ (by simp [figures])

theorem waived (h : d.Proper places) : d.waived.Plain places := h.plain _ (by simp [figures])

theorem adjusted (h : d.Proper places) : d.adjusted.Plain places := h.plain _ (by simp [figures])

theorem accrued (h : d.Proper places) : d.accrued.Plain places := h.plain _ (by simp [figures])

theorem unrecognized (h : d.Proper places) : d.unrecognized.Plain places :=
  h.plain _ (by simp [figures])

theorem fresh {amount : Money} (h : amount.Plain places) :
    (⟨amount, .zero, .zero, .zero, .zero, .zero⟩ : Dues).Proper places where
  plain := forall_mem_figures.mpr
    ⟨h, Money.plain_zero, Money.plain_zero, Money.plain_zero, Money.plain_zero, Money.plain_zero⟩
  unrecognized_le := le_rfl
  accrued_le := by
    rw [accruable, Money.value_zero, sub_zero]
    exact h.nonneg

theorem remaining_nonneg (h : d.Proper places) : 0 ≤ d.remaining := sub_nonneg.mpr h.accrued_le

theorem accruable_le (h : d.Proper places) : d.accruable ≤ d.amount.value :=
  sub_le_self _ h.unrecognized.nonneg

theorem accruable_nonneg (h : d.Proper places) : 0 ≤ d.accruable :=
  h.accrued.nonneg.trans h.accrued_le

/-- Dues stay proper when other amounts of them are waived, as long as what has accrued stays
accruable. -/
theorem relieved (h : d.Proper places) {waived unrecognized : Money} (hwaived : waived.Plain places)
    (hunrecognized : unrecognized.Plain places) (hle : unrecognized.value ≤ waived.value)
    (haccrued : d.accrued.value ≤ d.amount.value - unrecognized.value) :
    ({ d with waived, unrecognized } : Dues).Proper places where
  plain := forall_mem_figures.mpr
    ⟨h.amount, h.paid, hwaived, h.adjusted, h.accrued, hunrecognized⟩
  unrecognized_le := hle
  accrued_le := haccrued

theorem owed_of_monus (h : d.Proper places) {taken amount : Money} (hfine : taken.Fine)
    (hvalue : taken.value = d.paid.value + d.waived.value + d.adjusted.value)
    (hamount : d.amount.monus taken = .ok amount) :
    amount.Plain places ∧ amount.value = d.owed := by
  have hpaid := h.paid
  have hwaived := h.waived
  have hadjusted := h.adjusted
  obtain ⟨hplain, hamountValue⟩ := h.amount.monus hfine
    (hvalue ▸ add_mem (add_mem hpaid.whole hwaived.whole) hadjusted.whole)
    (by rw [hvalue]; linarith [hpaid.nonneg, hwaived.nonneg, hadjusted.nonneg])
    (by rw [hvalue]; linarith [hpaid.small, hwaived.small, hadjusted.small]) hamount
  exact ⟨hplain, by rw [hamountValue, hvalue, owed]⟩

/-- Of a waiver of all that is owed, the part that had not accrued leaves what has accrued
accruable. -/
theorem waivedPart (h : d.Proper places) {amount recognized part : Money}
    (hamount : amount.Plain places ∧ amount.value = d.owed)
    (hrecognized : Charge.recognizedPart amount d.accrued d.paid = .ok recognized)
    (hpart : amount.sub recognized = .ok part) :
    part.Plain places ∧ part.value ≤ amount.value ∧
      d.accrued.value ≤ d.amount.value - (d.unrecognized.value + part.value) := by
  obtain ⟨unpaid, hunpaid, hmin⟩ := bind_eq_ok.mp hrecognized
  obtain ⟨hunpaidPlain, hunpaidValue⟩ := h.accrued.monus h.paid.fine h.paid.whole h.paid.nonneg
    (by linarith [h.paid.small]) hunpaid
  obtain ⟨hrecognizedPlain, hrecognizedValue⟩ := hamount.1.min hunpaidPlain
  rw [pure_eq_ok.mp hmin] at hrecognizedPlain hrecognizedValue
  rw [hunpaidValue, hamount.2] at hrecognizedValue
  have hle : recognized.value ≤ amount.value := by
    rw [hrecognizedValue, hamount.2]
    exact min_le_left _ _
  obtain ⟨hpartPlain, hpartValue⟩ := hamount.1.sub hrecognizedPlain hpart hle
  refine ⟨hpartPlain, by linarith [hrecognizedPlain.nonneg], ?_⟩
  rw [hamount.2] at hpartValue
  have hunpaidLe : d.accrued.value - d.paid.value ≤ max (d.accrued.value - d.paid.value) 0 :=
    le_max_left _ _
  have haccrued := h.accrued_le
  have hcovered := h.unrecognized_le
  simp only [accruable] at haccrued
  -- either nothing is owed, and nothing changes, or all that is owed is waived
  rcases max_choice (d.amount.value - (d.paid.value + d.waived.value + d.adjusted.value)) 0 with
    howed | howed
  · have howed : d.owed = _ := howed
    rcases min_choice d.owed (max (d.accrued.value - d.paid.value) 0) with hmin | hmin <;>
      rw [hmin] at hrecognizedValue <;> linarith [h.adjusted.nonneg]
  · have howed : d.owed = 0 := howed
    have hnone : recognized.value = 0 := by
      rw [hrecognizedValue, howed]
      exact min_eq_left (le_max_right _ _)
    linarith

/-- With all that is owed, no more is waived than before or than the dues amount to. -/
theorem waived_add_owed_le (h : d.Proper places) :
    d.waived.value + d.owed ≤ max d.amount.value d.waived.value := by
  rcases max_choice (d.amount.value - (d.paid.value + d.waived.value + d.adjusted.value)) 0 with
    howed | howed
  · have howed : d.owed = _ := howed
    exact le_max_of_le_left (by linarith [h.paid.nonneg, h.adjusted.nonneg])
  · have howed : d.owed = 0 := howed
    exact le_max_of_le_right (by linarith)

/-- A waiver of all that is owed keeps dues proper: the part of it that had accrued and was not paid
stays accruable. -/
theorem waive (h : d.Proper places) {amount recognized part waived total : Money}
    (hamount : amount.Plain places ∧ amount.value = d.owed)
    (hrecognized : Charge.recognizedPart amount d.accrued d.paid = .ok recognized)
    (hpart : amount.sub recognized = .ok part) (hwaived : d.waived.add amount = .ok waived)
    (htotal : d.unrecognized.add part = .ok total) {unrecognized : Money}
    (hunrecognized : unrecognized = total ∨ unrecognized = Money.orZero total.nonZero) :
    ({ d with waived, unrecognized } : Dues).Proper places := by
  obtain ⟨hpartPlain, hpartLe, hkept⟩ := h.waivedPart hamount hrecognized hpart
  have hcovered := h.unrecognized_le
  have htotalSmall : d.unrecognized.value + part.value < 10 ^ 18 := by
    linarith [h.accrued.nonneg, h.amount.small]
  have hwaivedSmall : d.waived.value + amount.value < 10 ^ 18 := by
    rw [hamount.2]
    exact h.waived_add_owed_le.trans_lt (max_lt h.amount.small h.waived.small)
  obtain ⟨htotalPlain, htotalValue⟩ := h.unrecognized.add hpartPlain htotal htotalSmall
  obtain ⟨hwaivedPlain, hwaivedValue⟩ := h.waived.add hamount.1 hwaived hwaivedSmall
  have hcase : unrecognized.Plain places ∧ unrecognized.value = total.value := by
    rcases hunrecognized with rfl | rfl
    · exact ⟨htotalPlain, rfl⟩
    · exact ⟨htotalPlain.orZero_nonZero, Money.value_orZero_nonZero total⟩
  refine h.relieved hwaivedPlain hcase.1 ?_ ?_
  · rw [hcase.2, htotalValue, hwaivedValue]
    linarith
  · rw [hcase.2, htotalValue]
    exact hkept

theorem restore (h : d.Proper places) {waived unrecognized : Money} (hwaived : waived.Plain places)
    (hunrecognized : unrecognized.Plain places) (hzero : unrecognized.value = 0) :
    ({ d with waived, unrecognized } : Dues).Proper places := by
  refine h.relieved hwaived hunrecognized (hzero ▸ hwaived.nonneg) ?_
  rw [hzero, sub_zero]
  exact h.accrued_le.trans h.accruable_le

end Proper
end Dues

/-- The dues of a share. Shares are not adjusted. -/
def ChargeShare.dues (s : ChargeShare) : Dues :=
  ⟨s.amount, s.paid, s.waived, .zero, s.accrued, s.unrecognized⟩

namespace Charge

/-- The dues of a charge itself. -/
def dues (c : Charge) : Dues :=
  ⟨c.amount, c.paid, c.waived, c.adjusted, c.accrued, c.unrecognized⟩

/-- The dues that accrue: those of a charge with a due date, else those of its shares. -/
def parts (c : Charge) : List Dues :=
  match c.dueDate with
  | some _ => [c.dues]
  | none => c.shares.map ChargeShare.dues

/-- A charge with a due date, or an installment fee with one share for an installment at most, on
which no more has accrued than can accrue. -/
structure Proper (places : Nat) (c : Charge) : Prop where
  dated : c.isInstallmentFee = c.dueDate.isNone
  parts : ∀ d ∈ c.parts, d.Proper places
  installments : c.dueDate = none → (c.shares.map (·.installment)).Nodup

variable {places : Nat} {c : Charge}

theorem Proper.share (h : c.Proper places) (hdue : c.dueDate = none) {s : ChargeShare}
    (hs : s ∈ c.shares) : s.dues.Proper places := by
  apply h.parts
  simp only [Charge.parts]
  rw [hdue]
  exact List.mem_map_of_mem hs

theorem Proper.own (h : c.Proper places) (hdue : c.dueDate.isSome) : c.dues.Proper places := by
  obtain ⟨due, hdue⟩ := Option.isSome_iff_exists.mp hdue
  apply h.parts
  simp only [Charge.parts]
  rw [hdue]
  exact List.mem_singleton_self _

/-- Another charge of the same kind is proper when its dues are. -/
theorem Proper.of_parts (h : c.Proper places) {d : Charge}
    (hfee : d.isInstallmentFee = c.isInstallmentFee) (hdue : d.dueDate = c.dueDate)
    (hinstallments : d.shares.map (·.installment) = c.shares.map (·.installment))
    (hown : c.dueDate.isSome → d.dues.Proper places)
    (hshares : c.dueDate = none → ∀ s ∈ d.shares, s.dues.Proper places) : d.Proper places where
  dated := by rw [hfee, hdue, h.dated]
  parts := by
    simp only [Charge.parts]
    rw [hdue]
    cases hc : c.dueDate with
    | some due =>
      simp only [List.mem_singleton, forall_eq]
      exact hown (hc ▸ rfl)
    | none =>
      intro x hx
      obtain ⟨s, hs, rfl⟩ := List.mem_map.mp hx
      exact hshares hc s hs
  installments hnone := hinstallments ▸ h.installments (hdue ▸ hnone)

end Charge

/-! Relief: what a waiver and its undoing make of a charge. -/

/-- A share of which more or less was waived. -/
def ChargeShare.Relieved (s t : ChargeShare) : Prop :=
  t = { s with waived := t.waived, unrecognizedSoFar := t.unrecognizedSoFar }

/-- A charge of which more or less was waived. -/
structure Charge.Relieved (c d : Charge) : Prop where
  terms : d = { c with
    waived := d.waived
    unrecognizedSoFar := d.unrecognizedSoFar
    shares := d.shares }
  shares : List.Forall₂ ChargeShare.Relieved c.shares d.shares

namespace Charge

variable {places : Nat} {c d : Charge}

theorem Relieved.refl (c : Charge) : c.Relieved c :=
  ⟨rfl, List.forall₂_same.mpr fun _ _ => rfl⟩

theorem Relieved.installments (h : c.Relieved d) :
    d.shares.map (·.installment) = c.shares.map (·.installment) :=
  (map_eq_of_forall₂ h.shares fun _ _ hst => (congrArg (·.installment) hst).symm).symm

theorem Relieved.proper (h : c.Relieved d) (hc : c.Proper places)
    (hown : c.dueDate.isSome → d.dues.Proper places)
    (hshares : c.dueDate = none → ∀ s ∈ d.shares, s.dues.Proper places) : d.Proper places :=
  hc.of_parts (congrArg (·.isInstallmentFee) h.terms) (congrArg (·.dueDate) h.terms)
    h.installments hown hshares

private theorem shareAt?_eq_some {n : InstallmentNumber} {ss : List ChargeShare} {i : Nat}
    {s : ChargeShare} (h : shareAt? n ss = some (i, s)) : ss[i]? = some s := by
  induction ss generalizing i with
  | nil => cases h
  | cons t ss ih =>
    unfold shareAt? at h
    split at h
    · cases h
      rfl
    · obtain ⟨⟨j, u⟩, hj, heq⟩ := Option.map_eq_some_iff.mp h
      cases heq
      exact ih hj

private theorem firstOutstanding?_eq_ok {ss : List ChargeShare} {i : Nat} {s : ChargeShare}
    (h : firstOutstanding? ss = .ok (some (i, s))) : ss[i]? = some s := by
  induction ss generalizing i with
  | nil => cases h
  | cons t ss ih =>
    obtain ⟨m, -, h⟩ := bind_eq_ok.mp h
    split at h
    · cases h
      rfl
    · obtain ⟨found, hfound, heq⟩ := bind_eq_ok.mp h
      obtain ⟨⟨j, u⟩, rfl, heq⟩ := Option.map_eq_some_iff.mp (pure_eq_ok.mp heq)
      cases heq
      exact ih hfound

private theorem targetShare_eq_ok {requested : Option InstallmentNumber} {i : Nat} {s : ChargeShare}
    (h : c.targetShare requested = .ok (i, s)) : c.shares[i]? = some s := by
  cases requested with
  | some n =>
    obtain ⟨found, hfound, h⟩ := bind_eq_ok.mp h
    cases found with
    | none => cases h
    | some target =>
      rw [pure_eq_ok.mp h] at hfound
      exact shareAt?_eq_some (pure_eq_ok.mp hfound)
  | none =>
    obtain ⟨found, hfound, h⟩ := bind_eq_ok.mp h
    cases found with
    | none => cases h
    | some target =>
      rw [pure_eq_ok.mp h] at hfound
      exact firstOutstanding?_eq_ok (lift_fault_eq_ok.mp hfound)

/-- What the waiver of a share comes to. -/
theorem waiveShare_eq_ok {requested : Option InstallmentNumber} {updated : Charge}
    {n : InstallmentNumber} {amount recognized : Money}
    (h : c.waiveShare requested = .ok (updated, n, amount, recognized)) :
    ∃ i s waived part total, c.shares[i]? = some s ∧ s.outstanding = .ok amount ∧
      recognizedPart amount s.accrued s.paid = .ok recognized ∧ s.waived.add amount = .ok waived ∧
      amount.sub recognized = .ok part ∧ s.unrecognized.add part = .ok total ∧
      updated = { c with
        shares := c.shares.set i { s with waived := waived, unrecognizedSoFar := some total } } := by
  obtain ⟨⟨i, s⟩, htarget, h⟩ := bind_eq_ok.mp h
  obtain ⟨isWaived, -, h⟩ := bind_eq_ok.mp h
  obtain ⟨-, h⟩ := unless_refused_eq_ok.mp h
  obtain ⟨isPaid, -, h⟩ := bind_eq_ok.mp h
  obtain ⟨-, h⟩ := unless_refused_eq_ok.mp h
  obtain ⟨owed, howed, h⟩ := bind_eq_ok.mp h
  obtain ⟨known, hknown, h⟩ := bind_eq_ok.mp h
  obtain ⟨waived, hwaived, h⟩ := bind_eq_ok.mp h
  obtain ⟨part, hpart, h⟩ := bind_eq_ok.mp h
  obtain ⟨total, htotal, h⟩ := bind_eq_ok.mp h
  cases pure_eq_ok.mp h
  exact ⟨i, s, waived, part, total, targetShare_eq_ok htarget, lift_fault_eq_ok.mp howed,
    lift_fault_eq_ok.mp hknown, lift_fault_eq_ok.mp hwaived, lift_fault_eq_ok.mp hpart,
    lift_fault_eq_ok.mp htotal, rfl⟩

/-- What a waiver comes to: the part for a share goes before that for the charge. -/
theorem waive_eq_ok {status : LoanStatus} {requested : Option InstallmentNumber}
    {r : Relief}
    (h : c.waive status requested = .ok r) :
    ∃ updated amount recognized part waived total,
      (c.isInstallmentFee = true ∧
          (∃ n, c.waiveShare requested = .ok (updated, n, amount, recognized)) ∨
        c.isInstallmentFee = false ∧ updated = c ∧ c.outstanding = .ok amount ∧
          recognizedPart amount c.accrued c.paid = .ok recognized) ∧
      amount.sub recognized = .ok part ∧ updated.waived.add amount = .ok waived ∧
      updated.unrecognized.add part = .ok total ∧
      r.charge = { updated with waived := waived, unrecognizedSoFar := total.nonZero } := by
  simp only [waive] at h
  obtain ⟨-, h⟩ := unless_refused_eq_ok.mp h
  obtain ⟨isWaived, -, h⟩ := bind_eq_ok.mp h
  obtain ⟨-, h⟩ := unless_refused_eq_ok.mp h
  obtain ⟨isPaid, -, h⟩ := bind_eq_ok.mp h
  obtain ⟨-, h⟩ := unless_refused_eq_ok.mp h
  split at h
  · next hfee =>
    obtain ⟨⟨updated, n, amount, recognized⟩, hshare, h⟩ := bind_eq_ok.mp h
    obtain ⟨_, hout, h⟩ := bind_eq_ok.mp h
    cases hout
    obtain ⟨part, hpart, h⟩ := bind_eq_ok.mp h
    obtain ⟨waived, hwaived, h⟩ := bind_eq_ok.mp h
    obtain ⟨total, htotal, h⟩ := bind_eq_ok.mp h
    rw [← pure_eq_ok.mp h]
    exact ⟨updated, amount, recognized, part, waived, total, .inl ⟨hfee, n, hshare⟩,
      lift_fault_eq_ok.mp hpart, lift_fault_eq_ok.mp hwaived, lift_fault_eq_ok.mp htotal, rfl⟩
  · next hfee =>
    obtain ⟨amount, hamount, h⟩ := bind_eq_ok.mp h
    obtain ⟨recognized, hrecognized, h⟩ := bind_eq_ok.mp h
    obtain ⟨_, hout, h⟩ := bind_eq_ok.mp h
    cases hout
    obtain ⟨part, hpart, h⟩ := bind_eq_ok.mp h
    obtain ⟨waived, hwaived, h⟩ := bind_eq_ok.mp h
    obtain ⟨total, htotal, h⟩ := bind_eq_ok.mp h
    rw [← pure_eq_ok.mp h]
    exact ⟨c, amount, recognized, part, waived, total,
      .inr ⟨eq_false_of_ne_true hfee, rfl, lift_fault_eq_ok.mp hamount,
        lift_fault_eq_ok.mp hrecognized⟩,
      lift_fault_eq_ok.mp hpart, lift_fault_eq_ok.mp hwaived, lift_fault_eq_ok.mp htotal, rfl⟩

/-- What the undoing of a waiver comes to: what had been waived on a share, or on the charge, is
taken back. -/
theorem undoWaive_eq_ok {status : LoanStatus} {requested : Option InstallmentNumber}
    {r : Relief} (h : c.undoWaive status requested = .ok r) :
    ∃ updated amount part waived rest,
      (c.isInstallmentFee = true ∧ (∃ i s, c.shares[i]? = some s ∧ amount = s.waived ∧
          part = s.unrecognized ∧ updated = { c with
            shares := c.shares.set i { s with waived := .zero, unrecognizedSoFar := none } }) ∨
        c.isInstallmentFee = false ∧ updated = c ∧ amount = c.waived ∧ part = c.unrecognized) ∧
      updated.waived.monus amount = .ok waived ∧ updated.unrecognized.monus part = .ok rest ∧
      r.charge = { updated with waived := waived, unrecognizedSoFar := rest.nonZero } := by
  simp only [undoWaive] at h
  obtain ⟨-, h⟩ := unless_refused_eq_ok.mp h
  obtain ⟨-, h⟩ := unless_refused_eq_ok.mp h
  split at h
  · next hfee =>
    obtain ⟨⟨updated, amount, part⟩, hrestore, h⟩ := bind_eq_ok.mp h
    obtain ⟨waived, hwaived, h⟩ := bind_eq_ok.mp h
    obtain ⟨rest, hrest, h⟩ := bind_eq_ok.mp h
    obtain ⟨recognized, -, h⟩ := bind_eq_ok.mp h
    rw [← pure_eq_ok.mp h]
    refine ⟨updated, amount, part, waived, rest, .inl ⟨hfee, ?_⟩, lift_fault_eq_ok.mp hwaived,
      lift_fault_eq_ok.mp hrest, rfl⟩
    have hrestore := lift_refusal_eq_ok.mp hrestore
    simp only [restoreShare] at hrestore
    split at hrestore
    · cases hrestore
    · split at hrestore
      · cases hrestore
      · next i s hs =>
        split at hrestore
        · cases hrestore
        · cases hrestore
          exact ⟨i, s, shareAt?_eq_some hs, rfl, rfl, rfl⟩
  · next hfee =>
    obtain ⟨_, hout, h⟩ := bind_eq_ok.mp h
    cases hout
    obtain ⟨waived, hwaived, h⟩ := bind_eq_ok.mp h
    obtain ⟨rest, hrest, h⟩ := bind_eq_ok.mp h
    obtain ⟨recognized, -, h⟩ := bind_eq_ok.mp h
    rw [← pure_eq_ok.mp h]
    exact ⟨c, c.waived, c.unrecognized, waived, rest,
      .inr ⟨eq_false_of_ne_true hfee, rfl, rfl, rfl⟩, lift_fault_eq_ok.mp hwaived,
      lift_fault_eq_ok.mp hrest, rfl⟩

private theorem relieved_of_set {i : Nat} {s t : ChargeShare} {waived : Money}
    {unrecognized : Option Money} (hs : c.shares[i]? = some s) (hst : s.Relieved t) :
    c.Relieved { c with
      shares := c.shares.set i t, waived := waived, unrecognizedSoFar := unrecognized } :=
  ⟨rfl, forall₂_set (R := ChargeShare.Relieved) (fun _ => rfl) hs hst⟩

private theorem relieved_of_own {waived : Money} {unrecognized : Option Money} :
    c.Relieved { c with waived := waived, unrecognizedSoFar := unrecognized } :=
  ⟨rfl, List.forall₂_same.mpr fun _ _ => rfl⟩

private theorem Proper.of_set (hc : c.Proper places) (hfee : c.isInstallmentFee = true) {i : Nat}
    {s t : ChargeShare} {waived : Money} {unrecognized : Option Money} (hs : c.shares[i]? = some s)
    (hst : s.Relieved t) (ht : s.dues.Proper places → t.dues.Proper places) :
    ({ c with shares := c.shares.set i t, waived := waived, unrecognizedSoFar := unrecognized } :
      Charge).Proper places := by
  have hdue : c.dueDate = none := Option.isNone_iff_eq_none.mp (hc.dated ▸ hfee)
  refine (relieved_of_set hs hst).proper hc (fun hsome => ?_) fun _ u hu => ?_
  · rw [hdue] at hsome
    cases hsome
  · rcases List.mem_or_eq_of_mem_set hu with hu | rfl
    · exact hc.share hdue hu
    · exact ht (hc.share hdue (List.mem_of_getElem? hs))

private theorem Proper.of_own (hc : c.Proper places) (hfee : c.isInstallmentFee = false)
    {waived : Money} {unrecognized : Option Money}
    (hown : c.dues.Proper places → ({ c with
      waived := waived, unrecognizedSoFar := unrecognized } : Charge).dues.Proper places) :
    ({ c with waived := waived, unrecognizedSoFar := unrecognized } : Charge).Proper places := by
  refine relieved_of_own.proper hc (fun hdue => hown (hc.own hdue)) fun hnone => ?_
  rw [hc.dated, hnone] at hfee
  cases hfee

private theorem outstanding_plain {amount : Money} (hd : c.dues.Proper places)
    (h : c.outstanding = .ok amount) : amount.Plain places ∧ amount.value = c.dues.owed := by
  obtain ⟨part, hpart, h⟩ := bind_eq_ok.mp h
  obtain ⟨taken, htaken, h⟩ := bind_eq_ok.mp h
  have hpaid : c.paid.Plain places := hd.paid
  have hwaived : c.waived.Plain places := hd.waived
  have hadjusted : c.adjusted.Plain places := hd.adjusted
  have hsum : 0 ≤ c.paid.value + c.waived.value := add_nonneg hpaid.nonneg hwaived.nonneg
  obtain ⟨hpartFine, hpartValue⟩ := Money.add_value hpart hpaid.fine hwaived.fine
    (by rw [abs_of_nonneg hsum]; unfold Money.room; linarith [hpaid.small, hwaived.small])
  have hall : 0 ≤ part.value + c.adjusted.value :=
    add_nonneg (hpartValue ▸ hsum) hadjusted.nonneg
  obtain ⟨htakenFine, htakenValue⟩ := Money.add_value htaken hpartFine hadjusted.fine
    (by rw [abs_of_nonneg hall, hpartValue]; unfold Money.room
        linarith [hpaid.small, hwaived.small, hadjusted.small])
  exact hd.owed_of_monus htakenFine (by rw [htakenValue, hpartValue]; rfl) h

theorem share_outstanding_plain {s : ChargeShare} {amount : Money}
    (hd : s.dues.Proper places) (h : s.outstanding = .ok amount) :
    amount.Plain places ∧ amount.value = s.dues.owed := by
  obtain ⟨taken, htaken, h⟩ := bind_eq_ok.mp h
  have hpaid : s.paid.Plain places := hd.paid
  have hwaived : s.waived.Plain places := hd.waived
  have hsum : 0 ≤ s.paid.value + s.waived.value := add_nonneg hpaid.nonneg hwaived.nonneg
  obtain ⟨htakenFine, htakenValue⟩ := Money.add_value htaken hpaid.fine hwaived.fine
    (by rw [abs_of_nonneg hsum]; unfold Money.room; linarith [hpaid.small, hwaived.small])
  refine hd.owed_of_monus htakenFine ?_ h
  rw [htakenValue]
  simp [ChargeShare.dues]

/-- A waiver relieves the charge and keeps it proper. -/
theorem waive_relieves {status : LoanStatus} {requested : Option InstallmentNumber} {r : Relief}
    (hc : c.Proper places) (h : c.waive status requested = .ok r) :
    c.Relieved r.charge ∧ r.charge.Proper places := by
  obtain ⟨updated, amount, recognized, part, waived, total, hcase, hpart, hwaived, htotal, hr⟩ :=
    waive_eq_ok h
  rw [hr]
  rcases hcase with ⟨hfee, n, hshare⟩ | ⟨hfee, rfl, hamount, hrecognized⟩
  · obtain ⟨i, s, waivedShare, partShare, totalShare, hs, hamount, hrecognized, hwaivedShare,
      hpartShare, htotalShare, rfl⟩ := waiveShare_eq_ok hshare
    refine ⟨relieved_of_set hs rfl, hc.of_set hfee hs rfl fun hd => ?_⟩
    exact hd.waive (share_outstanding_plain hd hamount) hrecognized hpartShare hwaivedShare
      htotalShare (.inl rfl)
  · refine ⟨relieved_of_own, hc.of_own hfee fun hd => ?_⟩
    exact hd.waive (outstanding_plain hd hamount) hrecognized hpart hwaived htotal (.inr rfl)

/-- The undoing of a waiver relieves the charge and keeps it proper. -/
theorem undoWaive_relieves {status : LoanStatus} {requested : Option InstallmentNumber} {r : Relief}
    (hc : c.Proper places) (h : c.undoWaive status requested = .ok r) :
    c.Relieved r.charge ∧ r.charge.Proper places := by
  obtain ⟨updated, amount, part, waived, rest, hcase, hwaived, hrest, hr⟩ := undoWaive_eq_ok h
  rw [hr]
  rcases hcase with ⟨hfee, i, s, hs, -, -, rfl⟩ | ⟨hfee, rfl, rfl, rfl⟩
  · refine ⟨relieved_of_set hs rfl, hc.of_set hfee hs rfl fun hd => ?_⟩
    exact hd.restore Money.plain_zero Money.plain_zero Money.value_zero
  · refine ⟨relieved_of_own, hc.of_own hfee fun hd => ?_⟩
    have hwaivedPlain : updated.waived.Plain places := hd.waived
    have hrestPlain : updated.unrecognized.Plain places := hd.unrecognized
    obtain ⟨hwaived, -⟩ := hwaivedPlain.monus hwaivedPlain.fine hwaivedPlain.whole
      hwaivedPlain.nonneg (by linarith [hwaivedPlain.small]) hwaived
    obtain ⟨hrest, hvalue⟩ := hrestPlain.monus hrestPlain.fine hrestPlain.whole
      hrestPlain.nonneg (by linarith [hrestPlain.small]) hrest
    refine hd.restore hwaived hrest.orZero_nonZero ?_
    show (Money.orZero rest.nonZero).value = 0
    rw [Money.value_orZero_nonZero, hvalue, sub_self, max_self]

end Charge
end LoanLedger
