import LoanLedger.Proofs.Accrual.Faultless
import LoanLedger.Proofs.Accrual.Tally

/-!
Sound charges. On a sound charge no more went unrecognized than was waived, no more has accrued than
can accrue, and an installment fee is the sum of its shares. Waivers, their undoing, adjustments and
accruals keep all charges of a loan sound, in any order.
-/

set_option autoImplicit false
set_option relaxedAutoImplicit false

namespace LoanLedger

variable {policy : ChargePolicy} {row : ScheduleRow} {w : Window} {c d : Charge}
  {cs ds : List Charge} {a : Apportionment}

/-- Dues in order: what has become of them is not negative, no more went unrecognized than was
waived, and no more has accrued than can accrue. -/
structure Dues.Sound (d : Dues) : Prop where
  paid : 0 ≤ d.paid.value
  accrued : 0 ≤ d.accrued.value
  unrecognized : 0 ≤ d.unrecognized.value
  unrecognized_le : d.unrecognized.value ≤ d.waived.value
  accrued_le : d.accrued.value ≤ d.amount.value - d.unrecognized.value

namespace Charge

/-- A value of the shares of a charge, added up. -/
def overShares (f : ChargeShare → ℚ) (c : Charge) : ℚ := (c.shares.map f).sum

/-- An installment fee has one share for an installment at most, and is the sum of its shares. -/
structure Spread (c : Charge) : Prop where
  installments : (c.shares.map (·.installment)).Nodup
  amount : c.amount.value = c.overShares (·.amount.value)
  waived : c.waived.value = c.overShares (·.waived.value)
  unrecognized : c.unrecognized.value = c.overShares (·.unrecognized.value)
  accrued : c.accrued.value = c.overShares (·.accrued.value)

/-- A charge with a due date, or an installment fee, in order. -/
structure Sound (c : Charge) : Prop where
  dated : c.isInstallmentFee = c.dueDate.isNone
  adjusted : 0 ≤ c.adjusted.value ∧ c.adjusted.value ≤ c.amount.value
  parts : ∀ d ∈ c.parts, d.Sound
  spread : c.dueDate = none → c.Spread

/-- All amounts of a charge and of its shares. -/
def figures (c : Charge) : List Money := c.dues.figures ++ c.shares.flatMap fun s => s.dues.figures

/-- The dues of a charge amount to no more than all of its amounts. -/
theorem sum_amounts_le (c : Charge) : (c.parts.map (·.amount.value)).sum ≤ totalSize c.figures := by
  have hself : ∀ x : Dues, x.amount.value ≤ totalSize x.figures := fun x =>
    (le_abs_self _).trans (abs_le_totalSize List.mem_cons_self)
  have hown := totalSize_nonneg c.dues.figures
  have hshares := totalSize_nonneg (c.shares.flatMap fun s => s.dues.figures)
  rw [figures, totalSize_append]
  simp only [parts]
  cases c.dueDate with
  | some due =>
    rw [List.map_singleton, List.sum_singleton]
    exact (hself c.dues).trans (le_add_of_nonneg_right hshares)
  | none =>
    dsimp only
    rw [List.map_map]
    have hsum := sum_le_totalSize_flatMap (l := c.shares) fun s _ => hself s.dues
    exact hsum.trans (le_add_of_nonneg_left hown)

/-- What may be waived on the shares of a charge at most. -/
def ceiling (c : Charge) : ℚ := c.overShares fun s => max s.amount.value s.waived.value

/-- A sound charge whose amounts are exact and leave room for all that can still be waived. -/
structure Kept (c : Charge) : Prop where
  proper : c.Proper 10
  fine : c.amount.Fine ∧ c.waived.Fine ∧ c.adjusted.Fine ∧ c.accrued.Fine ∧ c.unrecognized.Fine
  adjusted : 0 ≤ c.adjusted.value ∧ c.adjusted.value ≤ c.amount.value
  spread : c.dueDate = none → c.Spread ∧ c.ceiling < 10 ^ 18

theorem overShares_le {f g : ChargeShare → ℚ} (h : ∀ s ∈ c.shares, f s ≤ g s) :
    c.overShares f ≤ c.overShares g := List.sum_le_sum h

theorem overShares_nonneg {f : ChargeShare → ℚ} (h : ∀ s ∈ c.shares, 0 ≤ f s) :
    0 ≤ c.overShares f := List.sum_nonneg (List.forall_mem_map.mpr h)

theorem le_overShares {f : ChargeShare → ℚ} (h : ∀ s ∈ c.shares, 0 ≤ f s) {s : ChargeShare}
    (hs : s ∈ c.shares) : f s ≤ c.overShares f :=
  List.single_le_sum (List.forall_mem_map.mpr h) _ (List.mem_map_of_mem hs)

namespace Kept

theorem share (h : c.Kept) (hdue : c.dueDate = none) {s : ChargeShare} (hs : s ∈ c.shares) :
    s.dues.Proper 10 := h.proper.share hdue hs

/-- What a charge itself amounts to, and what has become of it. -/
theorem own (h : c.Kept) : c.amount.Plain 10 ∧ c.waived.Plain 10 ∧ c.accrued.Plain 10 ∧
    c.unrecognized.Plain 10 ∧ c.unrecognized.value ≤ c.waived.value ∧
    c.accrued.value ≤ c.amount.value - c.unrecognized.value := by
  cases hdue : c.dueDate with
  | some due =>
    have hd := h.proper.own (hdue ▸ rfl)
    exact ⟨hd.amount, hd.waived, hd.accrued, hd.unrecognized, hd.unrecognized_le, hd.accrued_le⟩
  | none =>
    obtain ⟨hspread, hceiling⟩ := h.spread hdue
    have hshare : ∀ s ∈ c.shares, s.dues.Proper 10 := fun s hs => h.share hdue hs
    have hamount : c.overShares (·.amount.value) ≤ c.ceiling :=
      overShares_le fun s _ => le_max_left _ _
    have hwaived : c.overShares (·.waived.value) ≤ c.ceiling :=
      overShares_le fun s _ => le_max_right _ _
    have hunrecognized : c.overShares (·.unrecognized.value) ≤ c.overShares (·.waived.value) :=
      overShares_le fun s hs => (hshare s hs).unrecognized_le
    -- The bound holds share by share, and the figures of the charge are the sums of theirs.
    have haccrued : c.overShares (·.accrued.value) + c.overShares (·.unrecognized.value) ≤
        c.overShares (·.amount.value) := by
      rw [overShares, overShares, ← List.sum_map_add]
      refine overShares_le (f := fun s => s.accrued.value + s.unrecognized.value) fun s hs => ?_
      have hle := (hshare s hs).accrued_le
      simp only [Dues.accruable, ChargeShare.dues] at hle
      linarith
    have hunrecognizedNonneg : 0 ≤ c.overShares (·.unrecognized.value) :=
      overShares_nonneg fun s hs => (hshare s hs).unrecognized.nonneg
    have haccruedNonneg : 0 ≤ c.overShares (·.accrued.value) :=
      overShares_nonneg fun s hs => (hshare s hs).accrued.nonneg
    rw [← hspread.amount] at hamount haccrued
    rw [← hspread.waived] at hwaived hunrecognized
    rw [← hspread.unrecognized] at hunrecognized haccrued hunrecognizedNonneg
    rw [← hspread.accrued] at haccrued haccruedNonneg
    obtain ⟨hamountFine, hwaivedFine, -, haccruedFine, hunrecognizedFine⟩ := h.fine
    exact ⟨hamountFine.plain (by linarith) (by linarith),
      hwaivedFine.plain (by linarith) (by linarith),
      haccruedFine.plain haccruedNonneg (by linarith),
      hunrecognizedFine.plain hunrecognizedNonneg (by linarith), hunrecognized, by linarith⟩

theorem sound (h : c.Kept) : c.Sound where
  dated := h.proper.dated
  adjusted := h.adjusted
  parts x hx :=
    have hx := h.proper.parts x hx
    ⟨hx.paid.nonneg, hx.accrued.nonneg, hx.unrecognized.nonneg, hx.unrecognized_le, hx.accrued_le⟩
  spread hdue := (h.spread hdue).1

theorem accruedWithinBounds (h : c.Kept) : c.accruedWithinBounds = .ok true := by
  obtain ⟨hamount, -, haccrued, hunrecognized, -, hle⟩ := h.own
  have hroom : |c.amount.value - c.unrecognized.value| < Money.room := by
    rw [abs_of_nonneg (haccrued.nonneg.trans hle)]
    unfold Money.room
    linarith [hamount.small, hunrecognized.nonneg]
  obtain ⟨m, hm, -, hvalue⟩ := Money.sub_exact hamount.fine hunrecognized.fine hroom
  have hbound : c.accrued ≤ m := Money.le_iff_value.mpr (hvalue ▸ hle)
  refine bind_eq_ok.mpr ⟨m, hm, ?_⟩
  rw [decide_eq_true hbound]
  rfl

/-- A charge with a due date is kept when it is proper and not adjusted by more than it amounts
to. -/
theorem of_due (h : c.Proper 10) (hdue : c.dueDate.isSome)
    (hle : c.adjusted.value ≤ c.amount.value) : c.Kept where
  proper := h
  fine :=
    have hd := h.own hdue
    ⟨hd.amount.fine, hd.waived.fine, hd.adjusted.fine, hd.accrued.fine, hd.unrecognized.fine⟩
  adjusted := ⟨(h.own hdue).adjusted.nonneg, hle⟩
  spread hnone := by
    rw [hnone] at hdue
    cases hdue

end Kept

/-- A sound charge in the exact range is kept. -/
theorem Sound.kept (h : c.Sound) (hfine : ∀ a ∈ c.figures, a.Fine)
    (hsize : totalSize c.figures < 10 ^ 18) : c.Kept := by
  have hown : ∀ a ∈ c.dues.figures, a.Fine := fun a ha => hfine a (List.mem_append_left _ ha)
  have hsplit : totalSize c.figures = totalSize c.dues.figures +
      totalSize (c.shares.flatMap fun s => s.dues.figures) := totalSize_append _ _
  have hownSize := totalSize_nonneg c.dues.figures
  have hsharesSize := totalSize_nonneg (c.shares.flatMap fun s => s.dues.figures)
  -- One argument for the figures of a charge and for those of a share.
  have hproper : ∀ {x : Dues}, x.Sound → 0 ≤ x.adjusted.value → (∀ a ∈ x.figures, a.Fine) →
      totalSize x.figures < 10 ^ 18 → x.Proper 10 := by
    intro x hx hadjusted hxFine hxSize
    have hsmall : ∀ a ∈ x.figures, 0 ≤ a.value → a.Plain 10 := fun a ha hnonneg =>
      (hxFine a ha).plain hnonneg ((le_abs_self _).trans_lt ((abs_le_totalSize ha).trans_lt hxSize))
    have hamount : 0 ≤ x.amount.value := by
      linarith [hx.accrued, hx.accrued_le, hx.unrecognized]
    refine ⟨?_, hx.unrecognized_le, hx.accrued_le⟩
    simp only [Dues.figures, List.forall_mem_cons] at hsmall ⊢
    obtain ⟨h₁, h₂, h₃, h₄, h₅, h₆, -⟩ := hsmall
    exact ⟨h₁ hamount, h₂ hx.paid, h₃ (hx.unrecognized.trans hx.unrecognized_le), h₄ hadjusted,
      h₅ hx.accrued, h₆ hx.unrecognized, List.forall_mem_nil _⟩
  obtain ⟨hamount, -, hwaived, hadjusted, haccrued, hunrecognized⟩ :=
    Dues.forall_mem_figures.mp hown
  refine ⟨⟨h.dated, fun x hx => ?_, fun hdue => (h.spread hdue).installments⟩,
    ⟨hamount, hwaived, hadjusted, haccrued, hunrecognized⟩, h.adjusted, fun hdue => ⟨h.spread hdue, ?_⟩⟩
  · have hsound := h.parts x hx
    simp only [Charge.parts] at hx
    cases hdue : c.dueDate with
    | some due =>
      rw [hdue] at hx
      obtain rfl := List.mem_singleton.mp hx
      exact hproper hsound h.adjusted.1 hown (by linarith)
    | none =>
      rw [hdue] at hx
      obtain ⟨s, hs, rfl⟩ := List.mem_map.mp hx
      have hshare := totalSize_flatMap_le (f := fun s : ChargeShare => s.dues.figures) hs
      exact hproper hsound Money.value_zero.ge (fun a ha => hfine a (List.mem_append_right _
        (List.mem_flatMap.mpr ⟨s, hs, ha⟩))) (by linarith)
  · have hle : c.ceiling ≤ totalSize (c.shares.flatMap fun s => s.dues.figures) := by
      refine sum_le_totalSize_flatMap fun s _ => max_le ?_ ?_
      · exact (le_abs_self _).trans (abs_le_totalSize (by simp [ChargeShare.dues, Dues.figures]))
      · exact (le_abs_self _).trans (abs_le_totalSize (by simp [ChargeShare.dues, Dues.figures]))
    linarith

/-! Relief and adjustment keep a charge. -/

/-- What an adjustment comes to: a positive amount, up to what was not adjusted yet, is adjusted in
addition. -/
theorem adjust_eq_ok {status : LoanStatus} {amount : Money} (h : c.adjust status amount = .ok d) :
    ∃ available adjusted, 0 < amount.value ∧ c.amount.monus c.adjusted = .ok available ∧
      amount.value ≤ available.value ∧ c.adjusted.add amount = .ok adjusted ∧
      d = { c with adjusted } := by
  simp only [adjust] at h
  obtain ⟨-, h⟩ := unless_refused_eq_ok.mp h
  obtain ⟨hpos, h⟩ := unless_refused_eq_ok.mp h
  obtain ⟨-, h⟩ := unless_refused_eq_ok.mp h
  obtain ⟨available, havailable, h⟩ := bind_eq_ok.mp h
  obtain ⟨hwithin, h⟩ := unless_refused_eq_ok.mp h
  obtain ⟨adjusted, hadjusted, h⟩ := bind_eq_ok.mp h
  refine ⟨available, adjusted, ?_, lift_fault_eq_ok.mp havailable, ?_, lift_fault_eq_ok.mp hadjusted,
    (pure_eq_ok.mp h).symm⟩
  · rw [Money.value_pos_iff, ← Money.isPositive_iff]
    simpa using hpos
  · rwa [Money.lt_iff_value, not_lt] at hwithin

namespace Kept

/-- Relief of one share keeps an installment fee, if what was waived on the charge changes by as
much as on the share. -/
private theorem of_set (h : c.Kept) (hdue : c.dueDate = none) {i : Nat} {s t : ChargeShare}
    {waived : Money} {unrecognized : Option Money} (hs : c.shares[i]? = some s)
    (hst : s.Relieved t)
    (hproper : ({ c with
      shares := c.shares.set i t, waived := waived, unrecognizedSoFar := unrecognized } :
        Charge).Proper 10)
    (hceiling : t.waived.value ≤ max s.amount.value s.waived.value)
    (hwaived : waived.Fine ∧ waived.value = c.waived.value + (t.waived.value - s.waived.value))
    (hunrecognized : (Money.orZero unrecognized).Fine ∧ (Money.orZero unrecognized).value =
      c.unrecognized.value + (t.unrecognized.value - s.unrecognized.value)) :
    ({ c with shares := c.shares.set i t, waived := waived, unrecognizedSoFar := unrecognized } :
      Charge).Kept := by
  obtain ⟨hspread, hroom⟩ := h.spread hdue
  obtain ⟨hamountFine, -, hadjustedFine, haccruedFine, -⟩ := h.fine
  have hamount : t.amount = s.amount := congrArg (·.amount) hst
  have haccrued : t.accrued = s.accrued := congrArg (·.accrued) hst
  refine ⟨hproper, ⟨hamountFine, hwaived.1, hadjustedFine, haccruedFine, hunrecognized.1⟩,
    h.adjusted, fun _ => ⟨⟨hproper.installments hdue, ?_, ?_, ?_, ?_⟩, ?_⟩⟩
  · simp only [overShares]
    rw [sum_map_set _ hs, hamount, sub_self, add_zero]
    exact hspread.amount
  · simp only [overShares]
    rw [sum_map_set _ hs, hwaived.2, hspread.waived, overShares]
  · simp only [overShares]
    rw [sum_map_set _ hs]
    exact hunrecognized.2.trans (by rw [hspread.unrecognized, overShares])
  · simp only [overShares]
    rw [sum_map_set _ hs, haccrued, sub_self, add_zero]
    exact hspread.accrued
  · simp only [ceiling, overShares] at hroom ⊢
    rw [sum_map_set _ hs, hamount]
    have hle : max s.amount.value t.waived.value ≤ max s.amount.value s.waived.value :=
      max_le (le_max_left _ _) hceiling
    linarith

/-- A waiver keeps a charge. -/
theorem waive {status : LoanStatus} {requested : Option InstallmentNumber} {r : Relief}
    (h : c.Kept) (hr : c.waive status requested = .ok r) : r.charge.Kept := by
  obtain ⟨-, hproper⟩ := waive_relieves h.proper hr
  obtain ⟨hamount, hwaived, -, hunrecognized, -⟩ := h.own
  obtain ⟨updated, amount, recognized, part, waived, total, hcase, hpart, hwaivedAdd, htotalAdd,
    hcharge⟩ := waive_eq_ok hr
  rw [hcharge] at hproper ⊢
  rcases hcase with ⟨hfee, n, hshare⟩ | ⟨hfee, rfl, -⟩
  · have hdue : c.dueDate = none := Option.isNone_iff_eq_none.mp (h.proper.dated ▸ hfee)
    obtain ⟨i, s, waivedShare, partShare, totalShare, hs, howed, hrecognized, hwaivedShare,
      hpartShare, htotalShare, rfl⟩ := waiveShare_eq_ok hshare
    obtain rfl : partShare = part := Except.ok.inj (hpartShare.symm.trans hpart)
    have hd := h.share hdue (List.mem_of_getElem? hs)
    have hsWaived : s.waived.Plain 10 := hd.waived
    have hsUnrecognized : s.unrecognized.Plain 10 := hd.unrecognized
    obtain ⟨howedPlain, howedValue⟩ := share_outstanding_plain hd howed
    obtain ⟨hpartPlain, -, -⟩ := hd.waivedPart ⟨howedPlain, howedValue⟩ hrecognized hpart
    obtain ⟨-, hwaivedShareValue⟩ := hsWaived.add_value howedPlain hwaivedShare
    obtain ⟨-, htotalShareValue⟩ := hsUnrecognized.add_value hpartPlain htotalShare
    obtain ⟨hwaivedFine, hwaivedValue⟩ := hwaived.add_value howedPlain hwaivedAdd
    obtain ⟨htotalFine, htotalValue⟩ := hunrecognized.add_value hpartPlain htotalAdd
    -- The same amount is waived on the charge and on the share.
    refine h.of_set hdue hs rfl hproper ?_ ⟨hwaivedFine, ?_⟩ ⟨?_, ?_⟩
    · show waivedShare.value ≤ _
      rw [hwaivedShareValue, howedValue]
      exact hd.waived_add_owed_le
    · show waived.value = _ + (waivedShare.value - _)
      rw [hwaivedValue, hwaivedShareValue, add_sub_cancel_left]
    · exact Money.fine_orZero fun _ => Money.fine_nonZero htotalFine
    · show _ = _ + (totalShare.value - _)
      rw [Money.value_orZero_nonZero, htotalValue, htotalShareValue, add_sub_cancel_left]
  · have hdue : updated.dueDate.isSome := by
      rw [h.proper.dated] at hfee
      exact Option.isNone_eq_false_iff.mp hfee
    exact .of_due hproper hdue h.adjusted.2

/-- The undoing of a waiver keeps a charge. -/
theorem undoWaive {status : LoanStatus} {requested : Option InstallmentNumber} {r : Relief}
    (h : c.Kept) (hr : c.undoWaive status requested = .ok r) : r.charge.Kept := by
  obtain ⟨-, hproper⟩ := undoWaive_relieves h.proper hr
  obtain ⟨hamount, hwaived, -, hunrecognized, -⟩ := h.own
  obtain ⟨updated, amount, part, waived, rest, hcase, hwaivedSub, hrestSub, hcharge⟩ :=
    undoWaive_eq_ok hr
  rw [hcharge] at hproper ⊢
  rcases hcase with ⟨hfee, i, s, hs, rfl, rfl, rfl⟩ | ⟨hfee, rfl, -⟩
  · have hdue : c.dueDate = none := Option.isNone_iff_eq_none.mp (h.proper.dated ▸ hfee)
    obtain ⟨hspread, -⟩ := h.spread hdue
    have hmem := List.mem_of_getElem? hs
    have hd := h.share hdue hmem
    have hsWaived : s.waived.Plain 10 := hd.waived
    have hsUnrecognized : s.unrecognized.Plain 10 := hd.unrecognized
    -- The differences do not stop at zero: a share has no more waived than the charge.
    have hwaivedLe : s.waived.value ≤ c.waived.value := by
      rw [hspread.waived]
      exact le_overShares (f := fun s => s.waived.value)
        (fun t ht => (h.share hdue ht).waived.nonneg) hmem
    have hunrecognizedLe : s.unrecognized.value ≤ c.unrecognized.value := by
      rw [hspread.unrecognized]
      exact le_overShares (f := fun s => s.unrecognized.value)
        (fun t ht => (h.share hdue ht).unrecognized.nonneg) hmem
    obtain ⟨hwaivedPlain, hwaivedValue⟩ := hwaived.monus hsWaived.fine hsWaived.whole
      hsWaived.nonneg (by linarith [hsWaived.small]) hwaivedSub
    obtain ⟨hrestPlain, hrestValue⟩ := hunrecognized.monus hsUnrecognized.fine hsUnrecognized.whole
      hsUnrecognized.nonneg (by linarith [hsUnrecognized.small]) hrestSub
    rw [max_eq_left (sub_nonneg.mpr hwaivedLe)] at hwaivedValue
    rw [max_eq_left (sub_nonneg.mpr hunrecognizedLe)] at hrestValue
    refine h.of_set hdue hs rfl hproper ?_ ⟨hwaivedPlain.fine, ?_⟩ ⟨hrestPlain.orZero_nonZero.fine, ?_⟩
    · show Money.zero.value ≤ _
      rw [Money.value_zero]
      exact le_max_of_le_right hsWaived.nonneg
    · show _ = _ + (Money.zero.value - _)
      rw [hwaivedValue, Money.value_zero]
      ring
    · show _ = _ + (Money.zero.value - _)
      rw [Money.value_orZero_nonZero, hrestValue, Money.value_zero]
      ring
  · have hdue : updated.dueDate.isSome := by
      rw [h.proper.dated] at hfee
      exact Option.isNone_eq_false_iff.mp hfee
    exact .of_due hproper hdue h.adjusted.2

/-- An adjustment by an exact amount keeps a charge. -/
theorem adjust {status : LoanStatus} {amount : Money} (h : c.Kept) (hfine : amount.Fine)
    (hr : c.adjust status amount = .ok d) : d.Kept := by
  obtain ⟨hamount, -⟩ := h.own
  obtain ⟨hamountFine, hwaivedFine, hadjustedFine, haccruedFine, hunrecognizedFine⟩ := h.fine
  obtain ⟨hnonneg, hle⟩ := h.adjusted
  obtain ⟨available, adjusted, hpos, havailable, hwithin, hadjusted, rfl⟩ := adjust_eq_ok hr
  have hroom : Money.room = 7 * 10 ^ 18 := rfl
  have hsmall := hamount.small
  obtain ⟨-, havailableValue⟩ := Money.monus_value havailable hamountFine hadjustedFine
    (by rw [abs_of_nonneg (sub_nonneg.mpr hle)]; linarith)
  rw [havailableValue, max_eq_left (sub_nonneg.mpr hle)] at hwithin
  obtain ⟨hnewFine, hnewValue⟩ := Money.add_value hadjusted hadjustedFine hfine
    (by rw [abs_of_nonneg (by linarith)]; linarith)
  have hbounds : 0 ≤ adjusted.value ∧ adjusted.value ≤ c.amount.value := by
    rw [hnewValue]
    constructor <;> linarith
  have hproper : ({ c with adjusted } : Charge).Proper 10 := by
    refine h.proper.of_parts rfl rfl rfl (fun hdue => ?_) fun hdue s hs => h.share hdue hs
    have hd := h.proper.own hdue
    refine ⟨Dues.forall_mem_figures.mpr ⟨hd.amount, hd.paid, hd.waived, ?_, hd.accrued,
      hd.unrecognized⟩, hd.unrecognized_le, hd.accrued_le⟩
    exact hnewFine.plain hbounds.1 (hbounds.2.trans_lt hsmall)
  refine ⟨hproper, ⟨hamountFine, hwaivedFine, hnewFine, haccruedFine, hunrecognizedFine⟩, hbounds,
    fun hdue => ?_⟩
  obtain ⟨⟨hids, hamountSum, hwaivedSum, hunrecognizedSum, haccruedSum⟩, hceiling⟩ := h.spread hdue
  exact ⟨⟨hids, hamountSum, hwaivedSum, hunrecognizedSum, haccruedSum⟩, hceiling⟩

end Kept

/-- The charges of a loan, all kept, with room for what they amount to. -/
structure AllKept (cs : List Charge) : Prop where
  ids : (cs.map (·.id)).Nodup
  kept : ∀ c ∈ cs, c.Kept
  size : size cs < 10 ^ 18

end Charge

/-! Accrual keeps charges, and it never fails on them. -/

private theorem addAll_amountOf_value {x y : Money} {o : Option Allocation} (hx : x.Plain 10)
    (ho : (Allocation.amountOf o).Plain 10)
    (h : x.addAll (o.toList.map (·.amount)) = .ok y) :
    y.Fine ∧ y.value = x.value + (Allocation.amountOf o).value := by
  cases o with
  | none =>
    obtain rfl : x = y := Except.ok.inj h
    have hzero : (Allocation.amountOf none).value = 0 := Money.value_zero
    exact ⟨hx.fine, by rw [hzero, add_zero]⟩
  | some z =>
    rw [Option.toList_some, List.map_singleton, Money.addAll_singleton] at h
    exact hx.add_value ho h

/-- The shares of an installment fee advance together by what one of them advances by. -/
private theorem Charge.Kept.overShares_accrued (h : c.Kept) (hdue : c.dueDate = none)
    {paid : List ChargePayment} (hshares : List.Forall₂ (ChargeShare.AdvancedBy paid) c.shares d.shares)
    {s : ChargeShare} (hs : c.share? row.installment = some s) {o : Option Allocation}
    {id : TransactionId} (ho : (Allocation.amountOf o).Plain 10)
    (hpaid : paid = o.toList.map fun x => ⟨id, x.chargeId, x.amount, row.installment⟩) :
    d.overShares (·.accrued.value) =
      c.overShares (·.accrued.value) + (Allocation.amountOf o).value := by
  subst hpaid
  have hn : s.installment = row.installment := by simpa using List.find?_some hs
  have hmem : row.installment ∈ c.shares.map (·.installment) :=
    hn ▸ List.mem_map_of_mem (List.mem_of_find?_eq_some hs)
  simp only [overShares]
  rw [← sum_map_add_ite (·.installment) _ _ _ (h.spread hdue).1.installments hmem]
  refine congrArg List.sum (map_eq_of_forall₂ (forall₂_mem hshares) ?_).symm
  rintro u t ⟨hu, -, hut⟩
  have huAccrued : u.accrued.Plain 10 := (h.share hdue hu).accrued
  split
  · next hn =>
    obtain ⟨hadd, -⟩ := (dues_of_advancedBy hut).2 hn
    exact (addAll_amountOf_value huAccrued ho hadd).2.symm
  · next hn =>
    have hsame : t.accrued = u.accrued := congrArg Dues.accrued ((dues_of_advancedBy hut).1 hn)
    rw [hsame, add_zero]

/-- An installment fee and one of its shares advance by the same amount. -/
private theorem Charge.Kept.advance_shares (h : c.Kept) (hdue : c.dueDate = none)
    (hproper : d.Proper 10) {paid : List ChargePayment} (hadvanced : c.AdvancedBy paid d)
    {s : ChargeShare} (hs : c.share? row.installment = some s) {o : Option Allocation}
    {id : TransactionId} (ho : (Allocation.amountOf o).Plain 10)
    (hpaid : (paid.filter fun p => p.chargeId = c.id) =
      o.toList.map fun x => ⟨id, x.chargeId, x.amount, row.installment⟩) : d.Kept := by
  obtain ⟨hspread, hceiling⟩ := h.spread hdue
  obtain ⟨hamountFine, hwaivedFine, hadjustedFine, -, hunrecognizedFine⟩ := h.fine
  obtain ⟨-, -, haccrued, -⟩ := h.own
  have hshares := hadvanced.shares
  have hdate : d.dueDate = none := (congrArg (·.dueDate) hadvanced.terms).trans hdue
  rw [if_neg (by simp [hdue])] at hshares
  -- Sums over the shares stay as they were, that of what has accrued apart.
  have hterms : ∀ {f : ChargeShare → ℚ}, (∀ u t : ChargeShare,
      t = { u with accruedSoFar := t.accruedSoFar } → f t = f u) →
      d.overShares f = c.overShares f := fun hf =>
    congrArg List.sum (map_eq_of_forall₂ hshares fun u t hut => (hf u t hut.terms).symm).symm
  have hown := hadvanced.accrued
  rw [hpaid, List.map_map] at hown
  obtain ⟨haccruedFine, haccruedValue⟩ := addAll_amountOf_value haccrued ho hown
  have hamount : d.amount = c.amount := congrArg (·.amount) hadvanced.terms
  have hwaived : d.waived = c.waived := congrArg (·.waived) hadvanced.terms
  have hadjusted : d.adjusted = c.adjusted := congrArg (·.adjusted) hadvanced.terms
  have hunrecognized : d.unrecognized = c.unrecognized := congrArg (·.unrecognized) hadvanced.terms
  refine ⟨hproper, ?_, ?_, fun _ => ⟨⟨hproper.installments hdate, ?_, ?_, ?_, ?_⟩, ?_⟩⟩
  · rw [hamount, hwaived, hadjusted, hunrecognized]
    exact ⟨hamountFine, hwaivedFine, hadjustedFine, haccruedFine, hunrecognizedFine⟩
  · rw [hamount, hadjusted]
    exact h.adjusted
  · rw [hamount, hspread.amount]
    exact (hterms fun u t hut => by rw [hut]).symm
  · rw [hwaived, hspread.waived]
    exact (hterms fun u t hut => by rw [hut]).symm
  · rw [hunrecognized, hspread.unrecognized]
    exact (hterms fun u t hut => by rw [hut]; rfl).symm
  · rw [haccruedValue, hspread.accrued, h.overShares_accrued hdue hshares hs ho hpaid]
  · have hsame : d.ceiling = c.ceiling := hterms fun u t hut => by rw [hut]
    rwa [hsame]

namespace Charge.AllKept

theorem of_sound (hids : (cs.map (·.id)).Nodup) (hsound : ∀ c ∈ cs, c.Sound)
    (hfine : ∀ a ∈ cs.flatMap figures, a.Fine) (hsize : totalSize (cs.flatMap figures) < 10 ^ 18) :
    AllKept cs where
  ids := hids
  kept c hc := (hsound c hc).kept (fun a ha => hfine a (List.mem_flatMap.mpr ⟨c, hc, ha⟩))
    ((totalSize_flatMap_le hc).trans_lt hsize)
  size := (sum_le_totalSize_flatMap fun c _ => c.sum_amounts_le).trans_lt hsize

theorem proper (h : AllKept cs) : ∀ c ∈ cs, c.Proper 10 := fun c hc => (h.kept c hc).proper

private theorem advance (h : AllKept cs) (hof : Apportionment.ofCharges policy row w cs = .ok a)
    (hc : c ∈ cs) (hd : a.advance c = .ok d) : d.Kept := by
  have hkept := h.kept c hc
  have haccrued := Apportionment.advance_accruedIn hof h.ids hc hkept.proper hd
  cases hx : c.brought policy row w with
  | none => exact haccrued.missed hx ▸ hkept
  | some x =>
    have hadvanced := Apportionment.advance_advancedBy hof h.ids hc hd default
    cases hdue : c.dueDate with
    | some due =>
      have hdate : d.dueDate = some due := (congrArg (·.dueDate) hadvanced.terms).trans hdue
      have hamount : d.amount = c.amount := congrArg (·.amount) hadvanced.terms
      have hadjusted : d.adjusted = c.adjusted := congrArg (·.adjusted) hadvanced.terms
      refine .of_due haccrued.proper (hdate ▸ rfl) ?_
      rw [hamount, hadjusted]
      exact hkept.adjusted.2
    | none =>
      have hpart := (brought_eq_some.mp hx).2
      rw [partOf?_of_shares hdue] at hpart
      obtain ⟨s, hs, rfl⟩ := Option.map_eq_some_iff.mp hpart
      obtain ⟨income, hincome⟩ := Apportionment.allocationFor?_eq hof h.ids hc
      exact hkept.advance_shares hdue haccrued.proper hadvanced hs
        (contributionTo_contributes hkept.proper hincome).allocation.1
        (Apportionment.filter_payments (Apportionment.nodup_allocations hof h.ids) default
          row.installment)

theorem accrue (h : AllKept cs) (hof : Apportionment.ofCharges policy row w cs = .ok a)
    (happly : a.applyTo cs = .ok ds) : AllKept ds where
  ids := by
    rw [map_id_of_sameTerms (Apportionment.applyTo_sameTerms happly)]
    exact h.ids
  kept d hd := by
    obtain ⟨c, hc, hcd⟩ := exists_mem_of_forall₂ (mapM_eq_ok_iff.mp happly).flip hd
    exact h.advance hof hc hcd
  size := by
    rw [size_congr ((Apportionment.applyTo_sameTerms happly).imp fun _ _ hcd => hcd.map_amount)]
    exact h.size

/-- A kept charge contributes to any window what is left to accrue on the dues that it brings. -/
theorem contributes (h : AllKept cs) (policy : ChargePolicy) (row : ScheduleRow) (w : Window)
    (hc : c ∈ cs) : ∃ m o, c.contributionTo policy row w = .ok (m, o) ∧
      Contributes 10 (c.brought policy row w) m o := by
  have hproper := h.proper c hc
  have hdues : ∀ {x : Dues}, x.Proper 10 → ∀ n, ∃ m y, x.amount.sub x.unrecognized = .ok m ∧
      c.contribution n m x.accrued = .ok y := by
    intro x hx n
    obtain ⟨m, hm⟩ := Money.exists_sub_of_nonneg hx.amount.nonneg hx.unrecognized.nonneg
    obtain ⟨y, hy⟩ := exists_contribution c n m hx.accrued.nonneg
    exact ⟨m, y, hm, hy⟩
  obtain ⟨⟨m, o⟩, hm⟩ := exists_contributionTo_of policy row w
    (fun hdue => hdues (hproper.own hdue) none)
    fun hdue s hs => hdues (hproper.share hdue hs) (some s.installment)
  exact ⟨m, o, hm, contributionTo_contributes hproper hm⟩

private theorem exists_advance (h : AllKept cs)
    (hof : Apportionment.ofCharges policy row w cs = .ok a) (hc : c ∈ cs) :
    ∃ d, a.advance c = .ok d := by
  have hkept := h.kept c hc
  obtain ⟨-, -, haccrued, -⟩ := hkept.own
  obtain ⟨income, hincome⟩ := Apportionment.allocationFor?_eq hof h.ids hc
  have hallocation := (contributionTo_contributes hkept.proper hincome).allocation.1
  simp only [Apportionment.advance]
  cases hx : a.allocationFor? c.id with
  | none => exact ⟨c, rfl⟩
  | some x =>
    rw [hx] at hincome hallocation
    have hamount : x.amount.Plain 10 := hallocation
    obtain ⟨accrued, hadd, -⟩ := haccrued.add_exact hamount
    have hshares : ∃ shares, c.shares.mapM (Apportionment.advanceShare x) = .ok shares := by
      refine exists_mapM fun s hs => ?_
      simp only [Apportionment.advanceShare]
      split
      · next hn =>
        -- an allocation to an installment comes from an installment fee
        have hdue : c.dueDate = none := by
          cases hdue : c.dueDate with
          | none => rfl
          | some due =>
            have hnone := (contributionTo_isOf hincome).installment
            rw [hdue, hn] at hnone
            cases hnone
        have hs : s.accrued.Plain 10 := (hkept.share hdue hs).accrued
        obtain ⟨m, hm, -⟩ := hs.add_exact hamount
        exact ⟨_, bind_eq_ok.mpr ⟨m, hm, rfl⟩⟩
      · exact ⟨s, rfl⟩
    obtain ⟨shares, hshares⟩ := hshares
    exact ⟨_, bind_eq_ok.mpr ⟨accrued, hadd, bind_eq_ok.mpr ⟨shares, hshares, rfl⟩⟩⟩

/-- Apportioning kept charges, and accruing what was allocated, never fails. -/
theorem exists_accrue (h : AllKept cs) (policy : ChargePolicy) (row : ScheduleRow) (w : Window) :
    ∃ a ds, Apportionment.ofCharges policy row w cs = .ok a ∧ a.applyTo cs = .ok ds := by
  have hcapacity : Money.capacity = 7 * 10 ^ 28 := rfl
  have hsize := h.size
  unfold Charge.size at hsize
  obtain ⟨a, ha, -⟩ := Apportionment.exists_ofCharges_of policy row w
    (fun c => 10 * (c.parts.map (·.amount.value)).sum)
    (by rw [List.sum_map_mul_left]; linarith) fun c hc => by
      obtain ⟨m, o, hm, hcontributes⟩ := h.contributes policy row w hc
      obtain ⟨-, hle⟩ : 0 ≤ worth Dues.accruable (c.brought policy row w) ∧
        worth Dues.accruable (c.brought policy row w) ≤ (c.parts.map (·.amount.value)).sum :=
          (h.proper c hc).worth_accruable
      obtain ⟨hplain, hvalue⟩ := hcontributes.income
      have hload := m.load_le
      rw [abs_of_nonneg hplain.nonneg, hvalue] at hload
      exact ⟨m, o, hm, by linarith⟩
  obtain ⟨ds, hds⟩ := exists_mapM fun c hc => h.exists_advance ha hc
  exact ⟨a, ds, ha, hds⟩

end Charge.AllKept

end LoanLedger
