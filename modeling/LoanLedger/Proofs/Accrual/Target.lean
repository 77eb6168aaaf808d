import LoanLedger.Proofs.Accrual.Plan
import LoanLedger.Proofs.Charge.Income
import LoanLedger.Proofs.Column
import LoanLedger.Proofs.Interest.Accruable
import LoanLedger.Proofs.Money.Rounding
import LoanLedger.Proofs.Money.Share

/-!
Targets. What a task posts brings each column of its row to a target, less what was credited, unless
the column is there already. The targets depend on the terms of the loan and not on what has
accrued, and those of a part of a period do not exceed those of the whole.
-/

set_option autoImplicit false
set_option relaxedAutoImplicit false

namespace LoanLedger

namespace Portion

variable {target accrued credited : Option Money} {x y : Portion}

/-- Amounts for which a portion is exact. -/
structure Exact (target accrued credited : Option Money) : Prop where
  target : Small (11 * 10 ^ 17) target
  accrued : Small (21 * 10 ^ 17) accrued
  credited : Small (10 ^ 18) credited

/-- A portion lifts the column to the target, less what was credited, and never lowers it. -/
theorem towards_some_value {t : Money} (h : towards (some t) accrued credited = .ok x)
    (hexact : Exact (some t) accrued credited) :
    Small (21 * 10 ^ 17) x.total ∧ Small (42 * 10 ^ 17) x.delta ∧
      (Money.orZero x.total).value =
        max (Money.orZero accrued).value (t.value - (Money.orZero credited).value) ∧
      (Money.orZero x.delta).value =
        max (t.value - ((Money.orZero accrued).value + (Money.orZero credited).value)) 0 := by
  obtain ⟨covered, delta, total, hcovered, hdelta, htotal, rfl⟩ := towards_some_eq_ok.mp h
  have ht := hexact.target.size
  have ha := hexact.accrued.size
  have hc := hexact.credited.size
  rw [Money.orZero_some] at ht
  have hroom : Money.room = 7 * 10 ^ 18 := rfl
  have hsum := abs_add_le (Money.orZero accrued).value (Money.orZero credited).value
  obtain ⟨hcoveredFine, hcoveredValue⟩ := Money.add_value hcovered hexact.accrued.fine
    hexact.credited.fine (by linarith)
  have hdiff := abs_sub t.value covered.value
  rw [hcoveredValue] at hdiff
  obtain ⟨hdeltaFine, hdeltaValue⟩ := Money.monus_value hdelta hexact.target.fine hcoveredFine
    (by rw [hcoveredValue]; linarith)
  rw [hcoveredValue] at hdeltaValue
  have hdeltaSize : |delta.value| ≤ 42 * 10 ^ 17 := by
    rw [hdeltaValue, abs_of_nonneg (le_max_right _ _)]
    refine max_le ((le_abs_self _).trans (hdiff.trans ?_)) (by norm_num)
    linarith
  -- Adding what is missing to reach the target gives the larger of the two.
  have hmax : (Money.orZero accrued).value + delta.value =
      max (Money.orZero accrued).value (t.value - (Money.orZero credited).value) := by
    rw [hdeltaValue, ← max_add_add_left, add_zero, max_comm]
    congr 1
    ring
  have hsize : |(Money.orZero accrued).value + delta.value| ≤ 21 * 10 ^ 17 := by
    rw [hmax]
    have hdiff' := abs_sub t.value (Money.orZero credited).value
    exact abs_max_le_max_abs_abs.trans (max_le ha (by linarith))
  obtain ⟨htotalFine, htotalValue⟩ := Money.add_value htotal hexact.accrued.fine hdeltaFine
    (by linarith)
  refine ⟨⟨htotalFine, ?_⟩, ⟨?_, ?_⟩, ?_, ?_⟩
  · rw [Money.orZero_some, htotalValue]
    exact hsize
  · exact Money.fine_orZero fun d hd => Money.fine_nonZero hdeltaFine hd
  · rw [Money.value_orZero_nonZero]
    exact hdeltaSize
  · rw [Money.orZero_some, htotalValue, hmax]
  · rw [Money.value_orZero_nonZero, hdeltaValue]

/-- A portion is added to the column, exactly. -/
theorem towards_exact (h : towards target accrued credited = .ok x)
    (hexact : Exact target accrued credited) :
    Small (21 * 10 ^ 17) x.total ∧ Small (42 * 10 ^ 17) x.delta ∧
      (Money.orZero x.total).value = (Money.orZero accrued).value + (Money.orZero x.delta).value := by
  cases target with
  | none =>
    rw [towards_none] at h
    cases h
    rw [Money.orZero_none, Money.value_zero, add_zero]
    exact ⟨hexact.accrued, .none (by norm_num), rfl⟩
  | some t =>
    obtain ⟨htotal, hdelta, htotalValue, hdeltaValue⟩ := towards_some_value h hexact
    refine ⟨htotal, hdelta, ?_⟩
    rw [htotalValue, hdeltaValue, ← max_add_add_left, add_zero, max_comm]
    congr 1
    ring

theorem towards_delta_eq_none (h : towards target accrued credited = .ok x)
    (hzero : (Money.orZero x.delta).value = 0) : x.delta = none := by
  cases target with
  | none =>
    rw [towards_none] at h
    cases h
    rfl
  | some t =>
    obtain ⟨covered, delta, total, -, -, -, rfl⟩ := towards_some_eq_ok.mp h
    rw [Money.value_orZero_nonZero, Money.value_eq_zero_iff] at hzero
    exact (Money.nonZero_eq_none_iff delta).mpr ((Money.units_eq_zero_iff delta).mpr hzero)

/-- Once a column has reached its target, nothing is missing from it. -/
theorem towards_settled (h : towards target accrued credited = .ok x)
    (hexact : Exact target accrued credited) (h' : towards target x.total credited = .ok y) :
    y.delta = none := by
  cases target with
  | none =>
    rw [towards_none] at h'
    cases h'
    rfl
  | some t =>
    obtain ⟨hsmall, -, hvalue, -⟩ := towards_some_value h hexact
    obtain ⟨-, -, -, hdelta⟩ := towards_some_value h' ⟨hexact.target, hsmall, hexact.credited⟩
    apply towards_delta_eq_none h'
    rw [hdelta, hvalue]
    have hle := le_max_right (Money.orZero accrued).value
      (t.value - (Money.orZero credited).value)
    exact max_eq_right (by linarith)

end Portion

/-- What the columns of a row are to reach. -/
structure Targets where
  interest : Option Money
  fee : Option Money
  penalty : Option Money

/-- What a column is to reach. -/
def Targets.of (x : Targets) : Column → Option Money
  | .interest => x.interest
  | .fee => x.fee
  | .penalty => x.penalty

theorem PreparedAccrual.Portions.amount_eq_zero {parts : PreparedAccrual.Portions}
    (hnone : ∀ c, (parts.of c).delta = none) : parts.amount = .ok .zero := by
  have hinterest : parts.interest.delta = none := hnone .interest
  have hfee : parts.fee.delta = none := hnone .fee
  have hpenalty : parts.penalty.delta = none := hnone .penalty
  simp only [PreparedAccrual.Portions.amount]
  rw [hinterest, hfee, hpenalty]
  rfl

/-- The portions that the columns of a row miss to the targets, and the posting that comes of them:
there is one when together they are positive, and it carries them. -/
structure Targets.Settle (x : Targets) (row : ScheduleRow) (parts : PreparedAccrual.Portions)
    (o : Option Posting) : Prop where
  towards : ∀ c, Portion.towards (x.of c) (row.accrued c) (row.credited c) = .ok (parts.of c)
  amount : ∃ amount, parts.amount = .ok amount ∧ amount.isPositive = o.isSome
  posting : ∀ y, o = some y → ∀ c, y.portion c = (parts.of c).delta ∧ y.total c = (parts.of c).total

namespace Targets.Settle

variable {x : Targets} {row : ScheduleRow} {parts parts' : PreparedAccrual.Portions}
  {o o' : Option Posting}

/-- Targets and columns decide whether there is a posting. -/
theorem isSome_eq (h : x.Settle row parts o) (h' : x.Settle row parts' o') :
    o.isSome = o'.isSome := by
  have hof : ∀ c, parts.of c = parts'.of c :=
    fun c => Except.ok.inj ((h.towards c).symm.trans (h'.towards c))
  have hparts : parts = parts' := by
    cases parts
    cases parts'
    congr
    · exact hof .interest
    · exact hof .fee
    · exact hof .penalty
  obtain ⟨amount, hamount, hpos⟩ := h.amount
  obtain ⟨amount', hamount', hpos'⟩ := h'.amount
  rw [hparts, hamount'] at hamount
  rw [← hpos, ← hpos', Except.ok.inj hamount]

theorem eq_none (h : x.Settle row parts o) (hnone : ∀ c, (parts.of c).delta = none) : o = none := by
  obtain ⟨amount, hamount', hpos⟩ := h.amount
  rw [PreparedAccrual.Portions.amount_eq_zero hnone] at hamount'
  rw [← Except.ok.inj hamount', Money.isPositive_zero] at hpos
  exact Option.not_isSome_iff_eq_none.mp (hpos ▸ Bool.false_ne_true)

end Targets.Settle

/-- The part of the accruable interest of a row that an extent brings, at the precision of the
currency. -/
def interestTarget (rounding : RoundingMode) (row : ScheduleRow) (e : Extent)
    (accruable : Option Money) : Except Fault (Option Money) :=
  match e, accruable with
  | .whole _, accruable => .ok (accruable.map fun m => m.round row.currency rounding)
  | .upTo _, none => .ok none
  | .upTo till, some income => do
    let share ← income.prorate ((row.interestStartBy till).daysUntil till)
      (row.interestStart.daysUntil row.dueDate)
    return some (share.round row.currency rounding)

/-- The targets of a row under an extent. -/
def AccrualInput.targets (input : AccrualInput) (s : Settings) (cs : List Charge)
    (row : ScheduleRow) (e : Extent) : Except Fault Targets := do
  let fee ← income false s.policy row (e.window row) cs
  let penalty ← income true s.policy row (e.window row) cs
  let i ← ReconciledInterest.ofWaivers row input.waivedPeriods input.waivers e.waiversTill
  return {
    interest := ← interestTarget s.rounding row e i.accruable
    fee := fee.nonZero.map fun m => m.round row.currency s.rounding
    penalty := penalty.nonZero.map fun m => m.round row.currency s.rounding }

namespace AccrualInput

variable {input : AccrualInput} {s : Settings} {processedOn : Date} {cs ds : List Charge}
  {row row' : ScheduleRow} {e : Extent} {x : Targets}

theorem targets_eq_ok :
    input.targets s cs row e = .ok x ↔ ∃ fee penalty i,
      income false s.policy row (e.window row) cs = .ok fee ∧
      income true s.policy row (e.window row) cs = .ok penalty ∧
      ReconciledInterest.ofWaivers row input.waivedPeriods input.waivers e.waiversTill = .ok i ∧
      interestTarget s.rounding row e i.accruable = .ok x.interest ∧
      x.fee = fee.nonZero.map (fun m => m.round row.currency s.rounding) ∧
      x.penalty = penalty.nonZero.map (fun m => m.round row.currency s.rounding) := by
  simp only [targets]
  simp only [bind_eq_ok, pure_eq_ok]
  constructor
  · rintro ⟨fee, hfee, penalty, hpenalty, i, hi, interest, hinterest, rfl⟩
    exact ⟨fee, penalty, i, hfee, hpenalty, hi, hinterest, rfl, rfl⟩
  · rintro ⟨fee, penalty, i, hfee, hpenalty, hi, hinterest, hx, hx'⟩
    exact ⟨fee, hfee, penalty, hpenalty, i, hi, x.interest, hinterest, by rw [← hx, ← hx']⟩

theorem interestFor_eq (p : PreparedAccrual) (rounding : RoundingMode) (e : Extent) :
    p.interestFor rounding e = interestTarget rounding p.row e p.interest.accruable := by
  cases e with
  | whole _ => rfl
  | upTo till =>
    simp only [PreparedAccrual.interestFor, PreparedAccrual.interestTill, interestTarget]
    cases p.interest.accruable <;> rfl

/-- A task posts what is missing from the targets of its row. -/
theorem targets_of_propose {id : TransactionId} {p : PreparedAccrual} {o : Option Posting}
    (h : input.propose s processedOn cs id row e = .ok (p, o)) :
    ∃ x parts, input.targets s cs row e = .ok x ∧ x.Settle row parts o := by
  obtain ⟨hp, interest, parts, amount, hinterest, hparts, hamount, ho⟩ :=
    (input.propose_eq_ok s processedOn).mp h
  obtain ⟨hcharges, hwaivers, hrow⟩ := prepare_eq_ok.mp hp
  obtain ⟨fee, penalty, hfee, hpenalty, hfeeIncome, hpenaltyIncome⟩ :=
    Apportionment.ofCharges_income hcharges
  rw [interestFor_eq, hrow] at hinterest
  obtain ⟨h₁, h₂, h₃⟩ := PreparedAccrual.portions_eq_ok.mp hparts
  rw [hrow] at h₁ h₂ h₃
  rw [hfeeIncome] at h₂
  rw [hpenaltyIncome] at h₃
  refine ⟨⟨interest, _, _⟩, parts,
    targets_eq_ok.mpr ⟨fee, penalty, p.interest, hfee, hpenalty, hwaivers, hinterest, rfl, rfl⟩, ?_⟩
  refine ⟨fun c => ?_, ⟨amount, hamount, ?_⟩, ?_⟩
  · cases c with
    | interest => exact h₁
    | fee => exact h₂
    | penalty => exact h₃
  · cases hpos : amount.isPositive <;> rw [ho, hpos] <;> rfl
  · rintro y rfl c
    split at ho
    · rw [Option.some.inj ho]
      cases c <;> exact ⟨rfl, rfl⟩
    · cases ho

/-- Targets do not depend on what has accrued on the row and on the charges. -/
theorem targets_congr (hrow : row.SameTerms row') (hcs : List.Forall₂ Charge.SameTerms cs ds) :
    input.targets s ds row' e = input.targets s cs row e := by
  have hsame : input.targets s ds row' e = input.targets s ds row e := by
    rw [hrow]
    rfl
  rw [hsame]
  simp only [targets]
  rw [income_congr false hcs, income_congr true hcs]

/-- From the due date on, the whole of a period brings the same. -/
theorem targets_whole {till : Date} (h : row.dueDate ≤ till) :
    input.targets s cs row (.whole till) = input.targets s cs row (.whole row.dueDate) := by
  have hwaivers : ReconciledInterest.ofWaivers row input.waivedPeriods input.waivers till =
      ReconciledInterest.ofWaivers row input.waivedPeriods input.waivers row.dueDate :=
    ReconciledInterest.ofWaivers_of_dueDate_le h
  simp only [targets, Extent.waiversTill]
  rw [hwaivers]
  rfl

/-- All that the targets of a row are computed from is in range. -/
structure InRange (input : AccrualInput) (cs : List Charge) (row : ScheduleRow) : Prop where
  waivers : row.WaiversInRange input.waivedPeriods input.waivers
  places : row.currency.decimalPlaces.toNat ≤ 10
  chargesFine : ∀ a ∈ cs.flatMap Charge.amounts, a.Fine
  chargesSize : totalSize (cs.flatMap Charge.amounts) < 10 ^ 18

theorem InRange.row_inRange (h : input.InRange cs row) : row.InRange where
  fine := h.waivers.rowFine
  places := h.places
  size := by
    have hsize := h.waivers.size
    have hperiods := totalSize_nonneg (input.waivedPeriods.map (·.waived))
    have hwaivers := totalSize_nonneg (input.waivers.flatMap InterestWaiver.amounts)
    linarith

theorem daysUntil_le (a b : Date) : a.daysUntil b ≤ 2 * 10 ^ 8 := by
  have ha := a.first_le
  have hb := b.le_last
  simp only [Date.daysUntil]
  omega

private theorem round_small {a : Money} (hplaces : row.currency.decimalPlaces.toNat ≤ 10)
    (ha : |a.value| < 10 ^ 18) (mode : RoundingMode) :
    Small (11 * 10 ^ 17) (some (a.round row.currency mode)) := by
  have hround := Money.abs_roundTo_le a row.currency.decimalPlaces.toNat mode
  refine ⟨(Money.scale_roundTo_le _ _ _).trans hplaces, ?_⟩
  rw [Money.orZero_some]
  simp only [Money.round]
  linarith

private theorem interestTarget_small {mode : RoundingMode} {accruable target : Option Money}
    (hplaces : row.currency.decimalPlaces.toNat ≤ 10)
    (ha : ∀ a, accruable = some a → a.Fine ∧ |a.value| < 10 ^ 18)
    (h : interestTarget mode row e accruable = .ok target) : Small (11 * 10 ^ 17) target := by
  simp only [interestTarget] at h
  split at h
  · rw [← Except.ok.inj h]
    cases accruable with
    | none => exact .none (by norm_num)
    | some a => exact round_small hplaces (ha a rfl).2 mode
  · rw [← Except.ok.inj h]
    exact .none (by norm_num)
  · next till income =>
    obtain ⟨share, hshare, htarget⟩ := bind_eq_ok.mp h
    obtain ⟨hfine, hsize⟩ := ha income rfl
    obtain ⟨hle, -⟩ := Money.prorate_le hfine (by unfold Money.room; linarith)
      (daysUntil_le _ _) hshare
    rw [← pure_eq_ok.mp htarget]
    exact round_small hplaces (hle.trans_lt hsize) mode

private theorem feeTarget_small {fee : Money} (hplaces : row.currency.decimalPlaces.toNat ≤ 10)
    (hfee : |fee.value| < 10 ^ 18) (mode : RoundingMode) :
    Small (11 * 10 ^ 17) (fee.nonZero.map fun m => m.round row.currency mode) := by
  cases hz : fee.nonZero with
  | none => exact .none (by norm_num)
  | some m =>
    have hvalue := Money.value_orZero_nonZero fee
    rw [hz, Money.orZero_some] at hvalue
    exact round_small hplaces (hvalue ▸ hfee) mode

/-- Targets are exact. -/
theorem targets_small (hin : input.InRange cs row) (h : input.targets s cs row e = .ok x)
    (c : Column) : Small (11 * 10 ^ 17) (x.of c) := by
  obtain ⟨fee, penalty, i, hfee, hpenalty, hi, hinterest, hxFee, hxPenalty⟩ := targets_eq_ok.mp h
  obtain ⟨-, hfeeSize⟩ := income_fine hin.chargesFine hin.chargesSize hfee
  obtain ⟨-, hpenaltySize⟩ := income_fine hin.chargesFine hin.chargesSize hpenalty
  cases c with
  | interest =>
    exact interestTarget_small hin.places
      (fun a ha => ReconciledInterest.ofWaivers_fine hin.waivers hi ha) hinterest
  | fee =>
    show Small _ x.fee
    rw [hxFee]
    exact feeTarget_small hin.places hfeeSize s.rounding
  | penalty =>
    show Small _ x.penalty
    rw [hxPenalty]
    exact feeTarget_small hin.places hpenaltySize s.rounding

theorem portion_exact {row₀ : ScheduleRow} (hin : input.InRange cs row₀) (hrow : row₀.SameTerms row)
    (hcolumns : ∀ c, Small (21 * 10 ^ 17) (row.accrued c))
    (hx : input.targets s cs row₀ e = .ok x) (c : Column) :
    Portion.Exact (x.of c) (row.accrued c) (row.credited c) := by
  refine ⟨targets_small hin hx c, hcolumns c, ?_⟩
  rw [hrow.credited c]
  exact hin.row_inRange.small_credited c

/-- A proposal is what is missing to the targets, on a row and charges that kept their terms. -/
theorem settle_of_propose {row₀ : ScheduleRow} {id : TransactionId} {p : PreparedAccrual}
    {o : Option Posting} (hin : input.InRange cs row₀) (hrow : row₀.SameTerms row)
    (hds : List.Forall₂ Charge.SameTerms cs ds)
    (hcolumns : ∀ c, Small (21 * 10 ^ 17) (row.accrued c))
    (h : input.propose s processedOn ds id row e = .ok (p, o)) :
    ∃ x parts, input.targets s cs row₀ e = .ok x ∧ x.Settle row parts o ∧
      ∀ c, Portion.Exact (x.of c) (row.accrued c) (row.credited c) := by
  obtain ⟨x, parts, hx, hsettle⟩ := targets_of_propose h
  rw [targets_congr hrow hds] at hx
  exact ⟨x, parts, hx, hsettle, portion_exact hin hrow hcolumns hx⟩

/-- No amount of the row or of what its income is computed from is negative, and no charge is waived
beyond its amount. -/
structure Nonneg (input : AccrualInput) (cs : List Charge) (row : ScheduleRow) : Prop where
  income : ∀ a, row.interestIncome = some a → 0 ≤ a.value
  accrued : ∀ c, 0 ≤ (Money.orZero (row.accrued c)).value
  credited : ∀ c, 0 ≤ (Money.orZero (row.credited c)).value
  periods : ∀ p ∈ input.waivedPeriods, 0 ≤ p.waived.value
  waivers : ∀ a ∈ input.waivers.flatMap InterestWaiver.amounts, 0 ≤ a.value
  charges : ∀ c ∈ cs, c.Covered

/-- No amount that the interest of the row is computed from is negative. -/
structure InterestNonneg (input : AccrualInput) (row : ScheduleRow) : Prop where
  income : ∀ a, row.interestIncome = some a → 0 ≤ a.value
  periods : ∀ p ∈ input.waivedPeriods, 0 ≤ p.waived.value
  waivers : ∀ a ∈ input.waivers.flatMap InterestWaiver.amounts, 0 ≤ a.value

theorem Nonneg.interest (h : input.Nonneg cs row) : input.InterestNonneg row :=
  ⟨h.income, h.periods, h.waivers⟩

private theorem interestTarget_nonneg {mode : RoundingMode} {accruable target : Option Money}
    (ha : ∀ a, accruable = some a → a.Fine ∧ |a.value| < 10 ^ 18 ∧ 0 ≤ a.value)
    (h : interestTarget mode row e accruable = .ok target) : 0 ≤ (Money.orZero target).value := by
  have hzero : target = none → 0 ≤ (Money.orZero target).value := by
    rintro rfl
    rw [Money.orZero_none, Money.value_zero]
  simp only [interestTarget] at h
  split at h
  · cases accruable with
    | none => exact hzero (Except.ok.inj h).symm
    | some a =>
      rw [← Except.ok.inj h]
      exact Money.roundTo_nonneg (ha a rfl).2.2 _ _
  · exact hzero (Except.ok.inj h).symm
  · next till income =>
    obtain ⟨hfine, hsize, hnonneg⟩ := ha income rfl
    obtain ⟨share, hshare, htarget⟩ := bind_eq_ok.mp h
    obtain ⟨-, hshareNonneg⟩ := Money.prorate_le hfine (by unfold Money.room; linarith)
      (daysUntil_le _ _) hshare
    rw [← pure_eq_ok.mp htarget]
    exact Money.roundTo_nonneg (hshareNonneg hnonneg) _ _

/-- The interest-bearing days up to a later date are more, unless there are none up to the first. -/
private theorem days_mono {till till' : Date} (h : till < till') :
    (row.interestStartBy till).daysUntil till ≤ 0 ∨
      (row.interestStartBy till).daysUntil till < (row.interestStartBy till').daysUntil till' := by
  have hlater : till.day < till'.day := h
  simp only [ScheduleRow.interestStartBy]
  split
  · next start _ =>
    split
    · simp only [Date.min]
      split
      · next hstart =>
        have hstart' : start ≤ till' := Date.le_trans hstart (Int.le_of_lt h)
        rw [if_pos hstart']
        right
        simp only [Date.daysUntil]
        omega
      · left
        exact (Int.sub_self till.day).le
    · right
      simp only [Date.daysUntil]
      omega
  · right
    simp only [Date.daysUntil]
    omega

private theorem interestTarget_mono {mode : RoundingMode} {till : Date} {e' : Extent}
    {accruable accruable' target target' : Option Money}
    (ha : ∀ a, accruable = some a → a.Fine ∧ |a.value| < 10 ^ 18 ∧ 0 ≤ a.value ∧
      ∃ a', accruable' = some a' ∧ a.value ≤ a'.value)
    (ha' : ∀ a', accruable' = some a' → a'.Fine ∧ |a'.value| < 10 ^ 18 ∧ 0 ≤ a'.value)
    (hlater : ∀ till', e' = .upTo till' → till < till')
    (h : interestTarget mode row (.upTo till) accruable = .ok target)
    (h' : interestTarget mode row e' accruable' = .ok target') :
    (Money.orZero target).value ≤ (Money.orZero target').value := by
  cases accruable with
  | none =>
    have htarget : target = none := (Except.ok.inj h).symm
    rw [htarget, Money.orZero_none, Money.value_zero]
    exact interestTarget_nonneg ha' h'
  | some a =>
    obtain ⟨hfine, hsize, hnonneg, a', rfl, hle⟩ := ha a rfl
    obtain ⟨hfine', hsize', -⟩ := ha' a' rfl
    obtain ⟨share, hshare, htarget⟩ := bind_eq_ok.mp h
    obtain ⟨habs, hshareNonneg⟩ := Money.prorate_le hfine (by unfold Money.room; linarith)
      (daysUntil_le _ _) hshare
    have hshareNonneg := hshareNonneg hnonneg
    rw [← pure_eq_ok.mp htarget]
    cases e' with
    | whole till' =>
      have htarget' : target' = some (a'.round row.currency mode) := (Except.ok.inj h').symm
      rw [abs_of_nonneg hshareNonneg, abs_of_nonneg hnonneg] at habs
      rw [htarget']
      exact Money.roundTo_mono hshareNonneg (habs.trans hle) _ _
    | upTo till' =>
      obtain ⟨share', hshare', htarget'⟩ := bind_eq_ok.mp h'
      rw [← pure_eq_ok.mp htarget']
      refine Money.roundTo_mono hshareNonneg ?_ _ _
      exact Money.prorate_mono hfine hfine' (by unfold Money.room; linarith) hnonneg hle
        (days_mono (hlater till' rfl)) (daysUntil_le _ _) hshare hshare'

private theorem value_feeTarget (fee : Money) (currency : Currency) (mode : RoundingMode) :
    (Money.orZero (fee.nonZero.map fun m => m.round currency mode)).value =
      (fee.round currency mode).value := by
  cases hz : fee.nonZero with
  | none =>
    have hzero : fee.value = 0 := by
      rw [← Money.value_orZero_nonZero, hz, Money.orZero_none, Money.value_zero]
    have hround := Money.roundTo_nonneg hzero.ge currency.decimalPlaces.toNat mode
    have hle : (fee.roundTo currency.decimalPlaces.toNat mode).value ≤
        (Money.zero.roundTo currency.decimalPlaces.toNat mode).value :=
      Money.roundTo_mono hzero.ge (by rw [hzero, Money.value_zero]) _ _
    rw [Money.roundTo_of_scale_le Money.zero mode (Nat.zero_le _), Money.value_zero] at hle
    rw [Option.map_none, Money.orZero_none, Money.value_zero]
    exact (le_antisymm hle hround).symm
  | some m =>
    simp only [Money.nonZero] at hz
    split at hz
    · cases hz
    · rw [← Option.some.inj hz]
      rfl

private theorem accruable_nonneg {till : Date} {i : ReconciledInterest} (hin : input.InRange cs row)
    (hn : input.InterestNonneg row)
    (hi : ReconciledInterest.ofWaivers row input.waivedPeriods input.waivers till = .ok i) {a : Money}
    (ha : i.accruable = some a) : a.Fine ∧ |a.value| < 10 ^ 18 ∧ 0 ≤ a.value := by
  obtain ⟨hfine, hsize⟩ := ReconciledInterest.ofWaivers_fine hin.waivers hi ha
  obtain ⟨hnonneg, -⟩ := ReconciledInterest.ofWaivers_mono hin.waivers hn.income hn.periods
    hn.waivers (Int.le_refl _) hi hi ha
  exact ⟨hfine, hsize, hnonneg⟩

/-- The interest that a part of a period brings does not exceed that of a longer part and of the
whole. -/
theorem interest_mono {till : Date} {e' : Extent} {y : Targets} (hin : input.InRange cs row)
    (hn : input.InterestNonneg row) (hle : till ≤ e'.waiversTill)
    (h : input.targets s cs row (.upTo till) = .ok x) (h' : input.targets s cs row e' = .ok y) :
    (Money.orZero x.interest).value ≤ (Money.orZero y.interest).value := by
  by_cases hsame : e' = .upTo till
  · rw [hsame, h] at h'
    rw [Except.ok.inj h']
  have hlater : ∀ till', e' = .upTo till' → till < till' := by
    rintro till' rfl
    refine lt_of_le_of_ne (α := Int) hle fun hday => hsame ?_
    rw [Date.ext_day hday]
  obtain ⟨-, -, i, -, -, hi, hinterest, -, -⟩ := targets_eq_ok.mp h
  obtain ⟨-, -, i', -, -, hi', hinterest', -, -⟩ := targets_eq_ok.mp h'
  refine interestTarget_mono (fun a ha => ?_) (fun a' ha' => accruable_nonneg hin hn hi' ha') hlater
    hinterest hinterest'
  obtain ⟨hfine, hsize⟩ := ReconciledInterest.ofWaivers_fine hin.waivers hi ha
  exact ⟨hfine, hsize, ReconciledInterest.ofWaivers_mono hin.waivers hn.income hn.periods
    hn.waivers hle hi hi' ha⟩

/-- The targets of a part of a period do not exceed those of a longer part and of the whole. -/
theorem targets_mono {till : Date} {e' : Extent} {y : Targets} (hin : input.InRange cs row)
    (hn : input.Nonneg cs row) (htill : till < row.dueDate) (hle : till ≤ e'.waiversTill)
    (h : input.targets s cs row (.upTo till) = .ok x) (h' : input.targets s cs row e' = .ok y)
    (c : Column) : (Money.orZero (x.of c)).value ≤ (Money.orZero (y.of c)).value := by
  have hwindow : ∃ till', e'.window row = ⟨row.fromDate, till'⟩ ∧ till ≤ till' := by
    cases e' with
    | whole till' => exact ⟨row.dueDate, rfl, Int.le_of_lt htill⟩
    | upTo till' => exact ⟨till', rfl, hle⟩
  obtain ⟨till', hwindow, hfinish⟩ := hwindow
  obtain ⟨fee, penalty, -, hfee, hpenalty, -, -, hxFee, hxPenalty⟩ := targets_eq_ok.mp h
  obtain ⟨fee', penalty', -, hfee', hpenalty', -, -, hyFee, hyPenalty⟩ := targets_eq_ok.mp h'
  rw [hwindow] at hfee' hpenalty'
  have hmono : ∀ {b : Bool} {u v : Money},
      income b s.policy row ⟨row.fromDate, till⟩ cs = .ok u →
      income b s.policy row ⟨row.fromDate, till'⟩ cs = .ok v →
      (u.round row.currency s.rounding).value ≤ (v.round row.currency s.rounding).value :=
    fun hu hv => Money.roundTo_mono (income_nonneg hin.chargesFine hin.chargesSize hn.charges hu)
      (income_mono hin.chargesFine hin.chargesSize hn.charges htill hfinish hu hv) _ _
  cases c with
  | interest => exact interest_mono hin hn.interest hle h h'
  | fee =>
    show (Money.orZero x.fee).value ≤ (Money.orZero y.fee).value
    rw [hxFee, hyFee, value_feeTarget, value_feeTarget]
    exact hmono hfee hfee'
  | penalty =>
    show (Money.orZero x.penalty).value ≤ (Money.orZero y.penalty).value
    rw [hxPenalty, hyPenalty, value_feeTarget, value_feeTarget]
    exact hmono hpenalty hpenalty'

/-- A charge that brings nothing to the window of an extent can be left out. -/
theorem targets_without {c : Charge} (hin : input.InRange (cs ++ c :: ds) row)
    (hcovered : ∀ d ∈ cs ++ c :: ds, d.Covered)
    (hc : ∀ m, c.incomeIn s.policy row (e.window row) = .ok m → m.value = 0)
    (h : input.targets s (cs ++ c :: ds) row e = .ok x) :
    ∃ y, input.targets s (cs ++ ds) row e = .ok y ∧
      ∀ c, (Money.orZero (x.of c)).value ≤ (Money.orZero (y.of c)).value := by
  obtain ⟨fee, penalty, i, hfee, hpenalty, hi, hinterest, hxFee, hxPenalty⟩ := targets_eq_ok.mp h
  obtain ⟨fee', hfee', hfeeValue⟩ := income_without hin.chargesFine hin.chargesSize hc hfee
  obtain ⟨penalty', hpenalty', hpenaltyValue⟩ :=
    income_without hin.chargesFine hin.chargesSize hc hpenalty
  have hround : ∀ {b : Bool} {u v : Money},
      income b s.policy row (e.window row) (cs ++ c :: ds) = .ok u → v.value = u.value →
      (u.round row.currency s.rounding).value ≤ (v.round row.currency s.rounding).value :=
    fun hu huv => Money.roundTo_mono (income_nonneg hin.chargesFine hin.chargesSize hcovered hu)
      huv.ge _ _
  refine ⟨⟨x.interest, fee'.nonZero.map (·.round row.currency s.rounding),
    penalty'.nonZero.map (·.round row.currency s.rounding)⟩,
    targets_eq_ok.mpr ⟨fee', penalty', i, hfee', hpenalty', hi, hinterest, rfl, rfl⟩, fun c => ?_⟩
  cases c with
  | interest => exact le_rfl
  | fee =>
    show (Money.orZero x.fee).value ≤ (Money.orZero (fee'.nonZero.map _)).value
    rw [hxFee, value_feeTarget, value_feeTarget]
    exact hround hfee hfeeValue
  | penalty =>
    show (Money.orZero x.penalty).value ≤ (Money.orZero (penalty'.nonZero.map _)).value
    rw [hxPenalty, value_feeTarget, value_feeTarget]
    exact hround hpenalty hpenaltyValue

end AccrualInput

/-- Each task has its proposal, on charges that kept their terms. -/
theorem Accrues.proposals {input : AccrualInput} {s : Settings} {processedOn : Date}
    {cs ds : List Charge} {n : Nat} {tasks : List (ScheduleRow × Extent)}
    {os : List (Option Posting)} {cs₀ : List Charge} (h : Accrues input s processedOn cs n tasks os ds)
    (hcs : List.Forall₂ Charge.SameTerms cs₀ cs) :
    List.Forall₂ (fun task o => ∃ cs' id p, List.Forall₂ Charge.SameTerms cs₀ cs' ∧
      input.propose s processedOn cs' id task.1 task.2 = .ok (p, o)) tasks os ∧
    List.Forall₂ Charge.SameTerms cs₀ ds := by
  induction h with
  | done => exact ⟨.nil, hcs⟩
  | rest hpropose _ ih =>
    obtain ⟨hrest, hds⟩ := ih hcs
    exact ⟨.cons ⟨_, _, _, hcs, hpropose⟩ hrest, hds⟩
  | posts hpropose happly _ ih =>
    obtain ⟨hrest, hds⟩ :=
      ih (Charge.forall₂_sameTerms_trans hcs (Apportionment.applyTo_sameTerms happly))
    exact ⟨.cons ⟨_, _, _, hcs, hpropose⟩ hrest, hds⟩

end LoanLedger
