import LoanLedger.Proofs.Accrual.Target
import LoanLedger.Proofs.Consistency
import LoanLedger.Proofs.Money.Load
import LoanLedger.Proofs.Money.RoundedOnce

/-!
The interest for a part of a period. The share of the income is rounded in the quotient for one day
and in the product with the days before it is rounded to the currency. That does not show, unless
the exact share is where the mode turns from one result to the next and the income does not divide
into days; then the result may be the neighbour of the one that is due.
-/

set_option autoImplicit false
set_option relaxedAutoImplicit false

namespace LoanLedger

/-- The days of the interest-bearing part of a period. -/
def ScheduleRow.interestDays (row : ScheduleRow) : Int := row.interestStart.daysUntil row.dueDate

/-- The days of it that have passed at a date. -/
def ScheduleRow.daysPassed (row : ScheduleRow) (till : Date) : Int :=
  (row.interestStartBy till).daysUntil till

namespace Money

/-- The exact share of an amount. -/
def share (x : Money) (part whole : Int) : ℚ := x.value * part / whole

section Share

variable {x p : Money} {part whole : Int} {places : Nat} {mode : RoundingMode}

/-- An amount, some of the days that it is for, and the decimal places that their share is rounded
to. -/
structure Prorated (x : Money) (part whole : Int) (places : Nat) : Prop where
  fine : x.Fine
  nonneg : 0 ≤ x.value
  lt : x.value < 10 ^ 18
  part_pos : 0 < part
  part_lt : part < whole
  whole_le : whole ≤ 2 * 10 ^ 8
  places_le : places ≤ 10

/-- Income times days, counted at the finer of both scales, leaves two of the 28 digits to spare. -/
def FewDigits (x : Money) (whole : Int) (places : Nat) : Prop :=
  x.value * whole * 10 ^ Nat.max x.scale places ≤ 10 ^ 26

theorem Prorated.abs_lt_room (h : Prorated x part whole places) : |x.value| < room := by
  rw [abs_of_nonneg h.nonneg]
  exact h.lt.trans (by norm_num [room])

theorem Prorated.whole_pos (h : Prorated x part whole places) : (0 : ℚ) < whole := by
  exact_mod_cast h.part_pos.trans h.part_lt

theorem Prorated.share_nonneg (h : Prorated x part whole places) : 0 ≤ x.share part whole := by
  have hpart : (0 : ℚ) < part := by exact_mod_cast h.part_pos
  exact div_nonneg (mul_nonneg h.nonneg hpart.le) h.whole_pos.le

theorem Prorated.share_le (h : Prorated x part whole places) : x.share part whole ≤ x.value := by
  have hlt : (part : ℚ) ≤ whole := by exact_mod_cast h.part_lt.le
  rw [share, div_le_iff₀ h.whole_pos]
  exact mul_le_mul_of_nonneg_left hlt h.nonneg

theorem Prorated.nonneg_of_prorate (h : Prorated x part whole places)
    (hp : x.prorate part whole = .ok p) : 0 ≤ p.value :=
  (prorate_le h.fine h.abs_lt_room h.whole_le hp).2 h.nonneg

/-- The share that was computed is nearer to the exact one than a fraction with this denominator is
to an edge. -/
private theorem Prorated.near (h : Prorated x part whole places) (hdigits : FewDigits x whole places)
    (hp : x.prorate part whole = .ok p) :
    |p.value * 10 ^ places - x.share part whole * 10 ^ places| *
      (2 * (whole * 10 ^ (Nat.max x.scale places - places))) < 1 := by
  have hwhole : (whole : ℚ) ≤ 2 * 10 ^ 8 := by exact_mod_cast h.whole_le
  have hwholePos := h.whole_pos
  have herror := prorate_error h.fine h.part_pos h.part_lt h.whole_le hp
  rw [abs_of_nonneg h.nonneg, abs_of_nonneg (h.nonneg_of_prorate hp)] at herror
  have hscales : Nat.max x.scale places ≤ 10 := Nat.max_le.mpr ⟨h.fine, h.places_le⟩
  have hpow : (10 : ℚ) ^ Nat.max x.scale places ≤ 10 ^ 10 :=
    pow_le_pow_right₀ (by norm_num) hscales
  have hsplit : (10 : ℚ) ^ Nat.max x.scale places =
      10 ^ places * 10 ^ (Nat.max x.scale places - places) := by
    rw [← pow_add, Nat.add_sub_of_le (Nat.le_max_right _ _)]
  have hsquare : (whole : ℚ) * whole * 10 ^ Nat.max x.scale places ≤
      2 * 10 ^ 8 * (2 * 10 ^ 8) * 10 ^ 10 := by gcongr
  have hincome : x.value * whole * 10 ^ Nat.max x.scale places ≤ 10 ^ 26 := hdigits
  have hfactor : |p.value * 10 ^ places - x.share part whole * 10 ^ places| =
      |p.value - x.value * part / whole| * 10 ^ places := by
    rw [← sub_mul, abs_mul, abs_of_pos (a := (10 : ℚ) ^ places) (by positivity), share]
  rw [hfactor]
  calc _ = |p.value - x.value * part / whole| * (2 * whole * 10 ^ Nat.max x.scale places) := by
        rw [hsplit]
        ring
    _ ≤ (2 * whole / 10 ^ 28 + 2 * x.value / 10 ^ 27) *
          (2 * whole * 10 ^ Nat.max x.scale places) :=
        mul_le_mul_of_nonneg_right herror (by positivity)
    _ = whole * whole * 10 ^ Nat.max x.scale places * (4 / 10 ^ 28) +
        x.value * whole * 10 ^ Nat.max x.scale places * (4 / 10 ^ 27) := by ring
    _ ≤ 2 * 10 ^ 8 * (2 * 10 ^ 8) * 10 ^ 10 * (4 / 10 ^ 28) + 10 ^ 26 * (4 / 10 ^ 27) := by
        gcongr
    _ < 1 := by norm_num

/-- The denominator counts the exact share in whole numbers. -/
private theorem Prorated.count (h : Prorated x part whole places) : ∃ (d : Nat) (n : ℤ), 0 < d ∧
    (d : ℚ) = whole * 10 ^ (Nat.max x.scale places - places) ∧
    x.share part whole * 10 ^ places * d = n := by
  obtain ⟨days, hdays⟩ := Int.eq_ofNat_of_zero_le (h.part_pos.trans h.part_lt).le
  have hcast : (whole : ℚ) = days := by exact_mod_cast hdays
  have hpos : 0 < days := by
    have := h.part_pos.trans h.part_lt
    omega
  have hsplit : (10 : ℚ) ^ Nat.max x.scale places =
      10 ^ places * 10 ^ (Nat.max x.scale places - places) := by
    rw [← pow_add, Nat.add_sub_of_le (Nat.le_max_right _ _)]
  have hne : (whole : ℚ) ≠ 0 := h.whole_pos.ne'
  refine ⟨days * 10 ^ (Nat.max x.scale places - places),
    x.unitsAt (Nat.max x.scale places) * part, Nat.mul_pos hpos (by positivity), ?_, ?_⟩
  · rw [hcast]
    push_cast
    ring
  · push_cast
    rw [unitsAt_eq_value x (Nat.le_max_left _ _), hsplit, ← hcast, share]
    field_simp

/-- An exact share on an edge is an amount. -/
private theorem Prorated.exists_of_edge (h : Prorated x part whole places)
    (hdigits : FewDigits x whole places) (hedge : mode.OnEdge (x.share part whole * 10 ^ places)) :
    ∃ e : Money, e.value = x.share part whole := by
  obtain ⟨z, hz⟩ := hedge
  obtain ⟨twice, htwice⟩ := mode.exists_two_mul_lead
  -- An edge lies on a half of a unit at most, so one more place writes it down.
  have hcount : x.share part whole * 10 ^ (places + 1) = ((5 * (2 * z - twice) : ℤ) : ℚ) := by
    push_cast
    rw [pow_succ, ← hz, ← htwice]
    ring
  have hpos : (0 : ℚ) < 10 ^ (places + 1) := by positivity
  obtain ⟨m, hm⟩ : ∃ m : Nat, 5 * (2 * z - twice) = m := by
    refine Int.eq_ofNat_of_zero_le ?_
    have hnonneg := mul_nonneg h.share_nonneg hpos.le
    rw [hcount] at hnonneg
    exact_mod_cast hnonneg
  rw [hm, Int.cast_natCast] at hcount
  have hlt : m < limit := by
    have hone : (1 : ℚ) ≤ whole := by exact_mod_cast h.part_pos.trans h.part_lt
    have hpow : (10 : ℚ) ^ places ≤ 10 ^ Nat.max x.scale places :=
      pow_le_pow_right₀ (by norm_num) (Nat.le_max_right _ _)
    have hincome : x.value * whole * 10 ^ Nat.max x.scale places ≤ 10 ^ 26 := hdigits
    have hbound : (m : ℚ) < limit := by
      calc (m : ℚ) = x.share part whole * 10 ^ places * 10 := by rw [← hcount, pow_succ, mul_assoc]
        _ ≤ x.value * whole * 10 ^ Nat.max x.scale places * 10 := by
            have hshare : x.share part whole ≤ x.value * whole :=
              h.share_le.trans (le_mul_of_one_le_right h.nonneg hone)
            have hproduct : 0 ≤ x.value * whole := h.share_nonneg.trans hshare
            gcongr
        _ ≤ 10 ^ 26 * 10 := by gcongr
        _ < limit := by norm_num [limit]
    exact_mod_cast hbound
  have hplaces := h.places_le
  refine ⟨⟨false, m, places + 1, hlt, by omega⟩, ?_⟩
  have hvalue : (⟨false, m, places + 1, hlt, by omega⟩ : Money).value = m / 10 ^ (places + 1) := rfl
  rw [hvalue, ← hcount, mul_div_cancel_right₀ _ hpos.ne']

/-- Where the amount divides into days and the exact share is an amount, it is computed. -/
private theorem Prorated.exact (h : Prorated x part whole places) {day e : Money}
    (hday : day.value * whole = x.value) (he : e.value = x.share part whole)
    (hp : x.prorate part whole = .ok p) : p.value = x.share part whole := by
  have hwhole := h.whole_pos
  have hlt := h.part_lt
  have hpos := h.part_pos
  obtain ⟨hb, hbneg, hbscale⟩ := mantissa_ofInt (hpos.trans hlt) h.whole_le
  obtain ⟨-, -, hkscale⟩ := mantissa_ofInt hpos (hlt.le.trans h.whole_le)
  have hsmall : whole.natAbs < limit := by
    have := h.whole_le
    simp only [limit]
    omega
  simp only [prorate] at hp
  rw [if_neg (by omega), if_neg (by omega)] at hp
  obtain ⟨c, hdiv, hmul⟩ := bind_eq_ok.mp hp
  have hc := div_exact (q := day) hbscale hbneg h.nonneg (by rw [value_ofInt hsmall, hday]) hdiv
  have hclose := (mul_rounds hkscale hmul).close e
  rw [value_ofInt (by omega), hc, he] at hclose
  have hshare : day.value * part = x.share part whole := by
    rw [share, ← hday]
    field_simp
  rw [hshare, sub_self, abs_zero, mul_zero] at hclose
  exact sub_eq_zero.mp (abs_nonpos_iff.mp hclose)

/-- The share at the precision of a currency is the exact one rounded once, or its neighbour; it is
the exact one rounded once where that is off the edges or the amount divides into days. -/
theorem Prorated.roundTo (h : Prorated x part whole places) (hdigits : FewDigits x whole places)
    (hp : x.prorate part whole = .ok p) (mode : RoundingMode) :
    |(p.roundTo places mode).value - mode.rounded places (x.share part whole)| ≤
        1 / 10 ^ places ∧
      ((¬mode.OnEdge (x.share part whole * 10 ^ places) ∨
          ∃ day : Money, day.value * whole = x.value) →
        (p.roundTo places mode).value = mode.rounded places (x.share part whole)) := by
  have hpow : (0 : ℚ) < 10 ^ places := by positivity
  have hplaces := h.places_le
  obtain ⟨d, n, hd, hdValue, hcount⟩ := h.count
  have hdpos : (0 : ℚ) < d := by exact_mod_cast hd
  have hone : (1 : ℚ) ≤ d := by exact_mod_cast hd
  have hnear := h.near hdigits hp
  rw [← hdValue] at hnear
  rw [value_roundTo (h.nonneg_of_prorate hp) mode (by omega)]
  constructor
  · have hunit : |p.value * 10 ^ places - x.share part whole * 10 ^ places| < 1 := by
      refine lt_of_le_of_lt (le_mul_of_one_le_right (abs_nonneg _) ?_) hnear
      linarith
    have hwhole : ((|mode.whole (p.value * 10 ^ places) -
        mode.whole (x.share part whole * 10 ^ places)| : ℤ) : ℚ) ≤ 1 := by
      exact_mod_cast RoundingMode.abs_whole_sub_le hunit
    push_cast at hwhole
    rw [RoundingMode.rounded, RoundingMode.rounded, ← sub_div, abs_div, abs_of_pos hpow]
    exact div_le_div_of_nonneg_right hwhole hpow.le
  · intro hexact
    by_cases hedge : mode.OnEdge (x.share part whole * 10 ^ places)
    · obtain ⟨day, hday⟩ := hexact.resolve_left (not_not_intro hedge)
      obtain ⟨e, he⟩ := h.exists_of_edge hdigits hedge
      rw [h.exact hday he hp]
    · have hsame : mode.whole (p.value * 10 ^ places) =
          mode.whole (x.share part whole * 10 ^ places) := by
        refine RoundingMode.whole_eq_of_near fun z => ?_
        refine lt_of_lt_of_le ?_ (RoundingMode.edge_distance hd hcount hedge z)
        rwa [lt_div_iff₀ (by positivity)]
      rw [RoundingMode.rounded, hsame, RoundingMode.rounded]

end Share
end Money

namespace PreparedAccrual

/-- The interest for a part of a period is there. It is the exact share of the accruable interest
rounded once, or its neighbour; it is the exact share rounded once where that is off the edges of the
rounding mode or the interest divides into days. -/
theorem interestTill_rounded {p : PreparedAccrual} {income : Money} {rounding : RoundingMode}
    {till : Date} (hincome : p.interest.accruable = some income) (hfine : income.Fine)
    (hnonneg : 0 ≤ income.value) (hlt : income.value < 10 ^ 18)
    (hplaces : p.row.currency.decimalPlaces.toNat ≤ 10) (hpassed : 0 < p.row.daysPassed till)
    (hdays : p.row.daysPassed till < p.row.interestDays) :
    ∃ target, p.interestTill rounding till = .ok (some target) ∧
      (income.FewDigits p.row.interestDays p.row.currency.decimalPlaces.toNat →
        |target.value - rounding.rounded p.row.currency.decimalPlaces.toNat
          (income.share (p.row.daysPassed till) p.row.interestDays)| ≤
            1 / 10 ^ p.row.currency.decimalPlaces.toNat ∧
        ((¬rounding.OnEdge (income.share (p.row.daysPassed till) p.row.interestDays *
              10 ^ p.row.currency.decimalPlaces.toNat) ∨
            ∃ day : Money, day.value * p.row.interestDays = income.value) →
          target.value = rounding.rounded p.row.currency.decimalPlaces.toNat
            (income.share (p.row.daysPassed till) p.row.interestDays))) := by
  have hprorated : Money.Prorated income (p.row.daysPassed till) p.row.interestDays
      p.row.currency.decimalPlaces.toNat :=
    ⟨hfine, hnonneg, hlt, hpassed, hdays, AccrualInput.daysUntil_le _ _, hplaces⟩
  have hload := income.load_le
  rw [abs_of_nonneg hnonneg] at hload
  obtain ⟨share, hshare, -⟩ := Money.exists_prorate_of_load (x := income) (by linarith)
    hprorated.whole_le (p.row.daysPassed till)
  refine ⟨share.round p.row.currency rounding, ?_, fun hdigits =>
    hprorated.roundTo hdigits hshare rounding⟩
  simp only [interestTill]
  rw [hincome]
  exact bind_eq_ok.mpr ⟨share, hshare, rfl⟩

end PreparedAccrual

/-! January with 30 days, up to the 11th and up to the 4th. -/

/-- Interest on the first row, without waivers and charges. -/
def januaryInterest (income : Money) : PreparedAccrual where
  row := { januaryRow with interestIncome := some income }
  charges := .empty
  interest := .unchanged (some income)

/-- 2024-01-11. -/
def eleventhOfJanuary : Date := ⟨739191 + 10, by decide, by decide⟩

/-- Ten days of 100.00 are 33.33. -/
theorem interestTill_rounded_tenDays : ∃ target,
    (januaryInterest (cents 10000)).interestTill .halfEven eleventhOfJanuary = .ok (some target) ∧
      target.value = 3333 / 100 := by
  obtain ⟨target, htarget, hrounded⟩ := @PreparedAccrual.interestTill_rounded
    (januaryInterest (cents 10000)) (cents 10000) .halfEven eleventhOfJanuary rfl
    (show 2 ≤ 10 by decide) (by decide +kernel) (by decide +kernel) (by decide) (by decide)
    (by decide)
  refine ⟨target, htarget, ?_⟩
  have hshare : (cents 10000).share 10 30 * 10 ^ 2 = 10000 / 3 := by decide +kernel
  have hedge : ¬RoundingMode.halfEven.OnEdge ((cents 10000).share 10 30 * 10 ^ 2) := by
    rintro ⟨z, hz⟩
    rw [hshare] at hz
    have hsix : (20003 : ℚ) = 6 * z := by
      rw [← hz]
      norm_num [RoundingMode.lead]
    have hsix : (20003 : ℤ) = 6 * z := by exact_mod_cast hsix
    omega
  have hdigits : (cents 10000).FewDigits 30 2 := by
    unfold Money.FewDigits
    decide +kernel
  calc target.value = RoundingMode.halfEven.rounded 2 ((cents 10000).share 10 30) :=
        (hrounded hdigits).2 (.inl hedge)
    _ = 3333 / 100 := by decide +kernel

/-- 2024-01-04. -/
def fourthOfJanuary : Date := ⟨739191 + 3, by decide, by decide⟩

/-- Three days of 70.25 are 7.025, halfway between 7.02 and 7.03: a day of it is not an amount, and
the quotient that is too large takes the product past the edge. Three days of 40.00 are 4.00, and the
quotient that is too small takes the product below it. -/
theorem interestTill_of_roundedDay :
    (januaryInterest (cents 7025)).row.daysPassed fourthOfJanuary = 3 ∧
      (januaryInterest (cents 7025)).row.interestDays = 30 ∧
      RoundingMode.halfEven.rounded 2 ((cents 7025).share 3 30) = (cents 702).value ∧
      ((januaryInterest (cents 7025)).interestTill .halfEven fourthOfJanuary).toOption =
        some (some (cents 703)) ∧
      RoundingMode.down.rounded 2 ((cents 4000).share 3 30) = (cents 400).value ∧
      ((januaryInterest (cents 4000)).interestTill .down fourthOfJanuary).toOption =
        some (some (cents 399)) := by
  decide +kernel

end LoanLedger
