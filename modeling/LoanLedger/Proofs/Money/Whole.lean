import LoanLedger.Proofs.Money.Exact
import LoanLedger.Proofs.Money.Rounding

/-!
Amounts of whole units. An amount that is a whole number of the smallest units of a currency keeps
its value when it is rounded to that currency, and so do sums and differences of such amounts.
-/

set_option autoImplicit false
set_option relaxedAutoImplicit false

namespace LoanLedger

/-- The values that are whole numbers of units of `10 ^ (-places)`. -/
def wholeUnits (places : Nat) : AddSubgroup ℚ := AddSubgroup.zmultiples (((10 : ℚ) ^ places)⁻¹)

namespace Money

variable {places : Nat} {a b c : Money}

/-- Rounding to a currency whose units are not coarser keeps a value of whole units. -/
theorem value_roundTo_of_whole (ha : 0 ≤ a.value) (hwhole : a.value ∈ wholeUnits places) {q : Nat}
    (hq : places ≤ q) (mode : RoundingMode) : (a.roundTo q mode).value = a.value := by
  by_cases hscale : a.scale ≤ q
  · rw [roundTo_of_scale_le a mode hscale]
  · have hfits : q ≤ 28 := (Nat.le_of_not_le hscale).trans a.scale_le
    obtain ⟨z, hz⟩ := AddSubgroup.mem_zmultiples_iff.mp hwhole
    have hunit : (0 : ℚ) < (10 ^ places)⁻¹ := by positivity
    rw [zsmul_eq_mul] at hz
    have hzNonneg : 0 ≤ z := by
      have hcast : (0 : ℚ) ≤ z := nonneg_of_mul_nonneg_left (hz ▸ ha) hunit
      exact_mod_cast hcast
    obtain ⟨n, rfl⟩ := Int.eq_ofNat_of_zero_le hzNonneg
    -- at the finest scale the digits that are cut off are zeros
    have hdigits : a.mantissa * tenTo (28 - a.scale) = n * tenTo (q - places) * tenTo (28 - q) := by
      have hvalue : ((a.mantissa * tenTo (28 - a.scale) : Nat) : ℚ) = a.value * 10 ^ 28 :=
        mantissa_mul_tenTo ha
      have hsplit : (10 : ℚ) ^ 28 = 10 ^ places * 10 ^ (q - places) * 10 ^ (28 - q) := by
        rw [← pow_add, ← pow_add, Nat.add_sub_of_le hq, Nat.add_sub_of_le hfits]
      have hne : (10 : ℚ) ^ places ≠ 0 := by positivity
      rw [← hz, hsplit] at hvalue
      rw [← Nat.cast_inj (R := ℚ), hvalue, tenTo_eq_pow, tenTo_eq_pow]
      push_cast
      field_simp
    have hround := abs_value_roundTo a mode hfits
    have hexact := roundedMantissa_mul_tenTo mode (n * tenTo (q - places)) 0 (28 - q)
    rw [Nat.zero_add, roundedMantissa_zero_right] at hexact
    rw [hdigits, hexact, abs_of_nonneg (roundTo_nonneg ha q mode)] at hround
    have hpos : (0 : ℚ) < 10 ^ q := by positivity
    have hsplit : (10 : ℚ) ^ q = 10 ^ places * 10 ^ (q - places) := by
      rw [← pow_add, Nat.add_sub_of_le hq]
    have hne : (10 : ℚ) ^ places ≠ 0 := by positivity
    apply mul_right_cancel₀ hpos.ne'
    rw [hround, ← hz, hsplit, tenTo_eq_pow]
    push_cast
    field_simp

theorem fine_roundTo (ha : a.Fine) (q : Nat) (mode : RoundingMode) : (a.roundTo q mode).Fine := by
  by_cases hscale : a.scale ≤ q
  · rw [roundTo_of_scale_le a mode hscale]
    exact ha
  · exact (scale_roundTo_le a q mode).trans ((Nat.le_of_not_le hscale).trans ha)

/-- An amount of whole units that is not negative, with at most ten decimal places and below
`10 ^ 18`. -/
structure Plain (places : Nat) (a : Money) : Prop where
  fine : a.Fine
  whole : a.value ∈ wholeUnits places
  nonneg : 0 ≤ a.value
  small : a.value < 10 ^ 18

theorem plain_zero : zero.Plain places where
  fine := fine_zero
  whole := value_zero ▸ (wholeUnits places).zero_mem
  nonneg := value_zero.ge
  small := by rw [value_zero]; norm_num

theorem Fine.plain (ha : a.Fine) (hnonneg : 0 ≤ a.value) (hsmall : a.value < 10 ^ 18) :
    a.Plain 10 where
  fine := ha
  whole := by
    refine AddSubgroup.mem_zmultiples_iff.mpr ⟨a.unitsAt 10, ?_⟩
    rw [zsmul_eq_mul, unitsAt_eq_value a ha, mul_inv_cancel_right₀ (by positivity)]
  nonneg := hnonneg
  small := hsmall

/-- A small amount that is not negative is plain at its own scale, and at finer ones. -/
theorem plain_of_scale_le (hsign : a.negative = false) (hscale : a.scale ≤ places)
    (hplaces : places ≤ 10) (hsmall : a.mantissa < 10 ^ 18 * 10 ^ a.scale) : a.Plain places := by
  have hvalue : a.value = a.mantissa / 10 ^ a.scale := by
    rw [value, units, if_neg (hsign ▸ Bool.false_ne_true), Int.cast_natCast]
  have hpos : (0 : ℚ) < 10 ^ a.scale := by positivity
  refine ⟨hscale.trans hplaces, ?_, ?_, ?_⟩
  · refine AddSubgroup.mem_zmultiples_iff.mpr ⟨a.mantissa * 10 ^ (places - a.scale), ?_⟩
    have hsplit : (10 : ℚ) ^ places = 10 ^ a.scale * 10 ^ (places - a.scale) := by
      rw [← pow_add, Nat.add_sub_of_le hscale]
    rw [zsmul_eq_mul, hvalue, hsplit]
    push_cast
    field_simp
  · rw [hvalue]
    positivity
  · rw [hvalue, div_lt_iff₀ hpos]
    exact_mod_cast hsmall

theorem Plain.orZero_nonZero (ha : a.Plain places) : (orZero a.nonZero).Plain places := by
  cases h : a.nonZero with
  | none => exact plain_zero
  | some b =>
    simp only [nonZero] at h
    split at h
    · cases h
    · exact Option.some.inj h ▸ ha

theorem Plain.add (ha : a.Plain places) (hb : b.Plain places) (h : a.add b = .ok c)
    (hsmall : a.value + b.value < 10 ^ 18) :
    c.Plain places ∧ c.value = a.value + b.value := by
  have hsum := add_nonneg ha.nonneg hb.nonneg
  obtain ⟨hfine, hvalue⟩ := add_value h ha.fine hb.fine
    (by rw [abs_of_nonneg hsum]; unfold room; linarith)
  exact ⟨⟨hfine, hvalue ▸ (wholeUnits places).add_mem ha.whole hb.whole, hvalue ▸ hsum,
    hvalue ▸ hsmall⟩, hvalue⟩

theorem Plain.add_exact (ha : a.Plain places) (hb : b.Plain places) :
    ∃ c, a.add b = .ok c ∧ c.Fine ∧ c.value = a.value + b.value := by
  refine Money.add_exact ha.fine hb.fine ?_
  rw [abs_of_nonneg (add_nonneg ha.nonneg hb.nonneg)]
  unfold room
  linarith [ha.small, hb.small]

theorem Plain.add_value (ha : a.Plain places) (hb : b.Plain places) (h : a.add b = .ok c) :
    c.Fine ∧ c.value = a.value + b.value := by
  obtain ⟨d, hd, hexact⟩ := ha.add_exact hb
  rw [hd] at h
  exact Except.ok.inj h ▸ hexact

theorem Plain.sub (ha : a.Plain places) (hb : b.Plain places) (h : a.sub b = .ok c)
    (hle : b.value ≤ a.value) : c.Plain places ∧ c.value = a.value - b.value := by
  have hdiff := sub_nonneg.mpr hle
  have hsmall := ha.small
  have hnonneg := hb.nonneg
  obtain ⟨hfine, hvalue⟩ := sub_value h ha.fine hb.fine
    (by rw [abs_of_nonneg hdiff]; unfold room; linarith)
  exact ⟨⟨hfine, hvalue ▸ (wholeUnits places).sub_mem ha.whole hb.whole, hvalue ▸ hdiff,
    by rw [hvalue]; linarith⟩, hvalue⟩

theorem whole_max_zero {v : ℚ} (hv : v ∈ wholeUnits places) : Max.max v 0 ∈ wholeUnits places := by
  rcases max_choice v 0 with h | h
  · exact h.symm ▸ hv
  · exact h.symm ▸ (wholeUnits places).zero_mem

/-- A clamped difference from a plain amount is exact; what is taken away may be larger. -/
theorem Plain.monus (ha : a.Plain places) (hb : b.Fine) (hwhole : b.value ∈ wholeUnits places)
    (hnonneg : 0 ≤ b.value) (hsmall : b.value ≤ 3 * 10 ^ 18) (h : a.monus b = .ok c) :
    c.Plain places ∧ c.value = Max.max (a.value - b.value) 0 := by
  have hroom : |a.value - b.value| < room := by
    have haSmall := ha.small
    have haNonneg := ha.nonneg
    unfold room
    rw [abs_lt]
    constructor <;> linarith
  obtain ⟨hfine, hvalue⟩ := monus_value h ha.fine hb hroom
  refine ⟨⟨hfine, ?_, hvalue ▸ le_max_right _ _, ?_⟩, hvalue⟩
  · rw [hvalue]
    exact whole_max_zero ((wholeUnits places).sub_mem ha.whole hwhole)
  · rw [hvalue]
    exact max_lt (by linarith [ha.small]) (by norm_num)

theorem Plain.min (ha : a.Plain places) (hb : b.Plain places) :
    (a.min b).Plain places ∧ (a.min b).value = Min.min a.value b.value := by
  simp only [Money.min]
  split
  · next h => exact ⟨ha, (min_eq_left (le_iff_value.mp h)).symm⟩
  · next h =>
    rw [le_iff_value, not_le] at h
    exact ⟨hb, (min_eq_right h.le).symm⟩

end Money
end LoanLedger
