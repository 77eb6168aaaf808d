import LoanLedger.Money.Rounding
import LoanLedger.Proofs.Money.Value

/-!
Rounding respects the order of amounts. What a rounding mode does to the digits that are cut off
depends on the value alone, so that two amounts can be compared at the finest scale.
-/

set_option autoImplicit false
set_option relaxedAutoImplicit false

namespace LoanLedger

private theorem bumps_zero (mode : RoundingMode) (q : Nat) {p : Nat} (hp : 0 < p) :
    mode.bumps q 0 p = false := by
  cases mode <;> simp [RoundingMode.bumps] <;> omega

private theorem bumps_mono (mode : RoundingMode) {q r r' p : Nat} (hr : r ≤ r')
    (h : mode.bumps q r p = true) : mode.bumps q r' p = true := by
  cases mode <;> simp only [RoundingMode.bumps, decide_eq_true_eq, Bool.false_eq_true] at h ⊢ <;>
    omega

private theorem bumps_mul (mode : RoundingMode) (q r p : Nat) {c : Nat} (hc : 0 < c) :
    mode.bumps q (r * c) (p * c) = mode.bumps q r p := by
  have hlt : p * c < 2 * (r * c) ↔ p < 2 * r := by
    rw [← Nat.mul_assoc]
    exact Nat.mul_lt_mul_right hc
  have hle : p * c ≤ 2 * (r * c) ↔ p ≤ 2 * r := by
    rw [← Nat.mul_assoc]
    exact Nat.mul_le_mul_right_iff hc
  have heq : 2 * (r * c) = p * c ↔ 2 * r = p := by
    rw [← Nat.mul_assoc]
    exact Nat.mul_left_inj hc.ne'
  have hpos : 0 < r * c ↔ 0 < r := by
    constructor
    · exact fun h => Nat.pos_of_mul_pos_right h
    · exact fun h => Nat.mul_pos h hc
  cases mode <;> simp only [RoundingMode.bumps, hlt, hle, heq, hpos]

namespace Money

theorem roundedMantissa_mono (mode : RoundingMode) (k : Nat) {m n : Nat} (h : m ≤ n) :
    roundedMantissa mode m k ≤ roundedMantissa mode n k := by
  have hq : m / tenTo k ≤ n / tenTo k := Nat.div_le_div_right h
  simp only [roundedMantissa]
  rcases Nat.lt_or_ge (m / tenTo k) (n / tenTo k) with hlt | hge
  · split <;> split <;> omega
  · have heq : m / tenTo k = n / tenTo k := Nat.le_antisymm hq hge
    have hr : m % tenTo k ≤ n % tenTo k := by
      have hm := Nat.div_add_mod m (tenTo k)
      have hn := Nat.div_add_mod n (tenTo k)
      rw [heq] at hm
      omega
    rw [heq]
    by_cases hbump : mode.bumps (n / tenTo k) (m % tenTo k) (tenTo k) = true
    · rw [if_pos hbump, if_pos (bumps_mono mode hr hbump)]
    · rw [if_neg hbump]
      exact Nat.le_add_right _ _

theorem roundedMantissa_mul_tenTo (mode : RoundingMode) (m k j : Nat) :
    roundedMantissa mode (m * tenTo j) (k + j) = roundedMantissa mode m k := by
  have hj := tenTo_pos j
  simp only [roundedMantissa]
  rw [tenTo_add, Nat.mul_div_mul_right _ _ hj, Nat.mul_mod_mul_right, bumps_mul mode _ _ _ hj]

@[simp] theorem roundedMantissa_zero_right (mode : RoundingMode) (m : Nat) :
    roundedMantissa mode m 0 = m := by
  simp only [roundedMantissa]
  rw [tenTo_zero, Nat.div_one, Nat.mod_one, bumps_zero mode m Nat.one_pos,
    if_neg Bool.false_ne_true]
  rfl

@[simp] theorem roundedMantissa_zero (mode : RoundingMode) (k : Nat) :
    roundedMantissa mode 0 k = 0 := by
  simp only [roundedMantissa]
  rw [Nat.zero_div, Nat.zero_mod, bumps_zero mode 0 (tenTo_pos k), if_neg Bool.false_ne_true]

theorem roundedMantissa_le (mode : RoundingMode) (m k : Nat) :
    roundedMantissa mode m k ≤ m / tenTo k + 1 := by
  simp only [roundedMantissa]
  split <;> omega

theorem abs_value (a : Money) : |a.value| = a.mantissa / 10 ^ a.scale := by
  have hpos : (0 : ℚ) < 10 ^ a.scale := by positivity
  simp only [value, units]
  rw [abs_div, abs_of_pos hpos]
  congr 1
  split
  · push_cast
    rw [abs_neg, abs_of_nonneg (by positivity)]
  · push_cast
    rw [abs_of_nonneg (by positivity)]

private theorem roundTo_mantissa (a : Money) {places : Nat} (mode : RoundingMode)
    (hp : places ≤ 28) :
    (a.roundTo places mode).mantissa * tenTo (places - (a.roundTo places mode).scale) =
      roundedMantissa mode (a.mantissa * tenTo (28 - a.scale)) (28 - places) := by
  have ha := a.scale_le
  by_cases h : a.scale ≤ places
  · have hsplit : 28 - a.scale = (places - a.scale) + (28 - places) := by omega
    have hexact := roundedMantissa_mul_tenTo mode (a.mantissa * tenTo (places - a.scale)) 0
      (28 - places)
    rw [Nat.zero_add, roundedMantissa_zero_right] at hexact
    rw [roundTo_of_scale_le a mode h, hsplit, tenTo_add, ← Nat.mul_assoc, hexact]
  · have hsplit : 28 - places = (a.scale - places) + (28 - a.scale) := by omega
    rw [hsplit, roundedMantissa_mul_tenTo]
    unfold roundTo
    rw [dif_neg h]
    dsimp only
    split
    · next hzero =>
      rw [hzero, roundedMantissa_zero, Nat.zero_mul]
    · rw [Nat.sub_self, tenTo_zero, Nat.mul_one]

theorem abs_value_roundTo (a : Money) {places : Nat} (mode : RoundingMode) (hp : places ≤ 28) :
    |(a.roundTo places mode).value| * 10 ^ places =
      roundedMantissa mode (a.mantissa * tenTo (28 - a.scale)) (28 - places) := by
  have hscale := scale_roundTo_le a places mode
  have hne : (10 : ℚ) ^ (a.roundTo places mode).scale ≠ 0 := by positivity
  have hsplit : (10 : ℚ) ^ places =
      10 ^ (a.roundTo places mode).scale * 10 ^ (places - (a.roundTo places mode).scale) := by
    rw [← pow_add, Nat.add_sub_of_le hscale]
  rw [← roundTo_mantissa a mode hp, abs_value, hsplit, tenTo_eq_pow]
  push_cast
  field_simp

private theorem negative_roundTo (a : Money) (places : Nat) (mode : RoundingMode)
    (h : (a.roundTo places mode).negative = true) : a.negative = true := by
  unfold roundTo at h
  split at h
  · exact h
  · dsimp only at h
    split at h
    · exact h
    · exact (Bool.and_eq_true_iff.mp h).1

theorem roundTo_nonneg {a : Money} (ha : 0 ≤ a.value) (places : Nat) (mode : RoundingMode) :
    0 ≤ (a.roundTo places mode).value := by
  rw [value_nonneg_iff] at ha ⊢
  by_cases hneg : (a.roundTo places mode).negative = true
  · have ha' := negative_roundTo a places mode hneg
    have hzero : a.mantissa = 0 := by
      simp only [units] at ha
      rw [if_pos ha'] at ha
      omega
    have hround : (a.roundTo places mode).mantissa = 0 := by
      simp only [roundTo]
      split
      · exact hzero
      · rfl
    rw [(units_eq_zero_iff _).mpr hround]
  · simp only [units]
    rw [if_neg hneg]
    omega

theorem mantissa_mul_tenTo {a : Money} (ha : 0 ≤ a.value) :
    ((a.mantissa * tenTo (28 - a.scale) : Nat) : ℚ) = a.value * 10 ^ 28 := by
  have hne : (10 : ℚ) ^ a.scale ≠ 0 := by positivity
  have hsplit : (10 : ℚ) ^ 28 = 10 ^ a.scale * 10 ^ (28 - a.scale) := by
    rw [← pow_add, Nat.add_sub_of_le a.scale_le]
  rw [← abs_of_nonneg ha, abs_value, hsplit, tenTo_eq_pow]
  push_cast
  field_simp

/-- Rounding keeps the order of amounts that are not negative. -/
theorem roundTo_mono {a b : Money} (ha : 0 ≤ a.value) (hab : a.value ≤ b.value) (places : Nat)
    (mode : RoundingMode) : (a.roundTo places mode).value ≤ (b.roundTo places mode).value := by
  rcases Nat.lt_or_ge 28 places with hp | hp
  · have ha28 := a.scale_le
    have hb28 := b.scale_le
    rw [roundTo_of_scale_le a mode (by omega), roundTo_of_scale_le b mode (by omega)]
    exact hab
  · have hb : 0 ≤ b.value := ha.trans hab
    have hpos : (0 : ℚ) < 10 ^ places := by positivity
    have hmantissa : a.mantissa * tenTo (28 - a.scale) ≤ b.mantissa * tenTo (28 - b.scale) := by
      rw [← Nat.cast_le (α := ℚ), mantissa_mul_tenTo ha, mantissa_mul_tenTo hb]
      exact mul_le_mul_of_nonneg_right hab (by positivity)
    have hround := roundedMantissa_mono mode (28 - places) hmantissa
    rw [← Nat.cast_le (α := ℚ), ← abs_value_roundTo a mode hp, ← abs_value_roundTo b mode hp,
      abs_of_nonneg (roundTo_nonneg ha places mode),
      abs_of_nonneg (roundTo_nonneg hb places mode)] at hround
    exact le_of_mul_le_mul_right hround hpos

@[simp] theorem zero_round (currency : Currency) (mode : RoundingMode) :
    zero.round currency mode = zero := roundTo_of_scale_le zero mode (Nat.zero_le _)

/-- Rounding adds less than one to a magnitude. -/
theorem abs_roundTo_le (a : Money) (places : Nat) (mode : RoundingMode) :
    |(a.roundTo places mode).value| ≤ |a.value| + 1 := by
  by_cases h : a.scale ≤ places
  · rw [roundTo_of_scale_le a mode h]
    linarith
  · have ha := a.scale_le
    have hp : places ≤ 28 := by omega
    have hpos : (1 : ℚ) ≤ 10 ^ places := one_le_pow₀ (by norm_num)
    have hle := roundedMantissa_le mode (a.mantissa * tenTo (28 - a.scale)) (28 - places)
    rw [← Nat.cast_le (α := ℚ), ← abs_value_roundTo a mode hp] at hle
    have hdiv : ((a.mantissa * tenTo (28 - a.scale) / tenTo (28 - places) : Nat) : ℚ) ≤
        |a.value| * 10 ^ places := by
      refine Nat.cast_div_le.trans (le_of_eq ?_)
      have hne : (10 : ℚ) ^ a.scale ≠ 0 := by positivity
      have hne' : (10 : ℚ) ^ (28 - places) ≠ 0 := by positivity
      have hsplit : (10 : ℚ) ^ a.scale * 10 ^ (28 - a.scale) = 10 ^ places * 10 ^ (28 - places) := by
        rw [← pow_add, ← pow_add, Nat.add_sub_of_le ha, Nat.add_sub_of_le hp]
      rw [abs_value, tenTo_eq_pow, tenTo_eq_pow]
      push_cast
      rw [div_mul_eq_mul_div, div_eq_div_iff hne' hne, mul_assoc, mul_assoc,
        mul_comm _ ((10 : ℚ) ^ a.scale), hsplit]
    push_cast at hle
    have hsum : |(a.roundTo places mode).value| * 10 ^ places ≤ (|a.value| + 1) * 10 ^ places := by
      rw [add_mul, one_mul]
      linarith
    exact le_of_mul_le_mul_right hsum (by linarith)

end Money
end LoanLedger
