import LoanLedger.Proofs.Money.Fit
import LoanLedger.Proofs.Money.Rounding

/-!
How near a sum, a difference or a product comes to the exact one. Fitting goes to a nearest amount,
but for the one case in which rounding carries into a digit too many; either way the result is at
most ten times as far from any amount as the exact number is. So a number that is an amount is met,
and a sum is farther from either of its terms by no more than ten times the other.
-/

set_option autoImplicit false
set_option relaxedAutoImplicit false

namespace LoanLedger.Money

variable {negative : Bool} {m s k : Nat} {a b c : Money}

/-- Counted in units of a place, an amount is a whole number, which has no more digits than fit or a
zero at its end, or else it is smaller than the largest amount of one place more. -/
private theorem grid (a : Money) (hk : k ≤ s) :
    (∃ z : Nat, |a.value| * 10 ^ s = z * 10 ^ k ∧ (z < limit ∨ z % 10 = 0)) ∨
      |a.value| * 10 ^ s * 10 ≤ (limit - 1) * 10 ^ k := by
  have hpos : (0 : ℚ) < 10 ^ a.scale := by positivity
  rcases Nat.lt_or_ge (s - k) a.scale with hfine | hcoarse
  · right
    have hmantissa : (a.mantissa : ℚ) ≤ limit - 1 := by
      have : a.mantissa + 1 ≤ limit := a.mantissa_lt
      have : (a.mantissa : ℚ) + 1 ≤ limit := by exact_mod_cast this
      linarith
    have hpow : (10 : ℚ) ^ s * 10 ≤ 10 ^ k * 10 ^ a.scale := by
      rw [← pow_succ, ← pow_add]
      exact pow_le_pow_right₀ (by norm_num) (by omega)
    rw [abs_value, div_mul_eq_mul_div, div_mul_eq_mul_div, div_le_iff₀ hpos, mul_assoc, mul_assoc]
    exact mul_le_mul hmantissa hpow (by positivity) (by norm_num [limit])
  · left
    have hsplit : (10 : ℚ) ^ s = 10 ^ a.scale * 10 ^ (s - k - a.scale) * 10 ^ k := by
      rw [← pow_add, ← pow_add]
      congr 1
      omega
    refine ⟨a.mantissa * 10 ^ (s - k - a.scale), ?_, ?_⟩
    · rw [abs_value, hsplit]
      push_cast
      field_simp
    · rcases Nat.eq_zero_or_pos (s - k - a.scale) with hzero | hsome
      · left
        rw [hzero, pow_zero, Nat.mul_one]
        exact a.mantissa_lt
      · right
        obtain ⟨j, hj⟩ : ∃ j, s - k - a.scale = j + 1 := ⟨s - k - a.scale - 1, by omega⟩
        rw [hj, pow_succ, ← Nat.mul_assoc, Nat.mul_mod_left]

/-- A number that was rounded to a whole number of units, against an amount that is one, or that is
much smaller. -/
private theorem near_of_kept {t v x : ℚ} (ht : 0 < t) {q : Nat} (hup : 2 * (q * t) ≤ 2 * v + t)
    (hdown : 2 * v ≤ 2 * (q * t) + t) (hlarge : q * t = v ∨ limit * t ≤ v * 10)
    (hx : (∃ z : Nat, x = z * t ∧ (z < limit ∨ z % 10 = 0)) ∨ x * 10 ≤ (limit - 1) * t) :
    |q * t - x| ≤ 10 * |v - x| := by
  rcases hlarge with hexact | hlarge
  · rw [hexact]
    linarith [abs_nonneg (v - x)]
  rcases hx with ⟨z, rfl, -⟩ | hsmall
  · rcases lt_trichotomy q z with hlt | rfl | hgt
    · have hstep : ((q : ℚ) + 1) * t ≤ z * t :=
        mul_le_mul_of_nonneg_right (by exact_mod_cast hlt) ht.le
      rw [abs_of_nonpos (by linarith), abs_of_nonpos (by linarith)]
      linarith
    · rw [sub_self, abs_zero]
      positivity
    · have hstep : ((z : ℚ) + 1) * t ≤ q * t :=
        mul_le_mul_of_nonneg_right (by exact_mod_cast hgt) ht.le
      rw [abs_of_nonneg (by linarith), abs_of_nonneg (by linarith)]
      linarith
  · rw [abs_of_nonneg (a := v - x) (by linarith), abs_le]
    constructor <;> linarith

/-- A number whose digits were rounded to one too many, which was then rounded off. -/
private theorem near_of_carried {t v x : ℚ} (ht : 0 < t) (hup : 2 * (limit * t) ≤ 2 * v + t)
    (hv : v < limit * t)
    (hx : (∃ z : Nat, x = z * t ∧ (z < limit ∨ z % 10 = 0)) ∨ x * 10 ≤ (limit - 1) * t) :
    |(limit + 4) * t - x| ≤ 10 * |v - x| := by
  rcases hx with ⟨z, rfl, hdigits⟩ | hsmall
  · rcases Nat.lt_or_ge z limit with hbelow | habove
    · have hstep : ((z : ℚ) + 1) * t ≤ limit * t :=
        mul_le_mul_of_nonneg_right (by exact_mod_cast hbelow) ht.le
      rw [abs_of_nonneg (by linarith), abs_of_nonneg (by linarith)]
      linarith
    · have hten : limit + 4 ≤ z := by
        simp only [limit] at habove hdigits ⊢
        omega
      have hstep : ((limit : ℚ) + 4) * t ≤ z * t :=
        mul_le_mul_of_nonneg_right (by exact_mod_cast hten) ht.le
      rw [abs_of_nonpos (by linarith), abs_of_nonpos (by linarith)]
      linarith
  · have hlimit : (1 : ℚ) ≤ limit := by norm_num [limit]
    have hunit : t ≤ limit * t := le_mul_of_one_le_left ht.le hlimit
    rw [abs_of_nonneg (by linarith), abs_of_nonneg (by linarith)]
    linarith

private theorem abs_fit?_close (hs : s ≤ 28) (h : fit? negative m s = some c) (a : Money) :
    abs (|c.value| * 10 ^ s - |a.value| * 10 ^ s) ≤ 10 * |m - |a.value| * 10 ^ s| := by
  obtain ⟨-, k, hk, hfitted⟩ := fit?_cases h
  obtain ⟨hks, hkm, hfirst⟩ := surplus?_spec hs hk
  obtain ⟨hup, hdown⟩ := roundEven_near m k
  obtain ⟨t, ht⟩ : ∃ t : ℚ, t = 10 ^ k := ⟨_, rfl⟩
  have htpos : 0 < t := by rw [ht]; positivity
  have hcast : ((tenTo k : Nat) : ℚ) = t := by rw [tenTo_eq_pow, ht]; norm_cast
  have hup : 2 * (roundEven m k * t) ≤ 2 * m + t := by rw [← hcast]; exact_mod_cast hup
  have hdown : 2 * (m : ℚ) ≤ 2 * (roundEven m k * t) + t := by rw [← hcast]; exact_mod_cast hdown
  have hgrid := grid a hks
  rw [← ht] at hgrid
  rcases hfitted with ⟨hmantissa, hscale⟩ | ⟨hcarried, hlt, hmantissa, hscale⟩
  · have hc : |c.value| * 10 ^ s = roundEven m k * t := by
      have hsplit : (10 : ℚ) ^ s = 10 ^ (s - k) * 10 ^ k := by
        rw [← pow_add, Nat.sub_add_cancel hks]
      rw [abs_value, hmantissa, hscale, hsplit, ht]
      field_simp
    rw [hc]
    refine near_of_kept htpos hup hdown ?_ hgrid
    rcases Nat.eq_zero_or_pos k with rfl | hkpos
    · left
      rw [roundEven_zero, ht, pow_zero, mul_one]
    · -- one place less would not have been enough
      right
      have hlimit := (Nat.le_div_iff_mul_le (tenTo_pos _)).mp (hfirst (k - 1) (by omega))
      have hten : tenTo k = tenTo (k - 1) * 10 := by
        rw [← tenTo_succ, Nat.sub_add_cancel hkpos]
      have hlarge : limit * tenTo k ≤ m * 10 := by
        rw [hten, ← Nat.mul_assoc]
        exact Nat.mul_le_mul_right 10 hlimit
      rw [← hcast]
      exact_mod_cast hlarge
  · have hqlimit : roundEven m k = limit := by
      have := roundEven_le_succ m k
      omega
    rw [hqlimit] at hup hmantissa
    have hv : (m : ℚ) < limit * t := by
      rw [← hcast]
      exact_mod_cast (Nat.div_lt_iff_lt_mul (tenTo_pos k)).mp hkm
    have hc : |c.value| * 10 ^ s = (limit + 4) * t := by
      have hsplit : (10 : ℚ) ^ s = 10 ^ (s - k - 1) * 10 * 10 ^ k := by
        rw [← pow_succ, ← pow_add]
        congr 1
        omega
      have hround : (roundEven limit 1 : ℚ) * 10 = limit + 4 := by
        have : roundEven limit 1 * 10 = limit + 4 := by decide
        exact_mod_cast this
      rw [abs_value, hmantissa, hscale, hsplit, ht, ← hround]
      field_simp
    rw [hc]
    exact near_of_carried htpos hup hv hgrid

/-- From magnitudes to values: two numbers of one sign, against a third. -/
private theorem close_of_abs {x y w : ℚ} (hsign : (0 ≤ x ∧ 0 ≤ y) ∨ (x ≤ 0 ∧ y ≤ 0))
    (hself : abs (|y| - |w|) ≤ 10 * abs (|x| - |w|)) (hzero : |y| ≤ 10 * |x|) :
    |y - w| ≤ 10 * |x - w| := by
  rcases hsign with ⟨hx, hy⟩ | ⟨hx, hy⟩ <;> rcases le_total 0 w with hw | hw
  · rwa [abs_of_nonneg hx, abs_of_nonneg hy, abs_of_nonneg hw] at hself
  · rw [abs_of_nonneg hx, abs_of_nonneg hy] at hzero
    rw [abs_of_nonneg (by linarith), abs_of_nonneg (by linarith)]
    linarith
  · rw [abs_of_nonpos hx, abs_of_nonpos hy] at hzero
    rw [abs_of_nonpos (by linarith), abs_of_nonpos (by linarith)]
    linarith
  · rw [abs_of_nonpos hx, abs_of_nonpos hy, abs_of_nonpos hw] at hself
    rw [abs_sub_comm y, abs_sub_comm x]
    convert hself using 2 <;> ring_nf

theorem value_ofInt {z : Int} (h : z.natAbs < limit) : (ofInt z).value = z := by
  have hmantissa : (ofInt z).mantissa = z.natAbs := Nat.mod_eq_of_lt h
  have hsign : (ofInt z).negative = decide (z < 0) := rfl
  have hunits : (ofInt z).units = z := by
    rw [units, hmantissa, hsign]
    by_cases hneg : z < 0
    · rw [decide_eq_true hneg, if_pos rfl]
      omega
    · rw [decide_eq_false hneg, if_neg Bool.false_ne_true]
      omega
  rw [value, hunits]
  exact div_one _

theorem value_sign (a : Money) : if a.negative then a.value ≤ 0 else 0 ≤ a.value := by
  split
  · next hneg =>
    rw [value, units, if_pos hneg]
    push_cast
    exact div_nonpos_of_nonpos_of_nonneg (neg_nonpos.mpr (Nat.cast_nonneg _)) (by positivity)
  · next hneg =>
    rw [value, units, if_neg hneg]
    push_cast
    positivity

/-- What the number `x` is as digits to be fitted. -/
structure Digits (x : ℚ) (negative : Bool) (m s : Nat) : Prop where
  scale_le : s ≤ 28
  abs_eq : |x| * 10 ^ s = m
  sign : if negative then x ≤ 0 else 0 ≤ x

namespace Digits

variable {x : ℚ}

private theorem same_sign (hx : Digits x negative m s) (h : fit? negative m s = some c) :
    (0 ≤ x ∧ 0 ≤ c.value) ∨ (x ≤ 0 ∧ c.value ≤ 0) := by
  have hsign := hx.sign
  have hc := c.value_sign
  rw [fit?_negative h] at hc
  cases hneg : negative <;> rw [hneg] at hsign hc
  · exact .inl ⟨hsign, hc⟩
  · exact .inr ⟨hsign, hc⟩

/-- What was fitted is at most ten times as far from any amount as the number is. -/
theorem close (hx : Digits x negative m s) (h : fit? negative m s = some c) (a : Money) :
    |c.value - a.value| ≤ 10 * |x - a.value| := by
  have hpos : (0 : ℚ) < 10 ^ s := by positivity
  -- magnitudes first, then the signs
  have hclose : ∀ b : Money, abs (|c.value| - |b.value|) ≤ 10 * abs (|x| - |b.value|) := by
    intro b
    have hmul := abs_fit?_close hx.scale_le h b
    rw [← hx.abs_eq, ← sub_mul, ← sub_mul, abs_mul, abs_mul, abs_of_pos hpos, ← mul_assoc] at hmul
    exact le_of_mul_le_mul_right hmul hpos
  have hzero := hclose zero
  rw [value_zero, abs_zero, sub_zero, sub_zero, abs_abs, abs_abs] at hzero
  exact close_of_abs (hx.same_sign h) (hclose a) hzero

/-- What was fitted is as near as nearly all digits allow. -/
theorem near (hx : Digits x negative m s) (h : fit? negative m s = some c) :
    |c.value - x| ≤ |x| / (7 * 10 ^ 26) := by
  have hpos : (0 : ℚ) < 10 ^ s := by positivity
  have hmagnitude : |c.value - x| = abs (|c.value| - |x|) := by
    rcases hx.same_sign h with ⟨hx, hc⟩ | ⟨hx, hc⟩
    · rw [abs_of_nonneg hx, abs_of_nonneg hc]
    · rw [abs_of_nonpos hx, abs_of_nonpos hc, ← abs_neg]
      congr 1
      ring
  have hxabs : |x| = m / 10 ^ s := by rw [← hx.abs_eq, mul_div_cancel_right₀ _ hpos.ne']
  rw [hmagnitude]
  obtain ⟨hscale, ⟨hmantissa, hexact⟩ | ⟨hdigits, hup, hdown⟩⟩ := fit?_near hx.scale_le h
  · rw [hxabs, abs_value, hmantissa, hexact, sub_self, abs_zero]
    positivity
  · obtain ⟨t, ht⟩ : ∃ t : ℚ, t = 10 ^ (s - c.scale) := ⟨_, rfl⟩
    have htpos : 0 < t := by rw [ht]; positivity
    have hcabs : |c.value| = c.mantissa * t / 10 ^ s := by
      have hsplit : (10 : ℚ) ^ s = 10 ^ c.scale * 10 ^ (s - c.scale) := by
        rw [← pow_add, Nat.add_sub_of_le hscale]
      rw [abs_value, ht, hsplit]
      field_simp
    have hup : (c.mantissa : ℚ) * t ≤ m + t := by rw [ht]; exact_mod_cast hup
    have hdown : (m : ℚ) ≤ c.mantissa * t + t := by rw [ht]; exact_mod_cast hdown
    -- What was fitted is many times the unit of its last place, by which it may be off.
    have hlarge : (7 * (10 : ℚ) ^ 26 + 1) * t ≤ c.mantissa * t := by
      refine mul_le_mul_of_nonneg_right ?_ htpos.le
      have : 7 * 10 ^ 26 + 1 ≤ c.mantissa := by
        simp only [limit] at hdigits
        omega
      exact_mod_cast this
    rw [hxabs, hcabs, ← sub_div, abs_div, abs_of_pos hpos, div_right_comm]
    refine div_le_div_of_nonneg_right ?_ hpos.le
    rw [le_div_iff₀ (by positivity)]
    have hunit : |(c.mantissa : ℚ) * t - m| ≤ t := abs_le.mpr ⟨by linarith, by linarith⟩
    linarith

theorem exact (hx : Digits x negative m s) (h : fit? negative m s = some c) (hm : m < limit) :
    c.value = x := by
  have hpos : (0 : ℚ) < 10 ^ s := by positivity
  have hsign := hx.same_sign h
  rw [fit?_of_lt _ hm hx.scale_le] at h
  obtain ⟨-, hmantissa, hscale⟩ := ofParts?_eq_some h
  have habs : |c.value| = |x| := by
    rw [abs_value, hmantissa, hscale, ← hx.abs_eq, mul_div_cancel_right₀ _ hpos.ne']
  rcases hsign with ⟨hx, hc⟩ | ⟨hx, hc⟩
  · rwa [abs_of_nonneg hx, abs_of_nonneg hc] at habs
  · rw [abs_of_nonpos hx, abs_of_nonpos hc] at habs
    exact neg_inj.mp habs

/-- A number below the limit can be fitted. -/
theorem exists_fit? (hx : Digits x negative m s) (h : |x| ≤ limit - 1) :
    ∃ c, fit? negative m s = some c := by
  refine Money.exists_fit? _ hx.scale_le (Nat.le_refl s) ?_
  have hround : roundEven m s ≤ limit - 1 := by
    refine roundEven_le ?_
    have hcast : ((limit - 1 : Nat) : ℚ) = limit - 1 := by norm_num [limit]
    have habs : (m : ℚ) ≤ (limit - 1 : Nat) * 10 ^ s := by
      rw [← hx.abs_eq, hcast]
      exact mul_le_mul_of_nonneg_right h (by positivity)
    rw [tenTo_eq_pow]
    exact_mod_cast habs
  have := limit_pos
  omega

end Digits

/-- An amount that the number `x` is, or that fitting it gives. -/
def Rounds (x : ℚ) (c : Money) : Prop :=
  c.value = x ∨ ∃ negative m s e, Digits x negative m s ∧ fit? negative m s = some e ∧
    c.value = e.value

namespace Rounds

variable {x : ℚ}

/-- A result is at most ten times as far from any amount as the exact one. -/
theorem close (h : Rounds x c) (d : Money) : |c.value - d.value| ≤ 10 * |x - d.value| := by
  rcases h with hexact | ⟨negative, m, s, e, hdigits, he, hc⟩
  · rw [hexact]
    linarith [abs_nonneg (x - d.value)]
  · rw [hc]
    exact hdigits.close he d

theorem near (h : Rounds x c) : |c.value - x| ≤ |x| / (7 * 10 ^ 26) := by
  rcases h with hexact | ⟨negative, m, s, e, hdigits, he, hc⟩
  · rw [hexact, sub_self, abs_zero]
    positivity
  · rw [hc]
    exact hdigits.near he

theorem of_small (h : Rounds x c) (hsmall : |x| ≤ 2) : c.value = x := by
  rcases h with hexact | ⟨negative, m, s, e, hdigits, he, hc⟩
  · exact hexact
  · rw [hc]
    refine hdigits.exact he ?_
    have hpow : (10 : ℚ) ^ s ≤ 10 ^ 28 := pow_le_pow_right₀ (by norm_num) hdigits.scale_le
    have hlt : (m : ℚ) < limit := by
      calc (m : ℚ) = |x| * 10 ^ s := hdigits.abs_eq.symm
        _ ≤ 2 * 10 ^ 28 := mul_le_mul hsmall hpow (by positivity) (by norm_num)
        _ < limit := by norm_num [limit]
    exact_mod_cast hlt

/-- A result is not much larger than the exact one. -/
theorem size_le (h : Rounds x c) (hx : |x| ≤ limit - 1) : |c.value| ≤ |x| + 6 := by
  obtain ⟨z, hz⟩ : ∃ z : Int, z = ⌊x + 1 / 2⌋ := ⟨_, rfl⟩
  have hfloor := Int.floor_le (x + 1 / 2)
  have hnext := Int.lt_floor_add_one (x + 1 / 2)
  rw [← hz] at hfloor hnext
  have hnear : |x - z| ≤ 1 / 2 := abs_le.mpr ⟨by linarith, by linarith⟩
  have hlt : z.natAbs < limit := by
    have habs : (z.natAbs : ℚ) < limit := by
      rw [Nat.cast_natAbs, Int.cast_abs]
      have := abs_sub_abs_le_abs_sub (z : ℚ) x
      rw [abs_sub_comm] at this
      linarith
    exact_mod_cast habs
  have hclose := h.close (ofInt z)
  rw [value_ofInt hlt] at hclose
  have hc := abs_sub_abs_le_abs_sub c.value x
  have htriangle := abs_sub_le c.value z x
  rw [abs_sub_comm (z : ℚ) x] at htriangle
  linarith

end Rounds

/-! Sums, differences and products. -/

/-- The digits of a sum. -/
private theorem add_eq_fit (ha : a.mantissa ≠ 0) (hb : b.mantissa ≠ 0) : ∃ negative m s,
    Digits (a.value + b.value) negative m s ∧ add? a b = fit? negative m s := by
  obtain ⟨s, hs⟩ : ∃ s, s = Nat.max a.scale b.scale := ⟨_, rfl⟩
  obtain ⟨u, hu⟩ : ∃ u, u = a.unitsAt s + b.unitsAt s := ⟨_, rfl⟩
  have has : a.scale ≤ s := hs ▸ Nat.le_max_left _ _
  have hbs : b.scale ≤ s := hs ▸ Nat.le_max_right _ _
  have hpos : (0 : ℚ) < 10 ^ s := by positivity
  have hvalue : (u : ℚ) = (a.value + b.value) * 10 ^ s := by
    rw [hu, Int.cast_add, unitsAt_eq_value a has, unitsAt_eq_value b hbs, add_mul]
  refine ⟨decide (u < 0), u.natAbs, s, ⟨?_, ?_, ?_⟩, ?_⟩
  · rw [hs]
    exact Nat.max_le.mpr ⟨a.scale_le, b.scale_le⟩
  · rw [Nat.cast_natAbs, Int.cast_abs, hvalue, abs_mul, abs_of_pos hpos]
  · by_cases hneg : u < 0
    · rw [if_pos (decide_eq_true hneg)]
      have hcast : (u : ℚ) < 0 := by exact_mod_cast hneg
      rw [hvalue] at hcast
      exact (neg_of_mul_neg_left hcast hpos.le).le
    · rw [if_neg (by simpa using hneg)]
      have hcast : (0 : ℚ) ≤ u := by exact_mod_cast Int.not_lt.mp hneg
      rw [hvalue] at hcast
      exact nonneg_of_mul_nonneg_left hcast hpos
  · rw [add?, if_neg ha, if_neg hb, hu, hs]

private theorem add?_rounds (h : add? a b = some c) : Rounds (a.value + b.value) c := by
  by_cases ha : a.mantissa = 0
  · rw [add?, if_pos ha] at h
    exact .inl (by rw [← Option.some.inj h, value_eq_zero_iff.mpr ha, zero_add])
  · by_cases hb : b.mantissa = 0
    · rw [add?, if_neg ha, if_pos hb] at h
      exact .inl (by rw [← Option.some.inj h, value_eq_zero_iff.mpr hb, add_zero])
    · obtain ⟨negative, m, s, hdigits, hfit⟩ := add_eq_fit ha hb
      exact .inr ⟨negative, m, s, c, hdigits, hfit ▸ h, rfl⟩

private theorem exists_add? (h : |a.value + b.value| ≤ limit - 1) : ∃ c, add? a b = some c := by
  by_cases ha : a.mantissa = 0
  · exact ⟨b, by rw [add?, if_pos ha]⟩
  · by_cases hb : b.mantissa = 0
    · exact ⟨a, by rw [add?, if_neg ha, if_pos hb]⟩
    · obtain ⟨negative, m, s, hdigits, hfit⟩ := add_eq_fit ha hb
      rw [hfit]
      exact hdigits.exists_fit? h

theorem add_rounds (h : a.add b = .ok c) : Rounds (a.value + b.value) c := by
  simp only [add] at h
  split at h
  · next x hx => exact Except.ok.inj h ▸ add?_rounds hx
  · cases h

theorem exists_add (h : |a.value + b.value| ≤ limit - 1) : ∃ c, a.add b = .ok c := by
  obtain ⟨c, hc⟩ := exists_add? h
  exact ⟨c, by rw [add, hc]⟩

theorem sub_rounds (h : a.sub b = .ok c) : Rounds (a.value - b.value) c := by
  simp only [sub] at h
  split at h
  · next hb =>
    have hb := value_eq_zero_iff.mpr hb
    rw [← Except.ok.inj h, hb, sub_zero]
    left
    split
    · next ha => rw [hb, value_eq_zero_iff.mpr ha]
    · rfl
  · split at h
    · next x hx =>
      rw [sub_eq_add_neg, ← value_neg]
      exact Except.ok.inj h ▸ add?_rounds hx
    · cases h

theorem exists_sub (h : |a.value - b.value| ≤ limit - 1) : ∃ c, a.sub b = .ok c := by
  rw [sub_eq_add_neg, ← value_neg] at h
  obtain ⟨c, hc⟩ := exists_add? h
  simp only [sub]
  split
  · exact ⟨_, rfl⟩
  · exact ⟨c, by rw [hc]⟩

/-- The digits of a product with a whole number. -/
private theorem mul_digits (hb : b.scale = 0) : Digits (a.value * b.value)
    (a.negative != b.negative) (a.mantissa * b.mantissa) a.scale where
  scale_le := a.scale_le
  abs_eq := by
    rw [abs_mul, abs_value a, abs_value b, hb]
    push_cast
    field_simp
  sign := by
    have ha := a.value_sign
    have hb := b.value_sign
    cases hna : a.negative <;> cases hnb : b.negative <;> rw [hna] at ha <;> rw [hnb] at hb
    · exact mul_nonneg ha hb
    · exact mul_nonpos_of_nonneg_of_nonpos ha hb
    · exact mul_nonpos_of_nonpos_of_nonneg ha hb
    · exact mul_nonneg_of_nonpos_of_nonpos ha hb

/-- The product with a whole number. -/
theorem mul_rounds (hb : b.scale = 0) (h : a.mul b = .ok c) : Rounds (a.value * b.value) c := by
  simp only [mul] at h
  rw [hb, Nat.add_zero] at h
  split at h
  · next hzero =>
    have hproduct : a.value * b.value = 0 :=
      mul_eq_zero.mpr (hzero.imp value_eq_zero_iff.mpr value_eq_zero_iff.mpr)
    exact .inl (by rw [← Except.ok.inj h, value_zero, hproduct])
  · split at h
    · have := a.scale_le
      omega
    · split at h
      · cases h
      · next e he =>
        refine .inr ⟨_, _, _, e, mul_digits hb, he, ?_⟩
        rw [← Except.ok.inj h]
        split
        · next hzero =>
          rw [value_eq_zero_iff.mpr hzero.1, value_eq_zero_iff]
          exact hzero.1
        · rfl

theorem exists_mul (hb : b.scale = 0) (h : |a.value * b.value| ≤ limit - 1) :
    ∃ c, a.mul b = .ok c := by
  obtain ⟨e, he⟩ := (mul_digits hb).exists_fit? h
  simp only [mul]
  rw [hb, Nat.add_zero, he]
  split
  · exact ⟨_, rfl⟩
  · split
    · exact ⟨_, rfl⟩
    · exact ⟨_, rfl⟩

end LoanLedger.Money
