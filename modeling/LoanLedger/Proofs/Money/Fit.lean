import LoanLedger.Proofs.Money.Exact

/-!
Fitting a magnitude into the digits that there are. It is possible as soon as some number of decimal
places can be dropped, and it moves the magnitude by less than a unit of the last place that is
kept. The difference of two amounts that are not negative always fits.
-/

set_option autoImplicit false
set_option relaxedAutoImplicit false

namespace LoanLedger.Money

variable {negative : Bool} {m s k : Nat} {a b c : Money}

theorem ofParts?_eq_some (h : ofParts? negative m s = some c) :
    c.negative = negative ∧ c.mantissa = m ∧ c.scale = s := by
  simp only [ofParts?] at h
  split at h
  · rw [← Option.some.inj h]
    exact ⟨rfl, rfl, rfl⟩
  · cases h

theorem roundEven_le {y : Nat} (h : m ≤ y * tenTo k) : roundEven m k ≤ y := by
  have hpos := tenTo_pos k
  have hq : m / tenTo k ≤ y := Nat.div_le_of_le_mul (Nat.mul_comm y _ ▸ h)
  simp only [roundEven]
  split
  · next hup =>
    rcases Nat.lt_or_eq_of_le hq with hlt | heq
    · exact hlt
    · have hmod := Nat.div_add_mod m (tenTo k)
      rw [heq, Nat.mul_comm] at hmod
      have hr : m % tenTo k = 0 := by omega
      rw [hr] at hup
      omega
  · exact hq

theorem div_le_roundEven (m k : Nat) : m / tenTo k ≤ roundEven m k := by
  simp only [roundEven]
  split <;> omega

theorem roundEven_le_succ (m k : Nat) : roundEven m k ≤ m / tenTo k + 1 := by
  simp only [roundEven]
  split <;> omega

/-- Rounding moves a magnitude by half a unit of the last place at most. -/
theorem roundEven_near (m k : Nat) : 2 * (roundEven m k * tenTo k) ≤ 2 * m + tenTo k ∧
    2 * m ≤ 2 * (roundEven m k * tenTo k) + tenTo k := by
  have hsplit := Nat.div_add_mod m (tenTo k)
  rw [Nat.mul_comm] at hsplit
  have hlt := Nat.mod_lt m (tenTo_pos k)
  simp only [roundEven]
  split
  · next hup =>
    have hr : tenTo k ≤ 2 * (m % tenTo k) := by omega
    rw [Nat.add_mul, Nat.one_mul]
    omega
  · next hdown =>
    have hr : 2 * (m % tenTo k) ≤ tenTo k := by omega
    omega

theorem surplus?_le {j : Nat} (hs : s ≤ 28) (hj : j ≤ s) (hm : m / tenTo j < limit)
    (h : surplus? m s = some k) : k ≤ j := by
  simp only [surplus?] at h
  rw [List.find?_range'_eq_some] at h
  obtain ⟨-, -, hfirst⟩ := h
  by_contra hlt
  have hfail := hfirst j (by omega) (by omega)
  simp only [Bool.not_eq_true', decide_eq_false_iff_not] at hfail
  exact hfail hm

/-- The fewest places to drop leave a magnitude that fits, and one place less would not do. -/
theorem surplus?_spec (hs : s ≤ 28) (h : surplus? m s = some k) :
    k ≤ s ∧ m / tenTo k < limit ∧ ∀ j < k, limit ≤ m / tenTo j := by
  simp only [surplus?] at h
  rw [List.find?_range'_eq_some] at h
  obtain ⟨hfits, hmem, hfirst⟩ := h
  have hk : k ≤ s := by
    have := List.mem_range'_1.mp hmem
    omega
  refine ⟨hk, of_decide_eq_true hfits, fun j hj => ?_⟩
  have hfail := hfirst j (by omega) hj
  rw [Bool.not_eq_true', decide_eq_false_iff_not] at hfail
  exact Nat.not_lt.mp hfail

theorem exists_surplus? (hs : s ≤ 28) (hk : k ≤ s) (hm : m / tenTo k < limit) :
    ∃ j, surplus? m s = some j := by
  apply Option.isSome_iff_exists.mp
  rw [surplus?, List.find?_isSome]
  exact ⟨k, List.mem_range'_1.mpr (by omega), decide_eq_true hm⟩

/-- A magnitude fits when it does without some of its decimal places. -/
theorem exists_fit? (negative : Bool) (hs : s ≤ 28) (hk : k ≤ s) (hm : roundEven m k < limit) :
    ∃ c, fit? negative m s = some c := by
  have hdiv : m / tenTo k < limit := Nat.lt_of_le_of_lt (div_le_roundEven m k) hm
  obtain ⟨j, hj⟩ := exists_surplus? hs hk hdiv
  obtain ⟨hjs, hjm, -⟩ := surplus?_spec hs hj
  have hjk := surplus?_le hs hk hdiv hj
  unfold fit?
  rw [hj]
  dsimp only
  by_cases hq : roundEven m j < limit
  · rw [if_pos hq, ofParts?, dif_pos ⟨hq, by omega⟩]
    exact ⟨_, rfl⟩
  · have hlt : j < s := by
      rcases Nat.lt_or_eq_of_le hjk with hlt | rfl
      · omega
      · exact absurd hm hq
    have hone : roundEven (roundEven m j) 1 < limit := by
      have hle := roundEven_le_succ m j
      have hround := roundEven_le_succ (roundEven m j) 1
      rw [show tenTo 1 = 10 from rfl] at hround
      have hlimit := limit_pos
      simp only [limit] at *
      omega
    rw [if_neg hq, if_pos hlt, ofParts?, dif_pos ⟨hone, by omega⟩]
    exact ⟨_, rfl⟩

/-- What fitting gives: the places that are too many are rounded off, and one more when rounding
brings the magnitude up to a digit too many. -/
theorem fit?_cases (h : fit? negative m s = some c) : c.negative = negative ∧
    ∃ k, surplus? m s = some k ∧
      ((c.mantissa = roundEven m k ∧ c.scale = s - k) ∨
        (limit ≤ roundEven m k ∧ k < s ∧ c.mantissa = roundEven (roundEven m k) 1 ∧
          c.scale = s - k - 1)) := by
  unfold fit? at h
  split at h
  · cases h
  · next k hk =>
    dsimp only at h
    split at h
    · obtain ⟨hnegative, hmantissa, hscale⟩ := ofParts?_eq_some h
      exact ⟨hnegative, k, hk, .inl ⟨hmantissa, hscale⟩⟩
    · next hover =>
      split at h
      · next hlt =>
        obtain ⟨hnegative, hmantissa, hscale⟩ := ofParts?_eq_some h
        exact ⟨hnegative, k, hk, .inr ⟨Nat.not_lt.mp hover, hlt, hmantissa, hscale⟩⟩
      · cases h

theorem fit?_negative (h : fit? negative m s = some c) : c.negative = negative :=
  (fit?_cases h).1

/-- What was fitted is exact, or has nearly all digits and is less than a unit of its last place
away. -/
theorem fit?_near (hs : s ≤ 28) (h : fit? negative m s = some c) :
    c.scale ≤ s ∧ ((c.mantissa = m ∧ c.scale = s) ∨
      (limit ≤ 100 * c.mantissa + 100 ∧ c.mantissa * 10 ^ (s - c.scale) ≤ m + 10 ^ (s - c.scale) ∧
        m ≤ c.mantissa * 10 ^ (s - c.scale) + 10 ^ (s - c.scale))) := by
  obtain ⟨-, k, hk, hc⟩ := fit?_cases h
  obtain ⟨hks, hkm, hfirst⟩ := surplus?_spec hs hk
  obtain ⟨hup, hdown⟩ := roundEven_near m k
  -- One digit less would have been too few to drop, so nearly all digits are in use.
  have hdigits : k ≠ 0 → limit ≤ 10 * roundEven m k + 9 := by
    intro hk0
    have hlimit := hfirst (k - 1) (by omega)
    have hten : tenTo (k - 1) * 10 = tenTo k := by
      rw [← tenTo_succ, Nat.sub_add_cancel (Nat.pos_of_ne_zero hk0)]
    have hdiv : m / tenTo (k - 1) / 10 = m / tenTo k := by rw [Nat.div_div_eq_div_mul, hten]
    have hle := div_le_roundEven m k
    omega
  rcases hc with ⟨hmantissa, hscale⟩ | ⟨hlimit, hlt, hmantissa, hscale⟩
  · rw [hmantissa, hscale]
    refine ⟨Nat.sub_le s k, ?_⟩
    rcases Nat.eq_zero_or_pos k with rfl | hpos
    · exact .inl ⟨roundEven_zero m, rfl⟩
    · right
      rw [Nat.sub_sub_self hks, ← tenTo_eq_pow]
      have := hdigits (Nat.ne_of_gt hpos)
      refine ⟨by omega, by omega, by omega⟩
  · obtain ⟨hup', hdown'⟩ := roundEven_near (roundEven m k) 1
    rw [show tenTo 1 = 10 from rfl] at hup' hdown'
    rw [hmantissa, hscale]
    have hplaces : s - (s - k - 1) = k + 1 := by omega
    have hten : tenTo (k + 1) = tenTo k * 10 := tenTo_succ k
    rw [hplaces, ← tenTo_eq_pow, hten, ← Nat.mul_assoc,
      Nat.mul_right_comm (roundEven (roundEven m k) 1)]
    have hupMul := Nat.mul_le_mul_right (tenTo k) hup'
    have hdownMul := Nat.mul_le_mul_right (tenTo k) hdown'
    simp only [Nat.add_mul, Nat.mul_assoc] at hupMul hdownMul ⊢
    rw [Nat.mul_comm 10 (tenTo k)] at hupMul hdownMul ⊢
    have hpos := tenTo_pos k
    refine ⟨by omega, .inr ⟨?_, ?_, ?_⟩⟩
    · omega
    · omega
    · omega

/-! Sums and differences of amounts that are not negative. -/

private theorem unitsAt_of_nonneg (ha : 0 ≤ a.value) (s : Nat) :
    a.unitsAt s = ((a.mantissa * tenTo (s - a.scale) : Nat) : Int) := by
  have hunits : a.units = (a.mantissa : Int) := by
    rw [value_nonneg_iff] at ha
    simp only [units] at ha ⊢
    split at ha
    · next hneg =>
      rw [if_pos hneg]
      omega
    · next hneg => rw [if_neg hneg]
  rw [unitsAt, hunits]
  push_cast
  rfl

/-- A sum of amounts that are not negative is not negative. -/
theorem nonneg_of_add (ha : 0 ≤ a.value) (hb : 0 ≤ b.value) (h : a.add b = .ok c) : 0 ≤ c.value := by
  simp only [add] at h
  split at h
  · next x hx =>
    rw [← Except.ok.inj h]
    simp only [add?] at hx
    split at hx
    · exact Option.some.inj hx ▸ hb
    · split at hx
      · exact Option.some.inj hx ▸ ha
      · have hsum : ¬a.unitsAt (Nat.max a.scale b.scale) + b.unitsAt (Nat.max a.scale b.scale) < 0 := by
          rw [unitsAt_of_nonneg ha, unitsAt_of_nonneg hb]
          omega
        have hsign := fit?_negative hx
        rw [decide_eq_false hsum] at hsign
        rw [value_nonneg_iff, units, hsign, if_neg Bool.false_ne_true]
        omega
  · cases h

/-- The difference of amounts that are not negative fits. -/
theorem exists_sub_of_nonneg (ha : 0 ≤ a.value) (hb : 0 ≤ b.value) : ∃ c, a.sub b = .ok c := by
  simp only [sub]
  by_cases hb0 : b.mantissa = 0
  · rw [if_pos hb0]
    exact ⟨_, rfl⟩
  · rw [if_neg hb0]
    suffices hfits : ∃ c, add? a b.neg = some c by
      obtain ⟨c, hc⟩ := hfits
      exact ⟨c, by rw [hc]⟩
    by_cases ha0 : a.mantissa = 0
    · exact ⟨b.neg, if_pos ha0⟩
    · obtain ⟨s, hs⟩ : ∃ s, s = Nat.max a.scale b.scale := ⟨_, rfl⟩
      have has : a.scale ≤ s := hs ▸ Nat.le_max_left _ _
      have hbs : b.scale ≤ s := hs ▸ Nat.le_max_right _ _
      have hs28 : s ≤ 28 := hs ▸ Nat.max_le.mpr ⟨a.scale_le, b.scale_le⟩
      have hunits : b.neg.unitsAt s = -((b.mantissa * tenTo (s - b.scale) : Nat) : Int) := by
        have hpositive := unitsAt_of_nonneg hb s
        simp only [unitsAt] at hpositive ⊢
        rw [units_neg, show b.neg.scale = b.scale from rfl, neg_mul, hpositive]
      have hsum : add? a b.neg = fit? (decide (a.unitsAt s + b.neg.unitsAt s < 0))
          (a.unitsAt s + b.neg.unitsAt s).natAbs s := by
        simp only [add?]
        rw [if_neg ha0, if_neg (show ¬b.neg.mantissa = 0 from hb0), show b.neg.scale = b.scale from rfl,
          ← hs]
      rw [hsum, hunits, unitsAt_of_nonneg ha]
      -- the larger side, at its own scale, bounds what is left
      rcases Nat.le_total (a.mantissa * tenTo (s - a.scale)) (b.mantissa * tenTo (s - b.scale)) with
        hle | hle
      · exact exists_fit? _ hs28 (Nat.sub_le s b.scale)
          (Nat.lt_of_le_of_lt (roundEven_le (by omega)) b.mantissa_lt)
      · exact exists_fit? _ hs28 (Nat.sub_le s a.scale)
          (Nat.lt_of_le_of_lt (roundEven_le (by omega)) a.mantissa_lt)

/-! Fitting keeps the sign of a sum, whatever it rounds. -/

theorem fit?_pos_iff {u : Int} (hs : s ≤ 28) (h : fit? (decide (u < 0)) u.natAbs s = some c) :
    0 < c.value ↔ 0 < u := by
  have hsign := fit?_negative h
  have hmantissa : c.mantissa = 0 ↔ u = 0 := by
    obtain ⟨-, ⟨hexact, -⟩ | ⟨hdigits, hup, -⟩⟩ := fit?_near hs h
    · rw [hexact, Int.natAbs_eq_zero]
    · have hlimit : 1000 < limit := by decide
      refine ⟨fun hzero => by omega, fun hzero => ?_⟩
      rw [hzero, Int.natAbs_zero, Nat.zero_add] at hup
      have hone := Nat.le_of_mul_le_mul_right (hup.trans (Nat.one_mul _).ge) (by positivity)
      omega
  rw [value_pos_iff, units, hsign]
  by_cases hneg : u < 0
  · rw [decide_eq_true hneg, if_pos rfl]
    omega
  · rw [decide_eq_false hneg, if_neg Bool.false_ne_true]
    omega

/-- A sum is positive exactly when it is so before it is fitted. -/
theorem add?_pos_iff (h : add? a b = some c) : 0 < c.value ↔ 0 < a.value + b.value := by
  simp only [add?] at h
  split at h
  · next ha =>
    rw [← Option.some.inj h, value_eq_zero_iff.mpr ha, zero_add]
  · split at h
    · next hb =>
      rw [← Option.some.inj h, value_eq_zero_iff.mpr hb, add_zero]
    · have hs : Nat.max a.scale b.scale ≤ 28 := Nat.max_le.mpr ⟨a.scale_le, b.scale_le⟩
      have ha := unitsAt_eq_value a (Nat.le_max_left a.scale b.scale)
      have hb := unitsAt_eq_value b (Nat.le_max_right a.scale b.scale)
      have hpos : (0 : ℚ) < 10 ^ Nat.max a.scale b.scale := by positivity
      rw [fit?_pos_iff hs h, ← Int.cast_pos (R := ℚ), Int.cast_add, ha, hb, ← add_mul]
      exact mul_pos_iff_of_pos_right hpos

theorem add_pos_iff (h : a.add b = .ok c) : 0 < c.value ↔ 0 < a.value + b.value := by
  simp only [add] at h
  split at h
  · next x hx => exact Except.ok.inj h ▸ add?_pos_iff hx
  · cases h

/-- A difference is positive exactly when the second amount is less than the first. -/
theorem sub_pos_iff (h : a.sub b = .ok c) : 0 < c.value ↔ b.value < a.value := by
  simp only [sub] at h
  split at h
  · next hb =>
    have hb := value_eq_zero_iff.mpr hb
    rw [← Except.ok.inj h, hb]
    split
    · next ha => rw [hb, value_eq_zero_iff.mpr ha]
    · rfl
  · split at h
    · next x hx =>
      rw [← Except.ok.inj h, add?_pos_iff hx, value_neg, ← sub_eq_add_neg, sub_pos]
    · cases h

theorem monus_pos_iff (h : a.monus b = .ok c) : 0 < c.value ↔ b.value < a.value := by
  obtain ⟨d, hd, hc⟩ := bind_eq_ok.mp h
  rw [← pure_eq_ok.mp hc, value_clamp, lt_max_iff, sub_pos_iff hd]
  exact or_iff_left (lt_irrefl 0)

end LoanLedger.Money
