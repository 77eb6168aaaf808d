import LoanLedger.Proofs.Money.Nearest
import LoanLedger.Proofs.Money.Proration

/-!
Shares of an amount for some days out of a period. There always is a quotient by a number of days.
In the exact range a share lies within a quarter of a day of the exact share, and more days never
bring less.
-/

set_option autoImplicit false
set_option relaxedAutoImplicit false

namespace LoanLedger.Money

/-! Existence. -/

private theorem exists_shorten {q : Quotient} (more : Bool) (hplaces : 0 < q.places)
    (hdigits : q.digits < 9 * limit) :
    ∃ q', q.shorten? more = some q' ∧ q'.digits < limit := by
  simp only [Quotient.shorten?]
  rw [if_neg (by omega)]
  refine ⟨_, rfl, ?_⟩
  simp only [limit] at hdigits ⊢
  split <;> omega

private theorem exists_settled {b r : Nat} {q : Quotient} (hq : q.digits < limit)
    (hplaces : ¬ q.digits + 1 < limit → 0 < q.places) :
    ∃ q', q.settled? b r = some q' ∧ q'.digits < limit := by
  unfold Quotient.settled?
  split
  · split
    · next hfits => exact ⟨_, rfl, hfits⟩
    · next hover =>
      refine exists_shorten true (hplaces hover) ?_
      simp only [limit] at hq ⊢
      omega
  · exact ⟨_, rfl, hq⟩

/-- The digits that a step adds are fewer than the room for them, so that at most one is too many. -/
private theorem lifted_lt {b r : Nat} {q : Quotient} (hq : q.digits < limit) (hr : r < b)
    (hp9 : q.room false ≤ 9) : (q.lifted b r (q.room false)).digits < 9 * limit := by
  have hdigit : r * tenTo (q.room false) / b < tenTo (q.room false) := by
    rw [Nat.div_lt_iff_lt_mul (Nat.zero_lt_of_lt hr), Nat.mul_comm _ b]
    exact Nat.mul_lt_mul_of_pos_right hr (tenTo_pos _)
  have hten : tenTo (q.room false) ≤ limit := by
    rw [tenTo_eq_pow]
    exact (Nat.pow_le_pow_right (by decide) hp9).trans (by norm_num [limit])
  have hroom := room_fits hq
  show q.digits * tenTo (q.room false) + r * tenTo (q.room false) / b < 9 * limit
  omega

/-- Long division ends before its steps do, unless there is no decimal place to drop from a quotient
that outgrew its digits. -/
theorem exists_develop {b steps s r : Nat} {q : Quotient} (hs : q.places = (s : Int))
    (hs28 : s ≤ 28) (hsteps : 28 < s + steps) (hq : q.digits < limit) (hr : r < b)
    (hwhole : s = 0 → q.digits + 1 < limit) :
    ∃ q', Quotient.develop b steps q r = some q' ∧ q'.digits < limit := by
  induction steps generalizing q r s with
  | zero => omega
  | succ steps ih =>
    by_cases hr0 : r = 0
    · rw [hr0, develop_of_no_remainder hs]
      exact ⟨q, rfl, hq⟩
    · rw [develop_of_remainder hs hq hr0]
      obtain ⟨hp9, hp28, -⟩ := room_spec hq
      split
      · exact exists_settled hq fun hover => by
          have hs0 : s ≠ 0 := fun hs0 => hover (hwhole hs0)
          omega
      · next hp0 =>
        have hlifted := lifted_places (b := b) (r := r) (q.room false) hs
        split
        · next hfits =>
          have hr' : r * tenTo (q.room false) % b < b := Nat.mod_lt _ (Nat.zero_lt_of_lt hr)
          exact ih hlifted (by omega) (by omega) hfits hr' (by omega)
        · exact exists_shorten _ (by omega) (lifted_lt hq hr hp9)

/-- An amount can be divided by a whole number that is not zero or one. -/
theorem exists_div {a b : Money} (hb : b.scale = 0) (hb2 : 2 ≤ b.mantissa) :
    ∃ c, a.div b = .ok c := by
  unfold div
  rw [if_neg (by omega)]
  by_cases ha0 : a.mantissa = 0
  · rw [if_pos ha0]
    exact ⟨_, rfl⟩
  · rw [if_neg ha0]
    have ha := a.mantissa_lt
    -- A divisor of two or more halves the digits, which leaves room for rounding up.
    have hhalf : a.mantissa / b.mantissa ≤ a.mantissa / 2 := Nat.div_le_div_left hb2 (by decide)
    have hlimit : limit = 79228162514264337593543950336 := rfl
    have hplaces : (a.scale : Int) - (b.scale : Int) = ((a.scale : Nat) : Int) := by
      rw [hb, Nat.cast_zero, Int.sub_zero]
    obtain ⟨q, hdevelop, hdigits⟩ : ∃ q, Quotient.develop b.mantissa 57
        ⟨a.mantissa / b.mantissa, (a.scale : Int) - (b.scale : Int), false⟩
        (a.mantissa % b.mantissa) = some q ∧ q.digits < limit := by
      refine exists_develop hplaces a.scale_le (by omega) ?_ (Nat.mod_lt _ (by omega)) fun _ => ?_
      · show a.mantissa / b.mantissa < limit
        omega
      · show a.mantissa / b.mantissa + 1 < limit
        omega
    have hinv : (a.mantissa / b.mantissa * b.mantissa + a.mantissa % b.mantissa) * 10 ^ a.scale =
        a.mantissa * 10 ^ a.scale := by
      rw [Nat.mul_comm (a.mantissa / b.mantissa), Nat.div_add_mod]
    obtain ⟨s, hs, hnear⟩ := develop_near hdevelop hplaces a.scale_le
      (show a.mantissa / b.mantissa < limit by omega) (Nat.mod_lt _ (by omega)) hinv
    have hq28 := hnear.places_le
    dsimp only
    rw [hdevelop]
    dsimp only
    obtain ⟨x, hx⟩ : ∃ x, x = if q.inexact = true then stripInexact (q.digits, q.places.toNat)
        else (q.digits, q.places.toNat) := ⟨_, rfl⟩
    have hle : x.1 ≤ q.digits ∧ x.2 ≤ q.places.toNat := by
      rw [hx]
      split
      · exact stripInexact_le _
      · exact ⟨Nat.le_refl _, Nat.le_refl _⟩
    rw [← hx, ofParts?, dif_pos ⟨by omega, by omega⟩]
    exact ⟨_, rfl⟩

/-! Nearness. -/

/-- A quotient is off by a unit of its last place, of which there are 28 unless its digits are nearly
all in use. -/
theorem quotient_near {u b y m s : Nat} (h : NearQuotient u b y m s) (hu : 0 < u) (hb : 0 < b) :
    |(m : ℚ) / 10 ^ s - y / u / b| ≤ 1 / 10 ^ 28 + (y : ℚ) / u / b / (7 * 10 ^ 27) := by
  have hupos : (0 : ℚ) < u := by exact_mod_cast hu
  have hbpos : (0 : ℚ) < b := by exact_mod_cast hb
  have hpow : (0 : ℚ) < 10 ^ s := by positivity
  have hdiff : (m : ℚ) / 10 ^ s - y / u / b = (m * b * u - y * 10 ^ s) / (10 ^ s * (b * u)) := by
    field_simp
  have hle : (m : ℚ) * b * u ≤ y * 10 ^ s + b * u := by exact_mod_cast h.le
  have hge : (y : ℚ) * 10 ^ s ≤ m * b * u + b * u := by exact_mod_cast h.ge
  have hunit : |(m : ℚ) / 10 ^ s - y / u / b| ≤ 1 / 10 ^ s := by
    have habs : |(m : ℚ) * b * u - y * 10 ^ s| ≤ (b : ℚ) * u :=
      abs_le.mpr ⟨by linarith, by linarith⟩
    rw [hdiff, abs_div, abs_of_pos (by positivity : (0 : ℚ) < 10 ^ s * (b * u)),
      div_le_div_iff₀ (by positivity) hpow]
    calc _ ≤ (b : ℚ) * u * 10 ^ s := mul_le_mul_of_nonneg_right habs hpow.le
      _ = 1 * (10 ^ s * (b * u)) := by ring
  have hquotient : (0 : ℚ) ≤ y / u / b / (7 * 10 ^ 27) := by positivity
  rcases h.tight with hexact | rfl | hlimit
  · have hexact : (m : ℚ) * b * u = y * 10 ^ s := by exact_mod_cast hexact
    rw [hdiff, hexact, sub_self, zero_div, abs_zero]
    linarith
  · linarith
  · -- a quotient of so many digits is large against a unit of its last place
    have hm : 7 * (10 : ℚ) ^ 27 + 1 ≤ m := by
      have : 7 * 10 ^ 27 + 1 ≤ m := by
        simp only [limit] at hlimit
        omega
      exact_mod_cast this
    have hmul : (7 * 10 ^ 27 + 1) * (1 / 10 ^ s) ≤ (m : ℚ) / 10 ^ s := by
      rw [mul_one_div]
      gcongr
    have hlow := (abs_le.mp hunit).2
    have hlarge : 1 / 10 ^ s ≤ (y : ℚ) / u / b / (7 * 10 ^ 27) := by
      rw [le_div_iff₀ (by positivity)]
      linarith
    linarith

/-- A share is as near to the exact one as the digits of the quotient and the product allow. -/
theorem prorate_error {x p : Money} {part whole : Int} (hx : x.Fine) (hpart : 0 < part)
    (hlt : part < whole) (hwhole : whole ≤ 2 * 10 ^ 8) (h : x.prorate part whole = .ok p) :
    abs (|p.value| - |x.value| * part / whole) ≤ 2 * whole / 10 ^ 28 + 2 * |x.value| / 10 ^ 27 := by
  have hpartPos : (0 : ℚ) < part := by exact_mod_cast hpart
  have hpartLe : (part : ℚ) ≤ whole := by exact_mod_cast hlt.le
  have hwholePos : (0 : ℚ) < whole := by exact_mod_cast hpart.trans hlt
  simp only [prorate] at h
  rw [if_neg (by omega), if_neg (by omega)] at h
  obtain ⟨c, hdiv, hmul⟩ := bind_eq_ok.mp h
  by_cases hx0 : x.mantissa = 0
  · rw [eq_zero_of_div hx0 hdiv] at hmul
    rw [eq_zero_of_zero_mul hmul, value_eq_zero_iff.mpr hx0, value_zero, abs_zero]
    norm_num
    positivity
  · obtain ⟨hb, -, hbscale⟩ := mantissa_ofInt (d := whole) (by omega) hwhole
    obtain ⟨hk, -, hkscale⟩ := mantissa_ofInt (d := part) hpart (by omega)
    obtain ⟨y, hunits, hvalue⟩ := exists_units hx
    obtain ⟨⟨m, s, hnear, hsame⟩, -, -⟩ := days_of_div part hunits hx0 hpart hlt hwhole hdiv
    have hday := quotient_near hnear (by positivity) (by omega)
    have hxValue : |x.value| = y / (10 ^ 10 : Nat) := by
      rw [← hvalue, Nat.cast_pow, Nat.cast_ofNat, mul_div_cancel_right₀ _ (by positivity)]
    have hcValue : |c.value| = m / 10 ^ s := by
      rw [abs_value, div_eq_div_iff (by positivity) (by positivity)]
      exact_mod_cast hsame
    have hbCast : ((ofInt whole).mantissa : ℚ) = whole := by exact_mod_cast hb
    have hkCast : ((ofInt part).mantissa : ℚ) = part := by exact_mod_cast hk
    rw [← hxValue, ← hcValue, hbCast] at hday
    -- The error of the day is multiplied by the days; that of the product is added to it.
    have hdays : abs (|c.value| * part - |x.value| * part / whole) ≤
        whole / 10 ^ 28 + |x.value| / (7 * 10 ^ 27) := by
      have hsplit : |c.value| * part - |x.value| * part / whole =
          (|c.value| - |x.value| / whole) * part := by ring
      rw [hsplit, abs_mul, abs_of_pos hpartPos]
      calc abs (|c.value| - |x.value| / whole) * part
          ≤ (1 / 10 ^ 28 + |x.value| / whole / (7 * 10 ^ 27)) * whole :=
            mul_le_mul hday hpartLe hpartPos.le (by positivity)
        _ = whole / 10 ^ 28 + |x.value| / (7 * 10 ^ 27) := by field_simp
    have hshare : |x.value| * part / whole ≤ |x.value| := by
      rw [div_le_iff₀ hwholePos]
      exact mul_le_mul_of_nonneg_left hpartLe (abs_nonneg _)
    have hsmall : part.natAbs < limit := by
      simp only [limit]
      omega
    have hfit := (mul_rounds hkscale hmul).near
    rw [value_ofInt hsmall, abs_mul, abs_of_pos hpartPos] at hfit
    have hproduct := (abs_le.mp hdays).2
    have hmagnitude : abs (|p.value| - |c.value| * part) ≤ |c.value| * part / (7 * 10 ^ 26) := by
      have hle := abs_abs_sub_abs_le p.value (c.value * part)
      rw [abs_mul, abs_of_pos hpartPos] at hle
      exact hle.trans hfit
    have htriangle := abs_sub_le |p.value| (|c.value| * part) (|x.value| * part / whole)
    have hnonneg := abs_nonneg x.value
    have hbound : |c.value| * part / (7 * 10 ^ 26) ≤
        (|x.value| + whole / 10 ^ 28 + |x.value| / (7 * 10 ^ 27)) / (7 * 10 ^ 26) := by
      gcongr
      linarith
    linarith

/-- A share lies within a quarter of the share of one day of the exact one. -/
theorem prorate_near {x p : Money} {part whole : Int} (hx : x.Fine) (hsize : |x.value| < room)
    (hpart : 0 < part) (hlt : part < whole) (hwhole : whole ≤ 2 * 10 ^ 8)
    (h : x.prorate part whole = .ok p) :
    abs (|p.value| - |x.value| * part / whole) ≤ |x.value| / (4 * whole) := by
  by_cases hx0 : x.mantissa = 0
  · obtain ⟨hle, -⟩ := prorate_le hx hsize hwhole h
    rw [value_eq_zero_iff.mpr hx0, abs_zero] at hle ⊢
    rw [le_antisymm hle (abs_nonneg _)]
    simp
  · have hwholePos : (0 : ℚ) < whole := by exact_mod_cast hpart.trans hlt
    have hwholeLe : (whole : ℚ) ≤ 2 * 10 ^ 8 := by exact_mod_cast hwhole
    obtain ⟨y, hunits, hvalue⟩ := exists_units hx
    have hy : (1 : ℚ) ≤ y := by exact_mod_cast units_pos hunits hx0
    have hone : 1 ≤ |x.value| * 10 ^ 10 := hvalue ▸ hy
    refine (prorate_error hx hpart hlt hwhole h).trans ?_
    rw [le_div_iff₀ (by positivity)]
    have hsquare : (whole : ℚ) * whole ≤ 2 * 10 ^ 8 * (2 * 10 ^ 8) :=
      mul_le_mul hwholeLe hwholeLe hwholePos.le (by norm_num)
    have hshare : |x.value| * whole ≤ |x.value| * (2 * 10 ^ 8) :=
      mul_le_mul_of_nonneg_left hwholeLe (abs_nonneg _)
    calc (2 * whole / 10 ^ 28 + 2 * |x.value| / 10 ^ 27) * (4 * whole)
        = whole * whole * (8 / 10 ^ 28) + |x.value| * whole * (8 / 10 ^ 27) := by ring
      _ ≤ 2 * 10 ^ 8 * (2 * 10 ^ 8) * (8 / 10 ^ 28) + |x.value| * (2 * 10 ^ 8) * (8 / 10 ^ 27) := by
        gcongr
      _ ≤ |x.value| := by linarith

/-- Of amounts that are not negative, more days of a larger one bring no less. -/
theorem prorate_mono {x x' p p' : Money} {part part' whole : Int} (hx : x.Fine) (hx' : x'.Fine)
    (hsize : |x'.value| < room) (hnonneg : 0 ≤ x.value) (hle : x.value ≤ x'.value)
    (hdays : part ≤ 0 ∨ part < part') (hwhole : whole ≤ 2 * 10 ^ 8)
    (h : x.prorate part whole = .ok p) (h' : x'.prorate part' whole = .ok p') :
    p.value ≤ p'.value := by
  have hsizeX : |x.value| < room := by
    rw [abs_of_nonneg hnonneg]
    rw [abs_of_nonneg (hnonneg.trans hle)] at hsize
    exact hle.trans_lt hsize
  obtain ⟨hpLe, hp⟩ := prorate_le hx hsizeX hwhole h
  obtain ⟨-, hp'⟩ := prorate_le hx' hsize hwhole h'
  have hp := hp hnonneg
  have hp' := hp' (hnonneg.trans hle)
  rw [abs_of_nonneg hp, abs_of_nonneg hnonneg] at hpLe
  by_cases hall : whole ≤ 0 ∨ whole ≤ part'
  · simp only [prorate] at h'
    rw [if_pos hall] at h'
    rw [← Except.ok.inj h']
    exact hpLe.trans hle
  · by_cases hnone : part ≤ 0
    · rw [prorate_of_nonpos x hnone (by omega)] at h
      rw [← Except.ok.inj h, value_zero]
      exact hp'
    · have hnear := prorate_near hx hsizeX (by omega) (by omega) hwhole h
      have hnear' := prorate_near hx' hsize (by omega) (by omega) hwhole h'
      rw [abs_of_nonneg hp, abs_of_nonneg hnonneg] at hnear
      rw [abs_of_nonneg hp', abs_of_nonneg (hnonneg.trans hle)] at hnear'
      have hwholePos : (0 : ℚ) < whole := by exact_mod_cast (by omega : 0 < whole)
      have hnext : (part : ℚ) + 1 ≤ part' := by exact_mod_cast (by omega : part + 1 ≤ part')
      have hpartPos : (0 : ℚ) ≤ part := by exact_mod_cast (by omega : 0 ≤ part)
      have hupper := (abs_le.mp hnear).2
      have hlower := (abs_le.mp hnear').1
      -- one more day makes up for both errors
      calc p.value ≤ x.value * part / whole + x.value / (4 * whole) := by linarith
        _ = x.value * (part + 1 / 4) / whole := by field_simp
        _ ≤ x'.value * (part' - 1 / 4) / whole := by
          gcongr
          · linarith
          · linarith
        _ = x'.value * part' / whole - x'.value / (4 * whole) := by field_simp
        _ ≤ p'.value := by linarith

end LoanLedger.Money
