import LoanLedger.Proofs.Money.Share
import LoanLedger.Proofs.Range

/-!
How large results can become, whatever is rounded on the way. A long sum may gain with every term,
up to ten times the term, so sizes alone do not tell. The load of an amount makes up for that in
advance: it is the size ten times over, but for what goes beyond one, and no sum or difference has
more of it than its terms together. Amounts that come in weigh ten times their size at most.
-/

set_option autoImplicit false
set_option relaxedAutoImplicit false

namespace LoanLedger.Money

variable {a b c : Money}

/-- The size of an amount, with what rounding may add once the amount is a term of a sum. -/
def load (a : Money) : ℚ := Min.min (10 * |a.value|) (|a.value| + 9)

/-- There are results for all loads up to this one. -/
def capacity : ℚ := 7 * 10 ^ 28

theorem load_le (a : Money) : a.load ≤ 10 * |a.value| := min_le_left _ _

theorem load_le_add (a : Money) : a.load ≤ |a.value| + 9 := min_le_right _ _

theorem abs_le_load (a : Money) : |a.value| ≤ a.load := by
  have := abs_nonneg a.value
  exact le_min (by linarith) (by linarith)

theorem load_nonneg (a : Money) : 0 ≤ a.load := (abs_nonneg _).trans a.abs_le_load

theorem load_of_le (h : |a.value| ≤ 1) : a.load = 10 * |a.value| := min_eq_left (by linarith)

theorem load_of_ge (h : 1 ≤ |a.value|) : a.load = |a.value| + 9 := min_eq_right (by linarith)

theorem load_mono (h : |a.value| ≤ |b.value|) : a.load ≤ b.load :=
  min_le_min (by linarith) (by linarith)

@[simp] theorem load_zero : zero.load = 0 := by simp [load]

theorem load_neg (a : Money) : a.neg.load = a.load := by
  simp only [load]
  rw [value_neg, abs_neg]

theorem load_orZero_nonZero (a : Money) : (orZero a.nonZero).load = a.load := by
  simp only [load]
  rw [value_orZero_nonZero]

theorem load_le_of_mem {as : List Money} (h : a ∈ as) : a.load ≤ 10 * totalSize as := by
  have := abs_le_totalSize h
  have := a.load_le
  linarith

/-! Sums and differences have no more load than their terms together. -/

private theorem abs_add_le_limit (h : a.load + b.load ≤ capacity) :
    |a.value + b.value| ≤ limit - 1 := by
  have hsum := abs_add_le a.value b.value
  have ha := a.abs_le_load
  have hb := b.abs_le_load
  have hlimit : capacity ≤ limit - 1 := by norm_num [capacity, limit]
  linarith

private theorem load_of_rounds (h : Rounds (a.value + b.value) c)
    (hcap : a.load + b.load ≤ capacity) : c.load ≤ a.load + b.load := by
  have hsum := abs_add_le a.value b.value
  have hnearLeft : |c.value| ≤ |a.value| + 10 * |b.value| := by
    have hclose := h.close a
    rw [add_sub_cancel_left] at hclose
    have := abs_sub_abs_le_abs_sub c.value a.value
    linarith
  have hnearRight : |c.value| ≤ |b.value| + 10 * |a.value| := by
    have hclose := h.close b
    rw [add_sub_cancel_right] at hclose
    have := abs_sub_abs_le_abs_sub c.value b.value
    linarith
  have hcLe := c.load_le
  have hcAdd := c.load_le_add
  -- small terms are added exactly, and a large one has room for what rounding adds
  rcases le_total |a.value| 1 with ha | ha <;> rcases le_total |b.value| 1 with hb | hb
  · rw [load_of_le ha, load_of_le hb]
    have hexact := h.of_small (by linarith)
    rw [← hexact] at hsum
    linarith
  · rw [load_of_le ha, load_of_ge hb]
    linarith
  · rw [load_of_ge ha, load_of_le hb]
    linarith
  · rw [load_of_ge ha, load_of_ge hb]
    have hsize := h.size_le (abs_add_le_limit hcap)
    linarith

theorem exists_add_of_load (h : a.load + b.load ≤ capacity) :
    ∃ c, a.add b = .ok c ∧ c.load ≤ a.load + b.load := by
  obtain ⟨c, hc⟩ := exists_add (abs_add_le_limit h)
  exact ⟨c, hc, load_of_rounds (add_rounds hc) h⟩

theorem exists_sub_of_load (h : a.load + b.load ≤ capacity) :
    ∃ c, a.sub b = .ok c ∧ c.load ≤ a.load + b.load := by
  rw [← load_neg b] at h ⊢
  have hsub : a.value + b.neg.value = a.value - b.value := by rw [value_neg, ← sub_eq_add_neg]
  obtain ⟨c, hc⟩ := exists_sub (hsub ▸ abs_add_le_limit h)
  exact ⟨c, hc, load_of_rounds (hsub ▸ sub_rounds hc) h⟩

theorem load_clamp_le (a : Money) : a.clamp.load ≤ a.load := by
  refine load_mono ?_
  rw [value_clamp]
  exact abs_max_le_max_abs_abs.trans (by simp)

theorem exists_monus_of_load (h : a.load + b.load ≤ capacity) :
    ∃ c, a.monus b = .ok c ∧ c.load ≤ a.load + b.load := by
  obtain ⟨c, hc, hload⟩ := exists_sub_of_load h
  exact ⟨c.clamp, bind_eq_ok.mpr ⟨c, hc, rfl⟩, c.load_clamp_le.trans hload⟩

/-! Rounding and shares add a little. -/

theorem load_roundTo_le (a : Money) (places : Nat) (mode : RoundingMode) :
    (a.roundTo places mode).load ≤ a.load + 10 := by
  have hround := abs_roundTo_le a places mode
  have hle := (a.roundTo places mode).load_le_add
  have := abs_le_load a
  linarith

/-- A quotient by a whole number is hardly larger than the exact one. -/
private theorem abs_div_le {x d : Money} (hd : d.scale = 0) (h : x.div d = .ok c) :
    |c.value| ≤
      |x.value| / d.mantissa + (1 / 10 ^ 28 + |x.value| / d.mantissa / (7 * 10 ^ 27)) := by
  by_cases hx0 : x.mantissa = 0
  · rw [eq_zero_of_div hx0 h, value_zero, abs_zero]
    positivity
  · obtain ⟨hpos, -⟩ := div_developed hd hx0 h
    have hscale : 0 < 10 ^ x.scale := by positivity
    obtain ⟨m, s, hnear, hsame, -⟩ :=
      div_near (u := 10 ^ x.scale) (y := x.mantissa) hd hx0 rfl h
    have hquotient := quotient_near hnear hscale hpos
    have hx : |x.value| = x.mantissa / (10 ^ x.scale : Nat) := by
      rw [abs_value]
      push_cast
      rfl
    have hc : |c.value| = m / 10 ^ s := by
      rw [abs_value, div_eq_div_iff (by positivity) (by positivity)]
      exact_mod_cast hsame
    rw [← hx, ← hc] at hquotient
    have := (abs_le.mp hquotient).2
    linarith

/-- An amount well below the limit has its share for any number of days. -/
theorem exists_prorate_of_load {x : Money} {whole : Int} (hx : x.load ≤ 2 * 10 ^ 28)
    (hwhole : whole ≤ 2 * 10 ^ 8) (part : Int) :
    ∃ p, x.prorate part whole = .ok p ∧ p.load ≤ x.load + 20 := by
  have hxload := x.abs_le_load
  simp only [prorate]
  split
  · exact ⟨x, rfl, by linarith⟩
  · next hlong =>
    split
    · exact ⟨zero, rfl, by rw [load_zero]; linarith [abs_nonneg x.value]⟩
    · next hpart =>
      obtain ⟨hb, -, hbscale⟩ := mantissa_ofInt (d := whole) (by omega) hwhole
      obtain ⟨-, -, hkscale⟩ := mantissa_ofInt (d := part) (by omega) (by omega)
      have hpartPos : (0 : ℚ) < part := by exact_mod_cast (by omega : 0 < part)
      have hpartLe : (part : ℚ) ≤ whole := by exact_mod_cast (by omega : part ≤ whole)
      have hwholeLe : (whole : ℚ) ≤ 2 * 10 ^ 8 := by exact_mod_cast hwhole
      have hwholePos : (0 : ℚ) < whole := hpartPos.trans_le hpartLe
      -- The days multiply the error of the quotient for one day.
      obtain ⟨c, hdiv⟩ := exists_div (a := x) hbscale (by omega)
      have hc := abs_div_le hbscale hdiv
      rw [show ((ofInt whole).mantissa : ℚ) = whole by exact_mod_cast hb] at hc
      have hk : (ofInt part).value = part := value_ofInt (by simp only [limit]; omega)
      have hproduct : |c.value * (ofInt part).value| ≤ |x.value| + 4 := by
        have hnonneg := abs_nonneg x.value
        rw [hk, abs_mul, abs_of_pos hpartPos]
        calc |c.value| * part
            ≤ (|x.value| / whole + (1 / 10 ^ 28 + |x.value| / whole / (7 * 10 ^ 27))) * whole :=
              mul_le_mul hc hpartLe hpartPos.le ((abs_nonneg _).trans hc)
          _ = |x.value| + whole / 10 ^ 28 + |x.value| / (7 * 10 ^ 27) := by
              field_simp
              ring
          _ ≤ |x.value| + 4 := by linarith
      have hlimit : (2 * 10 ^ 28 + 4 : ℚ) ≤ limit - 1 := by norm_num [limit]
      obtain ⟨p, hmul⟩ := exists_mul (a := c) hkscale (by linarith)
      have hp := (mul_rounds hkscale hmul).size_le (by linarith)
      refine ⟨p, bind_eq_ok.mpr ⟨c, hdiv, hmul⟩, ?_⟩
      have := p.load_le_add
      linarith

end LoanLedger.Money
