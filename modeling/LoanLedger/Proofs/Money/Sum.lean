import LoanLedger.Proofs.Lists
import LoanLedger.Proofs.Money.Whole

/-!
Exact sums, whatever their order. A sum of amounts that are not negative and have room is worth what
its terms are worth, and has the decimal places of the finest term that is not zero. So the same
terms in another order come to the same amount, with its scale, or to another zero.
-/

set_option autoImplicit false
set_option relaxedAutoImplicit false

namespace LoanLedger.Money

variable {a b c d : Money} {as bs : List Money}

/-- The decimal places that an amount brings to a sum. A zero brings none. -/
def decimals (a : Money) : Nat := if a.mantissa = 0 then 0 else a.scale

theorem decimals_of_zero (h : a.mantissa = 0) : a.decimals = 0 := if_pos h

theorem decimals_of_ne_zero (h : a.mantissa ≠ 0) : a.decimals = a.scale := if_neg h

theorem mantissa_ne_zero_of_pos (h : 0 < a.value) : a.mantissa ≠ 0 := fun h0 =>
  h.ne' (value_eq_zero_iff.mpr h0)

private theorem eq_of_units (hscale : a.scale = b.scale) (hunits : a.units = b.units)
    (hne : a.mantissa ≠ 0) : a = b := by
  obtain ⟨aNegative, aMantissa, aScale, aLt, aLe⟩ := a
  obtain ⟨bNegative, bMantissa, bScale, bLt, bLe⟩ := b
  obtain rfl : aScale = bScale := hscale
  simp only [units] at hunits hne
  cases aNegative <;> cases bNegative <;>
    simp only [if_true, if_false, Bool.false_eq_true] at hunits <;> grind

/-- Amounts agree when they have the same value and bring the same places to a sum. -/
theorem agree_iff : Agree a b ↔ a.value = b.value ∧ a.decimals = b.decimals := by
  constructor
  · intro h
    refine ⟨h.value_eq, ?_⟩
    rcases h with rfl | ⟨ha, hb⟩
    · rfl
    · rw [decimals_of_zero ha, decimals_of_zero hb]
  · rintro ⟨hvalue, hdecimals⟩
    by_cases ha : a.mantissa = 0
    · exact .inr ⟨ha, value_eq_zero_iff.mp (hvalue ▸ value_eq_zero_iff.mpr ha)⟩
    · have hb : b.mantissa ≠ 0 := fun hb =>
        ha (value_eq_zero_iff.mp (hvalue.trans (value_eq_zero_iff.mpr hb)))
      rw [decimals_of_ne_zero ha, decimals_of_ne_zero hb] at hdecimals
      have hne : (10 : ℚ) ^ b.scale ≠ 0 := by positivity
      rw [value, value, hdecimals, div_left_inj' hne, Int.cast_inj] at hvalue
      exact .inl (eq_of_units hdecimals hvalue ha)

theorem Agree.eq_of_pos (h : Agree a b) (ha : 0 < a.value) : a = b :=
  h.resolve_right fun h0 => mantissa_ne_zero_of_pos ha h0.1

/-- An amount that is the exact sum of others. -/
structure Sums (as : List Money) (c : Money) : Prop where
  fine : c.Fine
  value : c.value = (as.map value).sum
  decimals : c.decimals = (as.map decimals).foldl Max.max 0

theorem sums_nil : Sums [] zero := ⟨fine_zero, value_zero, rfl⟩

theorem sums_singleton (ha : a.Fine) : Sums [a] a where
  fine := ha
  value := by simp
  decimals := (Nat.zero_max _).symm

private theorem decimals_add (ha : a.Fine) (hb : b.Fine) (haNonneg : 0 ≤ a.value)
    (hbNonneg : 0 ≤ b.value) (hroom : a.value + b.value < room) (h : a.add b = .ok c) :
    c.decimals = Max.max a.decimals b.decimals := by
  have hsum := add_nonneg haNonneg hbNonneg
  by_cases ha0 : a.mantissa = 0
  · obtain rfl : b = c := by simpa [add, add?, ha0] using h
    rw [decimals_of_zero ha0, Nat.zero_max]
  · by_cases hb0 : b.mantissa = 0
    · obtain rfl : a = c := by simpa [add, add?, ha0, hb0] using h
      rw [decimals_of_zero hb0, Nat.max_zero]
    · obtain ⟨x, hx, hscale, hvalue⟩ :=
        add_eq_of_room ha hb ha0 hb0 (by rwa [abs_of_nonneg hsum])
      obtain rfl := Except.ok.inj (h.symm.trans hx)
      -- terms that are not negative do not cancel each other
      have hpos : 0 < c.value := by
        rw [hvalue]
        exact add_pos_of_pos_of_nonneg
          (haNonneg.lt_of_ne' fun h0 => ha0 (value_eq_zero_iff.mp h0)) hbNonneg
      rw [decimals_of_ne_zero (mantissa_ne_zero_of_pos hpos), decimals_of_ne_zero ha0,
        decimals_of_ne_zero hb0, hscale]

theorem Sums.exists_add (h : Sums as c) (hc : 0 ≤ c.value) (ha : a.Fine) (haNonneg : 0 ≤ a.value)
    (hroom : c.value + a.value < room) : ∃ d, c.add a = .ok d ∧ Sums (as ++ [a]) d := by
  have habs : |c.value + a.value| < room := by rwa [abs_of_nonneg (add_nonneg hc haNonneg)]
  obtain ⟨d, hd, hfine, hvalue⟩ := add_exact h.fine ha habs
  refine ⟨d, hd, hfine, ?_, ?_⟩
  · rw [hvalue, h.value, List.map_append, List.sum_append, List.map_singleton, List.sum_singleton]
  · rw [decimals_add h.fine ha hc haNonneg hroom hd, h.decimals, List.map_append, List.foldl_append]
    rfl

theorem Sums.agree_of_perm (hc : Sums as c) (hd : Sums bs d) (h : as.Perm bs) : Agree c d := by
  rw [agree_iff, hc.value, hd.value, hc.decimals, hd.decimals]
  have : RightCommutative (Max.max : Nat → Nat → Nat) := ⟨Nat.max_right_comm⟩
  exact ⟨(h.map _).sum_eq, (h.map _).foldl_eq 0⟩

theorem Sums.agree_of_forall₂ (hc : Sums as c) (hd : Sums bs d) (h : List.Forall₂ Agree as bs) :
    Agree c d := by
  rw [agree_iff, hc.value, hd.value, hc.decimals, hd.decimals,
    map_eq_of_forall₂ h fun _ _ hab => (agree_iff.mp hab).1,
    map_eq_of_forall₂ h fun _ _ hab => (agree_iff.mp hab).2]
  exact ⟨rfl, rfl⟩

end LoanLedger.Money
