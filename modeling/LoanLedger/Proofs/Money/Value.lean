import Mathlib.Tactic
import LoanLedger.Money.Arithmetic
import LoanLedger.Proofs.Success

/-!
The value of an amount as a rational number. Order, sign and equivalence of amounts are those of
their values, and what an operation does to a zero depends on its value alone.
-/

set_option autoImplicit false
set_option relaxedAutoImplicit false

namespace LoanLedger

theorem tenTo_eq_pow (k : Nat) : tenTo k = 10 ^ k := by
  induction k with
  | zero => rfl
  | succ k ih => rw [tenTo_succ, ih, pow_succ]

namespace Money

/-- The number that an amount stands for. -/
def value (a : Money) : ℚ := a.units / 10 ^ a.scale

@[simp] theorem value_zero : zero.value = 0 := by simp [value]

/-- Units of a place that is not too coarse are the value, counted. -/
theorem unitsAt_eq_value (a : Money) {s : Nat} (h : a.scale ≤ s) :
    (a.unitsAt s : ℚ) = a.value * 10 ^ s := by
  have hsplit : (10 : ℚ) ^ s = 10 ^ a.scale * 10 ^ (s - a.scale) := by
    rw [← pow_add, Nat.add_sub_of_le h]
  have hne : (10 : ℚ) ^ a.scale ≠ 0 := by positivity
  simp only [unitsAt, value]
  rw [tenTo_eq_pow, hsplit]
  push_cast
  field_simp

private theorem unitsAt_max_eq (a b : Money) :
    (a.unitsAt (Nat.max a.scale b.scale) : ℚ) = a.value * 10 ^ Nat.max a.scale b.scale ∧
      (b.unitsAt (Nat.max a.scale b.scale) : ℚ) = b.value * 10 ^ Nat.max a.scale b.scale :=
  ⟨unitsAt_eq_value a (Nat.le_max_left _ _), unitsAt_eq_value b (Nat.le_max_right _ _)⟩

theorem le_iff_value {a b : Money} : a ≤ b ↔ a.value ≤ b.value := by
  obtain ⟨ha, hb⟩ := unitsAt_max_eq a b
  have hpos : (0 : ℚ) < 10 ^ Nat.max a.scale b.scale := by positivity
  show a.unitsAt _ ≤ b.unitsAt _ ↔ _
  rw [← Int.cast_le (R := ℚ), ha, hb]
  exact mul_le_mul_iff_left₀ hpos

theorem lt_iff_value {a b : Money} : a < b ↔ a.value < b.value := by
  obtain ⟨ha, hb⟩ := unitsAt_max_eq a b
  have hpos : (0 : ℚ) < 10 ^ Nat.max a.scale b.scale := by positivity
  show a.unitsAt _ < b.unitsAt _ ↔ _
  rw [← Int.cast_lt (R := ℚ), ha, hb]
  exact mul_lt_mul_iff_left₀ hpos

theorem equiv_iff_value {a b : Money} : a ≈ b ↔ a.value = b.value := by
  obtain ⟨ha, hb⟩ := unitsAt_max_eq a b
  have hne : (10 : ℚ) ^ Nat.max a.scale b.scale ≠ 0 := by positivity
  show a.unitsAt _ = b.unitsAt _ ↔ _
  rw [← Int.cast_inj (α := ℚ), ha, hb]
  exact mul_left_inj' hne

theorem value_pos_iff {a : Money} : 0 < a.value ↔ 0 < a.units := by
  have hpos : (0 : ℚ) < 10 ^ a.scale := by positivity
  rw [value, div_pos_iff_of_pos_right hpos]
  exact Int.cast_pos

theorem value_nonneg_iff {a : Money} : 0 ≤ a.value ↔ 0 ≤ a.units := by
  have hpos : (0 : ℚ) < 10 ^ a.scale := by positivity
  rw [value, le_div_iff₀ hpos, zero_mul]
  exact Int.cast_nonneg_iff

theorem value_eq_zero_iff {a : Money} : a.value = 0 ↔ a.mantissa = 0 := by
  have hne : (10 : ℚ) ^ a.scale ≠ 0 := by positivity
  rw [← units_eq_zero_iff, value, div_eq_zero_iff]
  simp [hne]

theorem isPositive_iff_value {a : Money} : a.isPositive = true ↔ 0 < a.value := by
  rw [isPositive_iff, value_pos_iff]

theorem isZero_iff_value {a : Money} : a.isZero = true ↔ a.value = 0 := by
  rw [isZero_iff, units_eq_zero_iff, value_eq_zero_iff]

theorem clamp_units_nonneg (a : Money) : 0 ≤ a.clamp.units := by
  rw [← value_nonneg_iff]
  simp only [clamp, max]
  split
  · simp
  · next h =>
    rw [lt_iff_value, value_zero] at h
    exact not_lt.mp h

theorem monus_units_nonneg {a b c : Money} (h : a.monus b = .ok c) : 0 ≤ c.units := by
  obtain ⟨d, -, hc⟩ := bind_eq_ok.mp h
  rw [← pure_eq_ok.mp hc]
  exact clamp_units_nonneg d

theorem nonZero_isPositive {a b : Money} (ha : 0 ≤ a.units) (h : a.nonZero = some b) :
    b.isPositive = true := by
  simp only [nonZero] at h
  split at h
  · cases h
  · next hz =>
    have hne : a.units ≠ 0 := fun h0 => hz ((isZero_iff a).mpr h0)
    have hab : a = b := Option.some.inj h
    rw [isPositive_iff, ← hab]
    omega

/-! Two amounts agree when they are the same, or both zero: a sum cannot tell them apart. -/

/-- The same amount, scale included, or two zeros. -/
def Agree (a b : Money) : Prop := a = b ∨ (a.mantissa = 0 ∧ b.mantissa = 0)

instance (a b : Money) : Decidable (Agree a b) :=
  inferInstanceAs (Decidable (a = b ∨ (a.mantissa = 0 ∧ b.mantissa = 0)))

theorem Agree.refl (a : Money) : Agree a a := .inl rfl

theorem Agree.symm {a b : Money} (h : Agree a b) : Agree b a := by
  rcases h with rfl | ⟨ha, hb⟩
  · exact .refl _
  · exact .inr ⟨hb, ha⟩

theorem Agree.trans {a b c : Money} (hab : Agree a b) (hbc : Agree b c) : Agree a c := by
  rcases hab with rfl | ⟨ha, hb⟩
  · exact hbc
  · rcases hbc with rfl | ⟨-, hc⟩
    · exact .inr ⟨ha, hb⟩
    · exact .inr ⟨ha, hc⟩

theorem Agree.value_eq {a b : Money} (h : Agree a b) : a.value = b.value := by
  rcases h with rfl | ⟨ha, hb⟩
  · rfl
  · rw [value_eq_zero_iff.mpr ha, value_eq_zero_iff.mpr hb]

/-- Adding a zero changes nothing but, perhaps, the scale of another zero. -/
theorem agree_of_add_zero {a d c : Money} (hd : d.mantissa = 0) (h : a.add d = .ok c) :
    Agree c a := by
  simp only [add, add?] at h
  split at h
  · next x hx =>
    have hxc : x = c := Except.ok.inj h
    subst hxc
    split_ifs at hx with ha
    · cases hx
      exact .inr ⟨hd, ha⟩
    · cases hx
      exact .refl _
  · cases h

theorem exists_add_zero {d : Money} (hd : d.mantissa = 0) (a : Money) :
    ∃ c, a.add d = .ok c ∧ Agree c a := by
  obtain ⟨c, hc⟩ : ∃ c, a.add d = .ok c := by
    by_cases ha : a.mantissa = 0
    · exact ⟨d, by simp [add, add?, ha]⟩
    · exact ⟨a, by simp [add, add?, ha, hd]⟩
  exact ⟨c, hc, agree_of_add_zero hd hc⟩

theorem Agree.add {a b d c : Money} (hab : Agree a b) (h : a.add d = .ok c) :
    ∃ e, b.add d = .ok e ∧ Agree c e := by
  rcases hab with rfl | ⟨ha, hb⟩
  · exact ⟨c, h, .refl c⟩
  · have hd : ∀ x : Money, x.mantissa = 0 → x.add d = .ok d := by
      intro x hx
      simp [Money.add, add?, hx]
    rw [hd a ha] at h
    exact ⟨d, hd b hb, Except.ok.inj h ▸ .refl d⟩

/-- An amount with others added to it, one after the other. -/
def addAll (a : Money) (ds : List Money) : Except Fault Money := ds.foldlM add a

@[simp] theorem addAll_nil (a : Money) : a.addAll [] = .ok a := rfl

theorem addAll_cons (a d : Money) (ds : List Money) :
    a.addAll (d :: ds) = a.add d >>= fun b => b.addAll ds := rfl

theorem addAll_singleton (a d : Money) : a.addAll [d] = a.add d := by
  rw [addAll_cons]
  cases a.add d <;> rfl

theorem addAll_append {a b c : Money} {ds es : List Money} (hab : a.addAll ds = .ok b)
    (hbc : b.addAll es = .ok c) : a.addAll (ds ++ es) = .ok c := by
  unfold addAll at *
  rw [List.foldlM_append, hab]
  exact hbc

/-- Amounts that agree still agree after the same additions. -/
theorem Agree.addAll {a b c : Money} {ds : List Money} (hab : Agree a b)
    (h : a.addAll ds = .ok c) : ∃ e, b.addAll ds = .ok e ∧ Agree c e := by
  induction ds generalizing a b with
  | nil =>
    rw [addAll_nil] at h
    exact ⟨b, rfl, Except.ok.inj h ▸ hab⟩
  | cons d ds ih =>
    rw [addAll_cons, bind_eq_ok] at h
    obtain ⟨x, hx, hrest⟩ := h
    obtain ⟨y, hy, hxy⟩ := hab.add hx
    obtain ⟨e, he, hce⟩ := ih hxy hrest
    refine ⟨e, ?_, hce⟩
    rw [addAll_cons, hy]
    exact he

end Money
end LoanLedger
