import LoanLedger.Proofs.Money.Value

/-!
Exact arithmetic. Amounts of at most ten decimal places whose results stay below `room` are added
and subtracted without rounding.
-/

set_option autoImplicit false
set_option relaxedAutoImplicit false

namespace LoanLedger.Money

/-- Amounts of at most ten decimal places. -/
def Fine (a : Money) : Prop := a.scale ≤ 10

/-- With ten decimal places there is room for this much. -/
def room : ℚ := 7 * 10 ^ 18

theorem fine_zero : zero.Fine := Nat.zero_le 10

theorem fine_orZero {o : Option Money} (h : ∀ a, o = some a → a.Fine) : (orZero o).Fine := by
  cases o with
  | none => exact fine_zero
  | some a => exact h a rfl

private theorem natAbs_lt_limit {t : Int} {s : Nat} {v : ℚ} (ht : (t : ℚ) = v * 10 ^ s)
    (hs : s ≤ 10) (hv : |v| < room) : t.natAbs < limit := by
  have hpow : (10 : ℚ) ^ s ≤ 10 ^ 10 := pow_le_pow_right₀ (by norm_num) hs
  have hpos : (0 : ℚ) < 10 ^ s := by positivity
  have habs : |(t : ℚ)| < limit := by
    calc |(t : ℚ)| = |v| * 10 ^ s := by rw [ht, abs_mul, abs_of_pos hpos]
      _ < room * 10 ^ s := mul_lt_mul_of_pos_right hv hpos
      _ ≤ room * 10 ^ 10 := mul_le_mul_of_nonneg_left hpow (by norm_num [room])
      _ ≤ limit := by norm_num [room, limit]
  have hcast : ((t.natAbs : Nat) : ℚ) = |(t : ℚ)| := by rw [Nat.cast_natAbs, Int.cast_abs]
  rw [← hcast] at habs
  exact_mod_cast habs

/-- A sum of fine amounts other than zero is exact, at the finer of their scales. -/
theorem add_eq_of_room {a b : Money} (ha : a.Fine) (hb : b.Fine) (ha0 : a.mantissa ≠ 0)
    (hb0 : b.mantissa ≠ 0) (h : |a.value + b.value| < room) :
    ∃ c, a.add b = .ok c ∧ c.scale = Nat.max a.scale b.scale ∧ c.value = a.value + b.value := by
  obtain ⟨s, hs⟩ : ∃ s, s = Nat.max a.scale b.scale := ⟨_, rfl⟩
  obtain ⟨t, ht⟩ : ∃ t, t = a.unitsAt s + b.unitsAt s := ⟨_, rfl⟩
  have has : a.scale ≤ s := hs ▸ Nat.le_max_left _ _
  have hbs : b.scale ≤ s := hs ▸ Nat.le_max_right _ _
  have hs10 : s ≤ 10 := hs ▸ Nat.max_le.mpr ⟨ha, hb⟩
  have hvalue : (t : ℚ) = (a.value + b.value) * 10 ^ s := by
    rw [ht]
    push_cast
    rw [unitsAt_eq_value a has, unitsAt_eq_value b hbs, add_mul]
  have hlt : t.natAbs < limit := natAbs_lt_limit hvalue hs10 h
  have hs28 : s ≤ 28 := by omega
  have hadd : a.add b = .ok ⟨t < 0, t.natAbs, s, hlt, hs28⟩ := by
    unfold add add?
    rw [if_neg ha0, if_neg hb0]
    dsimp only
    rw [← hs, ← ht, fit?_of_lt _ hlt hs28, ofParts?, dif_pos ⟨hlt, hs28⟩]
  refine ⟨_, hadd, hs, ?_⟩
  have hunits : (if decide (t < 0) then -(t.natAbs : Int) else t.natAbs) = t := by
    by_cases hneg : t < 0
    · rw [decide_eq_true hneg, if_pos rfl]
      omega
    · rw [decide_eq_false hneg, if_neg Bool.false_ne_true]
      omega
  have hne : (10 : ℚ) ^ s ≠ 0 := by positivity
  show (((if decide (t < 0) then -(t.natAbs : Int) else t.natAbs) : Int) : ℚ) / 10 ^ s = _
  rw [hunits, hvalue, mul_div_cancel_right₀ _ hne]

theorem add_exact {a b : Money} (ha : a.Fine) (hb : b.Fine) (h : |a.value + b.value| < room) :
    ∃ c, a.add b = .ok c ∧ c.Fine ∧ c.value = a.value + b.value := by
  by_cases ha0 : a.mantissa = 0
  · refine ⟨b, by simp [add, add?, ha0], hb, ?_⟩
    rw [value_eq_zero_iff.mpr ha0, zero_add]
  · by_cases hb0 : b.mantissa = 0
    · refine ⟨a, by simp [add, add?, ha0, hb0], ha, ?_⟩
      rw [value_eq_zero_iff.mpr hb0, add_zero]
    · obtain ⟨c, hc, hscale, hvalue⟩ := add_eq_of_room ha hb ha0 hb0 h
      exact ⟨c, hc, hscale.trans_le (Nat.max_le.mpr ⟨ha, hb⟩), hvalue⟩

@[simp] theorem value_neg (a : Money) : a.neg.value = -a.value := by
  simp only [value]
  rw [units_neg]
  push_cast
  exact neg_div _ _

/-- A difference of fine amounts is exact. -/
theorem sub_exact {a b : Money} (ha : a.Fine) (hb : b.Fine) (h : |a.value - b.value| < room) :
    ∃ c, a.sub b = .ok c ∧ c.Fine ∧ c.value = a.value - b.value := by
  simp only [sub]
  by_cases hb0 : b.mantissa = 0
  · rw [if_pos hb0, value_eq_zero_iff.mpr hb0, sub_zero]
    by_cases ha0 : a.mantissa = 0
    · refine ⟨b, by rw [if_pos ha0], hb, ?_⟩
      rw [value_eq_zero_iff.mpr hb0, value_eq_zero_iff.mpr ha0]
    · exact ⟨a, by rw [if_neg ha0], ha, rfl⟩
  · rw [if_neg hb0]
    have hneg : b.neg.Fine := hb
    have hsum : |a.value + b.neg.value| < room := by rwa [value_neg, ← sub_eq_add_neg]
    obtain ⟨c, hc, hfine, hvalue⟩ := add_exact ha hneg hsum
    refine ⟨c, ?_, hfine, by rw [hvalue, value_neg, sub_eq_add_neg]⟩
    simp only [add] at hc
    cases hd : add? a b.neg with
    | none =>
      rw [hd] at hc
      cases hc
    | some d =>
      rw [hd] at hc
      exact hc

theorem value_clamp (a : Money) : a.clamp.value = Max.max a.value 0 := by
  simp only [clamp, Money.max]
  split
  · next h =>
    rw [lt_iff_value, value_zero] at h
    rw [value_zero, max_eq_right h.le]
  · next h =>
    rw [lt_iff_value, value_zero, not_lt] at h
    rw [max_eq_left h]

theorem fine_clamp {a : Money} (ha : a.Fine) : a.clamp.Fine := by
  simp only [clamp, Money.max]
  split
  · exact fine_zero
  · exact ha

theorem monus_exact {a b : Money} (ha : a.Fine) (hb : b.Fine) (h : |a.value - b.value| < room) :
    ∃ c, a.monus b = .ok c ∧ c.Fine ∧ c.value = Max.max (a.value - b.value) 0 := by
  obtain ⟨d, hd, hfine, hvalue⟩ := sub_exact ha hb h
  refine ⟨d.clamp, ?_, fine_clamp hfine, by rw [value_clamp, hvalue]⟩
  rw [monus, hd]
  rfl

/-- What is left of a fine amount when three others are taken away together. -/
theorem exists_monus_sum {a b c d : Money} (ha : a.Fine) (hb : b.Fine) (hc : c.Fine) (hd : d.Fine)
    (h : |a.value| + |b.value| + |c.value| + |d.value| < room) :
    ∃ two three o, b.add c = .ok two ∧ two.add d = .ok three ∧ a.monus three = .ok o ∧ o.Fine ∧
      o.value = Max.max (a.value - (b.value + c.value + d.value)) 0 := by
  have haNonneg := abs_nonneg a.value
  have hdNonneg := abs_nonneg d.value
  have htwoSize := abs_add_le b.value c.value
  have hthreeSize := abs_add_le (b.value + c.value) d.value
  have hleftSize := abs_sub a.value (b.value + c.value + d.value)
  obtain ⟨two, htwo, htwoFine, htwoValue⟩ := add_exact hb hc (by linarith)
  obtain ⟨three, hthree, hthreeFine, hthreeValue⟩ :=
    add_exact htwoFine hd (by rw [htwoValue]; linarith)
  rw [htwoValue] at hthreeValue
  obtain ⟨o, ho, hoFine, hoValue⟩ := monus_exact ha hthreeFine (by rw [hthreeValue]; linarith)
  exact ⟨two, three, o, htwo, hthree, ho, hoFine, hthreeValue ▸ hoValue⟩

theorem add_value {a b c : Money} (h : a.add b = .ok c) (ha : a.Fine) (hb : b.Fine)
    (hlt : |a.value + b.value| < room) : c.Fine ∧ c.value = a.value + b.value := by
  obtain ⟨d, hd, hfine, hvalue⟩ := add_exact ha hb hlt
  rw [hd] at h
  exact Except.ok.inj h ▸ ⟨hfine, hvalue⟩

theorem sub_value {a b c : Money} (h : a.sub b = .ok c) (ha : a.Fine) (hb : b.Fine)
    (hlt : |a.value - b.value| < room) : c.Fine ∧ c.value = a.value - b.value := by
  obtain ⟨d, hd, hfine, hvalue⟩ := sub_exact ha hb hlt
  rw [hd] at h
  exact Except.ok.inj h ▸ ⟨hfine, hvalue⟩

theorem monus_value {a b c : Money} (h : a.monus b = .ok c) (ha : a.Fine) (hb : b.Fine)
    (hlt : |a.value - b.value| < room) :
    c.Fine ∧ c.value = Max.max (a.value - b.value) 0 := by
  obtain ⟨d, hd, hfine, hvalue⟩ := monus_exact ha hb hlt
  rw [hd] at h
  exact Except.ok.inj h ▸ ⟨hfine, hvalue⟩

theorem value_orZero_nonZero (a : Money) : (orZero a.nonZero).value = a.value := by
  cases h : a.nonZero with
  | none =>
    have hzero := (units_eq_zero_iff a).mp ((nonZero_eq_none_iff a).mp h)
    rw [orZero_none, value_zero, value_eq_zero_iff.mpr hzero]
  | some b =>
    simp only [nonZero] at h
    split at h
    · cases h
    · rw [orZero_some, Option.some.inj h]

theorem fine_nonZero {a b : Money} (ha : a.Fine) (h : a.nonZero = some b) : b.Fine := by
  simp only [nonZero] at h
  split at h
  · cases h
  · exact Option.some.inj h ▸ ha

end LoanLedger.Money
