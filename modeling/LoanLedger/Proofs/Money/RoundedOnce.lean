import LoanLedger.Proofs.Money.Rounding

/-!
Rounding of rational numbers, as the modes describe it. It is steady: a number that is nearer to
another than that one is to the next edge, where the mode turns from one result to the next, is
rounded as it. An amount is rounded as the number that it stands for.
-/

set_option autoImplicit false
set_option relaxedAutoImplicit false

namespace LoanLedger

namespace RoundingMode

/-- Whether a number with whole part `q` and fraction `f` goes to the next whole number. -/
def Lifts (mode : RoundingMode) (q : ℤ) (f : ℚ) : Prop :=
  match mode with
  | .halfEven => 1 / 2 < f ∨ (f = 1 / 2 ∧ q % 2 = 1)
  | .halfUp => 1 / 2 ≤ f
  | .halfDown => 1 / 2 < f
  | .down => False
  | .up => 0 < f

instance (mode : RoundingMode) (q : ℤ) (f : ℚ) : Decidable (mode.Lifts q f) :=
  match mode with
  | .halfEven => inferInstanceAs (Decidable (1 / 2 < f ∨ (f = 1 / 2 ∧ q % 2 = 1)))
  | .halfUp => inferInstanceAs (Decidable (1 / 2 ≤ f))
  | .halfDown => inferInstanceAs (Decidable (1 / 2 < f))
  | .down => inferInstanceAs (Decidable False)
  | .up => inferInstanceAs (Decidable (0 < f))

/-- The whole number that a mode takes a number to. -/
def whole (mode : RoundingMode) (x : ℚ) : ℤ :=
  ⌊x⌋ + if mode.Lifts ⌊x⌋ (Int.fract x) then 1 else 0

/-- A number, rounded once to decimal places. -/
def rounded (mode : RoundingMode) (places : Nat) (x : ℚ) : ℚ :=
  mode.whole (x * 10 ^ places) / 10 ^ places

/-- How far below a whole number the mode begins to round up to it. -/
def lead : RoundingMode → ℚ
  | .halfEven | .halfUp | .halfDown => 1 / 2
  | .down => 0
  | .up => 1

/-- Whether a number is where the mode turns from one whole number to the next. -/
def OnEdge (mode : RoundingMode) (x : ℚ) : Prop := ∃ z : ℤ, x + mode.lead = z

variable {mode : RoundingMode} {x y : ℚ}

theorem whole_le (mode : RoundingMode) (x : ℚ) : mode.whole x ≤ x + mode.lead := by
  have hfloor := Int.floor_add_fract x
  have hfract := Int.fract_nonneg x
  unfold whole
  split
  · next hlifts =>
    push_cast
    cases mode <;> simp only [Lifts, lead] at hlifts ⊢
    · rcases hlifts with hlifts | hlifts <;> linarith
    · linarith
    · linarith
    · linarith
  · push_cast
    cases mode <;> simp only [lead] <;> linarith

theorem le_whole (mode : RoundingMode) (x : ℚ) : x + mode.lead ≤ mode.whole x + 1 := by
  have hfloor := Int.floor_add_fract x
  have hfract := Int.fract_lt_one x
  unfold whole
  split
  · push_cast
    cases mode <;> simp only [lead] <;> linarith
  · next hstays =>
    push_cast
    cases mode <;> simp only [Lifts, lead, not_or, not_lt, not_le] at hstays ⊢
    · linarith [hstays.1]
    · linarith
    · linarith
    · linarith
    · linarith

/-- Near numbers are rounded to the same whole number, or to neighbours. -/
theorem abs_whole_sub_le (h : |y - x| < 1) : |mode.whole y - mode.whole x| ≤ 1 := by
  have hx := mode.whole_le x
  have hx' := mode.le_whole x
  have hy := mode.whole_le y
  have hy' := mode.le_whole y
  obtain ⟨hlow, hhigh⟩ := abs_lt.mp h
  have hup : mode.whole y < mode.whole x + 2 := by
    have : (mode.whole y : ℚ) < mode.whole x + 2 := by linarith
    exact_mod_cast this
  have hdown : mode.whole x < mode.whole y + 2 := by
    have : (mode.whole x : ℚ) < mode.whole y + 2 := by linarith
    exact_mod_cast this
  exact abs_le.mpr ⟨by omega, by omega⟩

/-- A number that no edge separates from another is rounded as it. -/
theorem whole_eq_of_near (h : ∀ z : ℤ, |y - x| < |x + mode.lead - z|) :
    mode.whole y = mode.whole x := by
  have hx := mode.whole_le x
  have hx' := mode.le_whole x
  have hy := mode.whole_le y
  have hy' := mode.le_whole y
  obtain ⟨hlow, hhigh⟩ := abs_le.mp (le_refl |y - x|)
  rcases lt_trichotomy (mode.whole y) (mode.whole x) with hlt | heq | hgt
  · have hnext : (mode.whole y : ℚ) + 1 ≤ mode.whole x := by exact_mod_cast hlt
    have hedge := h (mode.whole x)
    rw [abs_of_nonneg (a := x + mode.lead - mode.whole x) (by linarith)] at hedge
    linarith
  · exact heq
  · have hnext : (mode.whole x : ℚ) + 1 ≤ mode.whole y := by exact_mod_cast hgt
    have hedge := h (mode.whole x + 1)
    push_cast at hedge
    rw [abs_of_nonpos (a := x + mode.lead - (mode.whole x + 1)) (by linarith)] at hedge
    linarith

theorem exists_two_mul_lead (mode : RoundingMode) : ∃ k : ℤ, 2 * mode.lead = k := by
  cases mode
  · exact ⟨1, by norm_num [lead]⟩
  · exact ⟨1, by norm_num [lead]⟩
  · exact ⟨1, by norm_num [lead]⟩
  · exact ⟨0, by norm_num [lead]⟩
  · exact ⟨2, by norm_num [lead]⟩

/-- A fraction that is not on an edge keeps a distance from the edges that its denominator tells. -/
theorem edge_distance {d : Nat} {n : ℤ} (hd : 0 < d) (hx : x * d = n) (hedge : ¬mode.OnEdge x)
    (z : ℤ) : 1 / (2 * d) ≤ |x + mode.lead - z| := by
  have hdpos : (0 : ℚ) < d := by exact_mod_cast hd
  obtain ⟨twice, htwice⟩ := mode.exists_two_mul_lead
  have hcount : (x + mode.lead - z) * (2 * d) = ((2 * n + d * twice - 2 * d * z : ℤ) : ℚ) := by
    push_cast
    rw [← hx, ← htwice]
    ring
  have hne : 2 * n + d * twice - 2 * d * z ≠ 0 := by
    intro hzero
    rw [hzero, Int.cast_zero, mul_eq_zero] at hcount
    have hon := hcount.resolve_right (by positivity)
    exact hedge ⟨z, by linarith⟩
  have hone : (1 : ℚ) ≤ |((2 * n + d * twice - 2 * d * z : ℤ) : ℚ)| := by
    exact_mod_cast Int.one_le_abs hne
  rw [← hcount, abs_mul, abs_of_pos (a := (2 : ℚ) * d) (by positivity)] at hone
  rwa [div_le_iff₀ (by positivity)]

/-- The program decides on quotient and remainder what the mode says of whole part and fraction. -/
theorem bumps_iff (mode : RoundingMode) (q r : Nat) {p : Nat} (hp : 0 < p) :
    mode.bumps q r p = true ↔ mode.Lifts q (r / p) := by
  have hppos : (0 : ℚ) < p := by exact_mod_cast hp
  have habove : p < 2 * r ↔ (1 / 2 : ℚ) < r / p := by
    rw [div_lt_div_iff₀ (by norm_num) hppos, one_mul, mul_comm (r : ℚ)]
    exact_mod_cast Iff.rfl
  have hreach : p ≤ 2 * r ↔ (1 / 2 : ℚ) ≤ r / p := by
    rw [div_le_div_iff₀ (by norm_num) hppos, one_mul, mul_comm (r : ℚ)]
    exact_mod_cast Iff.rfl
  have htie : 2 * r = p ↔ (r / p : ℚ) = 1 / 2 := by
    rw [div_eq_div_iff hppos.ne' (by norm_num), one_mul, mul_comm (r : ℚ)]
    exact_mod_cast Iff.rfl
  have hpos : 0 < r ↔ (0 : ℚ) < r / p := by
    rw [div_pos_iff_of_pos_right hppos, Nat.cast_pos]
  have hodd : q % 2 = 1 ↔ (q : ℤ) % 2 = 1 := by omega
  cases mode <;> simp only [bumps, Lifts, decide_eq_true_eq, Bool.false_eq_true, habove, hreach,
    htie, hpos, hodd]

end RoundingMode

namespace Money

theorem roundedMantissa_eq_whole (mode : RoundingMode) (m k : Nat) :
    (roundedMantissa mode m k : ℤ) = mode.whole (m / 10 ^ k) := by
  have hfloor : ⌊(m / 10 ^ k : ℚ)⌋ = ((m / tenTo k : Nat) : ℤ) := by
    rw [tenTo_eq_pow]
    have := Rat.floor_natCast_div_natCast m (10 ^ k)
    push_cast at this ⊢
    exact this
  have hfract : Int.fract (m / 10 ^ k : ℚ) = ((m % tenTo k : Nat) : ℚ) / (tenTo k : Nat) := by
    rw [tenTo_eq_pow]
    have := Int.fract_div_natCast_eq_div_natCast_mod (k := ℚ) (m := m) (n := 10 ^ k)
    push_cast at this ⊢
    exact this
  rw [roundedMantissa, RoundingMode.whole, hfloor, hfract]
  simp only [RoundingMode.bumps_iff mode _ _ (tenTo_pos k), Nat.cast_add, Nat.cast_ite,
    Nat.cast_one, Nat.cast_zero]

theorem value_roundTo {a : Money} (ha : 0 ≤ a.value) {places : Nat} (mode : RoundingMode)
    (hp : places ≤ 28) : (a.roundTo places mode).value = mode.rounded places a.value := by
  have hsplit : (10 : ℚ) ^ 28 = 10 ^ places * 10 ^ (28 - places) := by
    rw [← pow_add, Nat.add_sub_of_le hp]
  have hmantissa : ((a.mantissa * tenTo (28 - a.scale) : Nat) : ℚ) / 10 ^ (28 - places) =
      a.value * 10 ^ places := by
    rw [mantissa_mul_tenTo ha, hsplit]
    field_simp
  have hround := abs_value_roundTo a mode hp
  rw [abs_of_nonneg (roundTo_nonneg ha places mode), ← Int.cast_natCast,
    roundedMantissa_eq_whole, hmantissa] at hround
  rw [RoundingMode.rounded, ← hround, mul_div_cancel_right₀ _ (by positivity)]

end Money
end LoanLedger
