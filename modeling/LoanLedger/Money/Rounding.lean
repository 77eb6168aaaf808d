import LoanLedger.Money.Basic

/-!
Rounding of an amount to the decimal places of a currency. Rounding acts on the magnitude and
never adds decimal places. Moving the point to the left rounds too, once all 28 places are in use.
-/

set_option autoImplicit false
set_option relaxedAutoImplicit false

namespace LoanLedger

/-- What happens to the digits that are cut off. -/
inductive RoundingMode
  | halfEven | halfUp | halfDown | down | up
  deriving DecidableEq, Repr, Inhabited

/-- Whether quotient `q` with remainder `r` of a division by `p` goes to the next magnitude. -/
def RoundingMode.bumps : RoundingMode → (q r p : Nat) → Bool
  | .halfEven, q, r, p => p < 2 * r ∨ (2 * r = p ∧ q % 2 = 1)
  | .halfUp, _, r, p => p ≤ 2 * r
  | .halfDown, _, r, p => p < 2 * r
  | .down, _, _, _ => false
  | .up, _, r, _ => 0 < r

/-- A currency: its code and the decimal places of its smallest unit. -/
structure Currency where
  code : String
  decimalPlaces : UInt32
  deriving DecidableEq, Repr, Inhabited

namespace Money

/-- The magnitude `m / 10 ^ k` rounded by `mode`. -/
def roundedMantissa (mode : RoundingMode) (m k : Nat) : Nat :=
  m / tenTo k + if mode.bumps (m / tenTo k) (m % tenTo k) (tenTo k) then 1 else 0

theorem roundedMantissa_lt (mode : RoundingMode) {m k : Nat} (hm : m < limit) (hk : 0 < k) :
    roundedMantissa mode m k < limit := by
  have h10 : 10 ≤ tenTo k := ten_le_tenTo hk
  have hq : m / tenTo k ≤ m / 10 := Nat.div_le_div_left h10 (by decide)
  unfold roundedMantissa limit at *
  split <;> omega

/-- The amount with at most `places` decimal places. -/
def roundTo (a : Money) (places : Nat) (mode : RoundingMode) : Money :=
  if h : a.scale ≤ places then a
  else
    have places_le : places ≤ 28 := Nat.le_trans (Nat.le_of_lt (Nat.lt_of_not_le h)) a.scale_le
    if a.mantissa = 0 then ⟨a.negative, 0, places, limit_pos, places_le⟩
    else
      let q := roundedMantissa mode a.mantissa (a.scale - places)
      ⟨a.negative && q != 0, q, places,
        roundedMantissa_lt mode a.mantissa_lt (Nat.sub_pos_of_lt (Nat.lt_of_not_le h)), places_le⟩

/-- The amount at the precision of a currency. -/
def round (a : Money) (currency : Currency) (mode : RoundingMode) : Money :=
  a.roundTo currency.decimalPlaces.toNat mode

theorem roundTo_of_scale_le (a : Money) {places : Nat} (mode : RoundingMode)
    (h : a.scale ≤ places) : a.roundTo places mode = a := by
  simp [roundTo, h]

theorem scale_roundTo_le (a : Money) (places : Nat) (mode : RoundingMode) :
    (a.roundTo places mode).scale ≤ places := by
  unfold roundTo
  split
  · assumption
  · split <;> exact Nat.le_refl places

/-- The amount divided by `10 ^ n`: the point moves to the left, and digits that come to stand
after the 28th place are cut off, a half going up. The sign stays, on zero too. -/
def divTenTo (a : Money) (n : Nat) (h : n ≤ 28) : Money where
  negative := a.negative
  mantissa := (a.roundTo (28 - n) .halfUp).mantissa
  scale := (a.roundTo (28 - n) .halfUp).scale + n
  mantissa_lt := (a.roundTo (28 - n) .halfUp).mantissa_lt
  scale_le := by
    have := scale_roundTo_le a (28 - n) .halfUp
    omega

end Money
end LoanLedger
