import LoanLedger.Fault
import LoanLedger.Power

/-!
Amounts of money: a sign, a mantissa of at most 96 bits and a scale of at most 28 decimal places.
The scale is kept (`10.00` and `10` are different amounts of the same value), while order and
equivalence look at the value alone.
-/

set_option autoImplicit false
set_option relaxedAutoImplicit false

namespace LoanLedger

/-- Mantissas stay below `2 ^ 96`. -/
abbrev Money.limit : Nat := 0x1000000000000000000000000

theorem Money.limit_pos : 0 < Money.limit := by decide

/-- An exact decimal amount, `mantissa / 10 ^ scale` with a sign. -/
structure Money where
  negative : Bool
  mantissa : Nat
  scale : Nat
  mantissa_lt : mantissa < Money.limit
  scale_le : scale ≤ 28
  deriving DecidableEq, Repr

namespace Money

/-- The amount with the given parts, when they fit. -/
def ofParts? (negative : Bool) (mantissa scale : Nat) : Option Money :=
  if h : mantissa < limit ∧ scale ≤ 28 then
    some ⟨negative, mantissa, scale, h.1, h.2⟩
  else none

/-- No money, without decimal places. -/
def zero : Money := ⟨false, 0, 0, limit_pos, Nat.zero_le 28⟩

instance : Inhabited Money := ⟨zero⟩

/-- A whole amount; exact for every integer of at most 96 bits. -/
def ofInt (i : Int) : Money :=
  ⟨decide (i < 0), i.natAbs % limit, 0, Nat.mod_lt _ limit_pos, Nat.zero_le 28⟩

/-- The amount `i / 10 ^ scale`, such as a number of cents. -/
def ofMinor (i : Int) (scale : Nat) : Except Fault Money :=
  if h : scale ≤ 28 then
    .ok ⟨decide (i < 0), i.natAbs % limit, scale, Nat.mod_lt _ limit_pos, h⟩
  else .error (.scaleTooLarge scale)

/-- The signed mantissa. -/
def units (a : Money) : Int :=
  if a.negative then -(a.mantissa : Int) else a.mantissa

/-- The amount of `a`, counted in units of `10 ^ (-s)`; exact when `a.scale ≤ s`. -/
def unitsAt (a : Money) (s : Nat) : Int := a.units * tenTo (s - a.scale)

instance : LE Money :=
  ⟨fun a b => a.unitsAt (Nat.max a.scale b.scale) ≤ b.unitsAt (Nat.max a.scale b.scale)⟩

instance : LT Money :=
  ⟨fun a b => a.unitsAt (Nat.max a.scale b.scale) < b.unitsAt (Nat.max a.scale b.scale)⟩

/-- Two amounts are equivalent when they have the same value. -/
instance : HasEquiv Money :=
  ⟨fun a b => a.unitsAt (Nat.max a.scale b.scale) = b.unitsAt (Nat.max a.scale b.scale)⟩

instance (a b : Money) : Decidable (a ≤ b) :=
  inferInstanceAs (Decidable (a.unitsAt (Nat.max a.scale b.scale) ≤ b.unitsAt (Nat.max a.scale b.scale)))

instance (a b : Money) : Decidable (a < b) :=
  inferInstanceAs (Decidable (a.unitsAt (Nat.max a.scale b.scale) < b.unitsAt (Nat.max a.scale b.scale)))

instance (a b : Money) : Decidable (a ≈ b) :=
  inferInstanceAs (Decidable (a.unitsAt (Nat.max a.scale b.scale) = b.unitsAt (Nat.max a.scale b.scale)))

/-- The order of two values. -/
def compare (a b : Money) : Ordering :=
  if a < b then .lt else if a ≈ b then .eq else .gt

/-- Whether the value is zero, whatever the scale and the sign. -/
def isZero (a : Money) : Bool := a.mantissa == 0

/-- Whether the value is above zero. -/
def isPositive (a : Money) : Bool := 0 < a.units

/-- Whether the value is below zero. -/
def isNegative (a : Money) : Bool := a.units < 0

/-- The same magnitude with the other sign, on zero too. -/
def neg (a : Money) : Money := { a with negative := !a.negative }

/-- The smaller value; of two equal ones the first. -/
def min (a b : Money) : Money := if a ≤ b then a else b

/-- The larger value; of two equal ones the first. -/
def max (a b : Money) : Money := if a < b then b else a

/-- A value below zero becomes zero. -/
def clamp (a : Money) : Money := a.max zero

/-- The amount, unless it is zero. -/
def nonZero (a : Money) : Option Money := if a.isZero then none else some a

/-- A missing amount counts as zero. -/
def orZero (a : Option Money) : Money := a.getD zero

@[simp] theorem units_zero : zero.units = 0 := rfl

@[simp] theorem isPositive_zero : zero.isPositive = false := rfl

theorem units_eq_zero_iff (a : Money) : a.units = 0 ↔ a.mantissa = 0 := by
  unfold units
  split <;> omega

@[simp] theorem units_neg (a : Money) : a.neg.units = -a.units := by
  unfold units neg
  cases a.negative <;> simp

theorem isPositive_iff (a : Money) : a.isPositive = true ↔ 0 < a.units := decide_eq_true_iff

theorem isNegative_iff (a : Money) : a.isNegative = true ↔ a.units < 0 := decide_eq_true_iff

theorem isZero_iff (a : Money) : a.isZero = true ↔ a.units = 0 := by
  rw [units_eq_zero_iff]
  exact beq_iff_eq

theorem nonZero_eq_none_iff (a : Money) : a.nonZero = none ↔ a.units = 0 := by
  rw [← isZero_iff]
  unfold nonZero
  split <;> simp_all

@[simp] theorem orZero_none : orZero none = zero := rfl

@[simp] theorem orZero_some (a : Money) : orZero (some a) = a := rfl

end Money
end LoanLedger
