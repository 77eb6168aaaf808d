/-!
Powers of ten and of two. A power of ten counts the units of a decimal place, a power of two those
of a binary one; both are positive, and a sum in the exponent is a product of powers.
-/

set_option autoImplicit false
set_option relaxedAutoImplicit false

namespace LoanLedger

/-- One followed by `k` zeros. -/
def tenTo (k : Nat) : Nat := Nat.pow 10 k

/-- The `k`-fold double of one. -/
def twoTo (k : Nat) : Nat := Nat.pow 2 k

@[simp] theorem tenTo_zero : tenTo 0 = 1 := rfl

theorem tenTo_succ (k : Nat) : tenTo (k + 1) = tenTo k * 10 := rfl

theorem tenTo_pos (k : Nat) : 0 < tenTo k := by
  induction k with
  | zero => decide
  | succ k ih =>
    rw [tenTo_succ]
    omega

theorem tenTo_add (j k : Nat) : tenTo (j + k) = tenTo j * tenTo k := by
  induction k with
  | zero => simp
  | succ k ih => rw [← Nat.add_assoc, tenTo_succ, ih, tenTo_succ, Nat.mul_assoc]

theorem ten_le_tenTo {k : Nat} (h : 0 < k) : 10 ≤ tenTo k := by
  obtain ⟨j, rfl⟩ : ∃ j, k = j + 1 := ⟨k - 1, by omega⟩
  have := tenTo_pos j
  rw [tenTo_succ]
  omega

theorem twoTo_succ (k : Nat) : twoTo (k + 1) = twoTo k * 2 := rfl

theorem twoTo_pos (k : Nat) : 0 < twoTo k := by
  induction k with
  | zero => decide
  | succ k ih =>
    rw [twoTo_succ]
    omega

theorem twoTo_le_twoTo {j k : Nat} (h : j ≤ k) : twoTo j ≤ twoTo k :=
  Nat.pow_le_pow_right (by decide) h

end LoanLedger
