import LoanLedger.Money.Basic

/-!
Arithmetic on amounts. A sum or product that needs more digits than fit loses its last decimal
places in one rounding to the even neighbour; one whose whole part does not fit is a fault. A
quotient is developed digit by digit until it is exact or no digit more fits.
-/

set_option autoImplicit false
set_option relaxedAutoImplicit false

namespace LoanLedger.Money

/-- `m / 10 ^ k`, a half going to the even neighbour. -/
def roundEven (m k : Nat) : Nat :=
  let q := m / tenTo k
  let r := m % tenTo k
  if tenTo k < 2 * r ∨ (2 * r = tenTo k ∧ q % 2 = 1) then q + 1 else q

/-- The fewest decimal places to drop from `m / 10 ^ s` so that the rest fits. -/
def surplus? (m s : Nat) : Option Nat :=
  (List.range' (s - 28) (s + 1 - (s - 28))).find? fun k => m / tenTo k < limit

/-- The amount nearest to `m / 10 ^ s`, if its whole part fits. When rounding carries into a digit
too many, one place more is dropped. -/
def fit? (negative : Bool) (m s : Nat) : Option Money :=
  match surplus? m s with
  | none => none
  | some k =>
    let q := roundEven m k
    if q < limit then ofParts? negative q (s - k)
    else if k < s then ofParts? negative (roundEven q 1) (s - k - 1)
    else none

@[simp] theorem roundEven_zero (m : Nat) : roundEven m 0 = m := by
  simp [roundEven, Nat.mod_one]

theorem surplus?_of_lt {m s : Nat} (hm : m < limit) (hs : s ≤ 28) : surplus? m s = some 0 := by
  have hstart : s - 28 = 0 := Nat.sub_eq_zero_of_le hs
  unfold surplus?
  rw [hstart, Nat.sub_zero, List.range'_succ, List.find?_cons_of_pos]
  simpa using hm

/-- What fits is kept exactly. -/
theorem fit?_of_lt (negative : Bool) {m s : Nat} (hm : m < limit) (hs : s ≤ 28) :
    fit? negative m s = ofParts? negative m s := by
  unfold fit?
  rw [surplus?_of_lt hm hs]
  simp [hm]

/-- The sum; a zero on one side leaves the other side as it is, with its scale. -/
def add? (a b : Money) : Option Money :=
  if a.mantissa = 0 then some b
  else if b.mantissa = 0 then some a
  else
    let s := Nat.max a.scale b.scale
    let t := a.unitsAt s + b.unitsAt s
    fit? (t < 0) t.natAbs s

/-- The sum of two amounts. -/
def add (a b : Money) : Except Fault Money :=
  match add? a b with
  | some c => .ok c
  | none => .error .additionOverflow

/-- The difference; taking away zero leaves the amount as it is, unless that is zero too. -/
def sub (a b : Money) : Except Fault Money :=
  if b.mantissa = 0 then .ok (if a.mantissa = 0 then b else a)
  else
    match add? a b.neg with
    | some c => .ok c
    | none => .error .subtractionOverflow

/-- The difference, and zero where it would be negative. -/
def monus (a b : Money) : Except Fault Money := return (← a.sub b).clamp

/-- The sum of a list of amounts, from the left. -/
def sum (as : List Money) : Except Fault Money := as.foldlM add zero

/-- The product. A zero factor gives a plain zero, and so does a product of two short mantissas
with more than 47 decimal places. -/
def mul (a b : Money) : Except Fault Money :=
  let short := a.mantissa < 0x100000000 ∧ b.mantissa < 0x100000000
  let s := a.scale + b.scale
  if a.mantissa = 0 ∨ b.mantissa = 0 then .ok zero
  else if short ∧ 47 < s then .ok zero
  else
    match fit? (a.negative != b.negative) (a.mantissa * b.mantissa) s with
    | none => .error .multiplicationOverflow
    | some c => .ok (if c.mantissa = 0 ∧ short then { c with negative := false } else c)

/-- A quotient under development: digits, decimal places (negative while whole digits are still
missing) and whether it was ever inexact. -/
structure Quotient where
  digits : Nat
  places : Int
  inexact : Bool
  deriving Repr

/-- Drop the last digit of a quotient that is one digit too long. `more` says that something
beyond it was already cut off, so that a half goes up. -/
def Quotient.shorten? (q : Quotient) (more : Bool) : Option Quotient :=
  if q.places ≤ 0 then none
  else
    let d := q.digits / 10
    let r := q.digits % 10
    some { q with
      digits := if 5 < r ∨ (r = 5 ∧ (more || d % 2 == 1)) then d + 1 else d
      places := q.places - 1 }

/-- Whether a divisor has more than 64 binary digits. A quotient that outgrows its digits against
such a divisor goes up at a half, whether or not the division is exact. -/
def isWide (b : Nat) : Bool := 0x10000000000000000 ≤ b

/-- How many digits the next step adds, at most nine at a time: as many as are missing from the
whole part once the division is exact, else as many as fit. -/
def Quotient.room (q : Quotient) (exact : Bool) : Nat :=
  if exact then Nat.min 9 (-q.places).toNat
  else
    let most := Nat.min 9 (28 - q.places).toNat
    ((List.range (most + 1)).reverse.find? fun p => q.digits * tenTo p < limit).getD 0

/-- Long division by `b` from the quotient `q` with remainder `r`. Every step adds at least one
decimal place, so that a bound of 57 steps is never met. -/
def Quotient.develop (b : Nat) : Nat → Quotient → Nat → Option Quotient
  | 0, _, _ => none
  | steps + 1, q, r =>
    if r = 0 ∧ 0 ≤ q.places then some q
    else
      let p : Nat := q.room (r == 0)
      let q : Quotient := { q with inexact := q.inexact || r != 0 }
      if r ≠ 0 ∧ q.places + p < 0 ∧ p < 9 then none
      else if p = 0 then
        -- no room is left: the remainder decides the last digit
        if b < 2 * r ∨ (2 * r = b ∧ q.digits % 2 = 1) then
          let q : Quotient := { q with digits := q.digits + 1 }
          if q.digits < limit then some q else q.shorten? true
        else some q
      else
        let lifted := q.digits * tenTo p
        if limit ≤ lifted then none
        else
          let t := r * tenTo p
          let q : Quotient := { q with digits := lifted + t / b, places := q.places + p }
          if q.digits < limit then develop b steps q (t % b)
          else q.shorten? (t % b != 0 || isWide b)

/-- Take `k` zeros off the end when `k` places and `k` final zeros are there. -/
def dropZeros (k : Nat) : Nat × Nat → Nat × Nat
  | (q, s) => if k ≤ s ∧ q % tenTo k = 0 then (q / tenTo k, s - k) else (q, s)

/-- Take eight zeros at a time off a mantissa whose low 32 bits are zero. -/
def dropEights : Nat → Nat × Nat → Nat × Nat
  | 0, x => x
  | n + 1, (q, s) =>
    if q % 0x100000000 = 0 ∧ 8 ≤ s ∧ q % tenTo 8 = 0 then dropEights n (q / tenTo 8, s - 8) else (q, s)

/-- Shorten an inexact quotient by the zeros it ends in, in strides of eight, four, two and one:
not every final zero need go (`1 / 2` is `0.50`). -/
def stripInexact (x : Nat × Nat) : Nat × Nat :=
  dropZeros 1 (dropZeros 2 (dropZeros 4 (dropEights 3 x)))

/-- The quotient of two amounts. -/
def div (a b : Money) : Except Fault Money :=
  if b.mantissa = 0 then .error .divisionByZero
  else if a.mantissa = 0 then .ok zero
  else
    let start : Quotient :=
      ⟨a.mantissa / b.mantissa, (a.scale : Int) - (b.scale : Int), false⟩
    match Quotient.develop b.mantissa 57 start (a.mantissa % b.mantissa) with
    | none => .error .divisionOverflow
    | some q =>
      let x := (q.digits, q.places.toNat)
      let (m, s) := if q.inexact then stripInexact x else x
      match ofParts? ((a.negative != b.negative) && m != 0) m s with
      | some c => .ok c
      | none => .error .divisionOverflow

/-- The share of `part` days out of `whole`. The whole amount once the part reaches the whole or
when there are no days at all, and nothing before the first day. -/
def prorate (a : Money) (part whole : Int) : Except Fault Money :=
  if whole ≤ 0 ∨ whole ≤ part then .ok a
  else if part ≤ 0 then .ok zero
  else do (← a.div (ofInt whole)).mul (ofInt part)

theorem prorate_of_nonpos (a : Money) {part whole : Int} (hp : part ≤ 0) (hw : 0 < whole) :
    a.prorate part whole = .ok zero := by
  unfold prorate
  rw [if_neg (by omega), if_pos hp]

example : ((ofInt 1).div (ofInt 2)).toOption = ofParts? false 50 2 := by decide
example : ((ofInt 1).div (ofInt 8)).toOption = ofParts? false 125 3 := by decide

end LoanLedger.Money
