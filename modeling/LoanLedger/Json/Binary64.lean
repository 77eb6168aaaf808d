import LoanLedger.Power
import LoanLedger.Text.Digits

/-!
Numbers of a JSON text that have a point or a power of ten pass through binary floating point with
53 bits. This module rounds a quotient to that format, reads a decimal into it the way such texts
are read (digits first, then one power of ten), and finds the shortest decimal that reads back.
-/

set_option autoImplicit false
set_option relaxedAutoImplicit false

namespace LoanLedger.Json

/-- A magnitude `mantissa * 2 ^ exponent` with at most 53 bits. -/
structure Binary64 where
  mantissa : Nat
  exponent : Int
  deriving DecidableEq, Repr

namespace Binary64

/-- The value as a quotient. -/
def ratio (x : Binary64) : Nat × Nat :=
  if x.exponent < 0 then (x.mantissa, twoTo x.exponent.natAbs)
  else (x.mantissa * twoTo x.exponent.natAbs, 1)

/-- Quotient and remainder of `num / den` counted in units of `2 ^ e`, with the divisor. -/
def divided (num den : Nat) (e : Int) : Nat × Nat × Nat :=
  let n := if e < 0 then num * twoTo e.natAbs else num
  let d := if e < 0 then den else den * twoTo e.natAbs
  (n / d, n % d, d)

/-- The nearest value to `num / den`, a half going to the even neighbour; none beyond the range. -/
def ofRatio? (num den : Nat) : Option Binary64 :=
  if num = 0 then some ⟨0, -1074⟩
  else
    let low : Int := (num.log2 : Int) - den.log2 - 53
    let e := if (divided num den low).1 < twoTo 53 then low else low + 1
    let e := if e < -1074 then -1074 else e
    let (q, r, d) := divided num den e
    let q := if d < 2 * r ∨ (2 * r = d ∧ q % 2 = 1) then q + 1 else q
    let (q, e) := if q = twoTo 53 then (twoTo 52, e + 1) else (q, e)
    if 971 < e then none else some ⟨q, e⟩

/-- Drop digits off the end of a significand until it has 64 bits; each adds one to the power. -/
def clip : Nat → Nat → Int → Nat × Int
  | 0, m, e => (m, e)
  | n + 1, m, e => if m < twoTo 64 then (m, e) else clip n (m / 10) (e + 1)

/-- Scale by a power of ten, in strides of 308 downwards. -/
def scale? : Nat → Binary64 → Int → Option Binary64
  | 0, x, _ => some x
  | n + 1, x, e => do
    if x.mantissa = 0 then return x
    let (num, den) := x.ratio
    let stride ← ofRatio? (tenTo (Nat.min e.natAbs 308)) 1
    let (sn, sd) := stride.ratio
    if 0 ≤ e then
      if 308 < e then none else ofRatio? (num * sn) (den * sd)
    else
      let y ← ofRatio? (num * sd) (den * sn)
      if -308 ≤ e then return y else scale? n y (e + 308)

/-- The value of `m * 10 ^ e`: the digits are rounded first, and the power of ten is applied to the
rounded value. -/
def ofDecimal? (m : Nat) (e : Int) : Option Binary64 := do
  let (m, e) := clip m.log2 m e
  scale? 4 (← ofRatio? m 1) e

/-- The multiple of `10 ^ k` that is nearest to the value among those that read back as it, of two
equally near ones the larger. The interval of numbers that round to the value contains its ends
when the mantissa is even. -/
def nearest? (x : Binary64) (k : Int) : Option Nat :=
  let e := x.exponent - 2
  let a := (if k < 0 then 1 else tenTo k.natAbs) * (if e < 0 then twoTo e.natAbs else 1)
  let b := (if k < 0 then tenTo k.natAbs else 1) * (if e < 0 then 1 else twoTo e.natAbs)
  let v := 4 * x.mantissa * b
  let lo := (4 * x.mantissa - if x.mantissa = twoTo 52 ∧ -1074 < x.exponent then 1 else 2) * b
  let hi := (4 * x.mantissa + 2) * b
  let even := x.mantissa % 2 = 0
  let inside (d : Nat) : Bool := 0 < d && (if even then lo ≤ d * a && d * a ≤ hi
    else lo < d * a && d * a < hi)
  let d := v / a
  match inside d, inside (d + 1) with
  | true, true => some (if v - d * a < (d + 1) * a - v then d else d + 1)
  | true, false => some d
  | false, true => some (d + 1)
  | false, false => none

/-- The shortest decimal that reads back as the value, as digits and a power of ten; zero is the
single digit `0`. -/
def shortest (x : Binary64) : Nat × Int :=
  if x.mantissa = 0 then (0, 0)
  else
    let powers := (List.range 660).map fun (i : Nat) => (309 : Int) - i
    (powers.findSome? fun k => (x.nearest? k).map fun d => (d, k)).getD (0, 0)

/-- The shortest decimal, written without a power of ten. -/
def chars (x : Binary64) : List Char :=
  let (d, k) := x.shortest
  if k < 0 then
    let ds := Text.Digits.padded (k.natAbs + 1) d
    ds.take (ds.length - k.natAbs) ++ '.' :: ds.drop (ds.length - k.natAbs)
  else Nat.toDigits 10 d ++ List.replicate k.natAbs '0'

example : (ofDecimal? 125 (-2)).map chars = some "1.25".toList := by decide +kernel
example : (ofDecimal? 0 (-1)).map chars = some ['0'] := by decide +kernel
example : (ofDecimal? 1 23).map chars = some "100000000000000000000000".toList := by decide +kernel
example : (ofDecimal? 88435255025089825 (-2)).map chars = some "884352550250898.3".toList := by
  decide +kernel
example : (ofDecimal? 30000000000000004 (-17)).map chars = some "0.30000000000000004".toList := by
  decide +kernel

end Binary64
end LoanLedger.Json
