import LoanLedger.Money.Arithmetic
import LoanLedger.Money.Rounding
import LoanLedger.Text.Digits

/-!
Amounts as text. Writing shows every decimal place, final zeros included. Reading takes an optional
sign, digits with at most one point and separators between them, or such a base with a power of ten.
The first digit that finds no place rounds; a separator there counts as a zero after few digits and
does not count after many.
-/

set_option autoImplicit false
set_option relaxedAutoImplicit false

namespace LoanLedger.Money

/-- The characters of an amount. -/
def chars (a : Money) : List Char :=
  let ds := Text.Digits.padded (a.scale + 1) a.mantissa
  let whole := ds.take (ds.length - a.scale)
  let fraction := ds.drop (ds.length - a.scale)
  (if a.negative then ['-'] else []) ++ whole ++ (if a.scale = 0 then [] else '.' :: fraction)

instance : ToString Money := ⟨fun a => String.ofList a.chars⟩

/-- Why a text is not an amount. -/
inductive TextError
  | empty
  | noDigits
  | twoPoints
  | leadingSeparator
  | unknownCharacter
  | tooManyDigits
  | roundingOverflow
  | badExponent
  | scaleTooLarge (scale : Nat)
  | tooLarge
  deriving DecidableEq, Repr

/-- The sentence shown for a text that is no amount. -/
def TextError.message : TextError → String
  | .empty => "Invalid decimal: empty"
  | .noDigits => "Invalid decimal: no digits found"
  | .twoPoints => "Invalid decimal: two decimal points"
  | .leadingSeparator => "Invalid decimal: must start lead with a number"
  | .unknownCharacter => "Invalid decimal: unknown character"
  | .tooManyDigits => "Invalid decimal: overflow from too many digits"
  | .roundingOverflow => "Invalid decimal: overflow from mantissa after rounding"
  | .badExponent => "Failed to parse"
  | .scaleTooLarge n => (Fault.scaleTooLarge n).message
  | .tooLarge => "Number exceeds maximum value that can be represented."

/-- What has been read of a text: the amount so far, whether the point and a digit have been seen,
and whether a decimal place has been cut off, after which digits no longer count. -/
structure Reading where
  amount : Money
  point : Bool
  digit : Bool
  full : Bool
  deriving Repr

namespace Reading

/-- Nothing read. -/
def start : Reading := ⟨zero, false, false, false⟩

/-- Cut off decimal place `d` and all after it; a half goes up. A carry into a digit too many
gives up one more place. -/
def cut (r : Reading) (d : Nat) : Except TextError Reading :=
  let a := r.amount
  if d < 5 then .ok { r with full := true }
  else if h : a.mantissa + 1 < limit then
    .ok { r with amount := ⟨false, a.mantissa + 1, a.scale, h, a.scale_le⟩, full := true }
  else if a.scale = 0 then .error .roundingOverflow
  else .ok { r with
    amount := ⟨false, (a.mantissa + 1 + 4) / 10, a.scale - 1,
      by have := a.mantissa_lt; omega, by have := a.scale_le; omega⟩
    full := true }

/-- Take one more digit. -/
def push (r : Reading) (d : Nat) : Except TextError Reading :=
  if r.full then .ok r
  else
    match ofParts? false (r.amount.mantissa * 10 + d) (if r.point then r.amount.scale + 1 else 0) with
    | some a => .ok { r with amount := a, digit := true }
    | none => if r.point then cut { r with digit := true } d else .error .tooManyDigits

/-- Digits are few while they are below this bound, which leaves room for one more digit in 64 bits. -/
def fewDigits : Nat := 0xFFFFFFFFFFFFFFFF / 10 - 0xFF

/-- Pass a separator. Behind the last decimal place it is cut off as a zero, if the digits up to the
place before are few; digits after it no longer count then. -/
def separate (r : Reading) : Reading :=
  if r.amount.scale = 28 ∧ r.amount.mantissa / 10 < fewDigits then { r with full := true } else r

/-- Take one more character. -/
def step (r : Reading) (c : Char) : Except TextError Reading :=
  if c.isDigit then r.push (c.toNat - '0'.toNat)
  else if c = '.' then
    if r.point then .error .twoPoints else .ok { r with point := true }
  else if c = '_' then
    if r.digit then .ok r.separate else .error .leadingSeparator
  else .error .unknownCharacter

end Reading

/-- Digits and a point, without a sign. -/
def readDigits (cs : List Char) : Except TextError Money := do
  let r ← cs.foldlM Reading.step Reading.start
  if r.digit then return r.amount else throw .noDigits

/-- An amount without a power of ten. Zero is never negative. -/
def readPlain : List Char → Except TextError Money
  | [] => .error .empty
  | '+' :: cs => readDigits cs
  | '-' :: cs => do
    let a ← readDigits cs
    return { a with negative := a.mantissa != 0 }
  | cs => readDigits cs

/-- A power of ten: digits after an optional plus sign, below `2 ^ 32`. -/
def readPower (cs : List Char) : Except TextError Nat :=
  let ds := match cs with
    | '+' :: r => r
    | r => r
  match Text.Digits.number? ds with
  | some n => if n < 0x100000000 then .ok n else .error .badExponent
  | none => .error .badExponent

/-- The amount without final zeros after the point. -/
def normalize (a : Money) : Money :=
  let rec strip : Nat → Nat → Nat → Nat × Nat
    | 0, m, s => (m, s)
    | n + 1, m, s => if 0 < s ∧ m % 10 = 0 then strip n (m / 10) (s - 1) else (m, s)
  let (m, s) := strip a.scale a.mantissa a.scale
  (ofParts? (a.negative && m != 0) m s).getD a

/-- The amount times `10 ^ n`: the point moves to the right within the decimal places, and beyond
them the mantissa grows. -/
def mulTenTo (a : Money) (n : Nat) : Except TextError Money :=
  if n ≤ a.scale then
    .ok { a with scale := a.scale - n, scale_le := Nat.le_trans (Nat.sub_le a.scale n) a.scale_le }
  else if 28 < n then .error (.scaleTooLarge n)
  else
    match a.mul (ofInt (tenTo n)) with
    | .ok b => .ok b.normalize
    | .error _ => .error .tooLarge

/-- The base times the power of ten. -/
def readScientific (base power : List Char) : Except TextError Money := do
  let a ← readPlain base
  match power with
  | '-' :: ds =>
    let n ← readPower ds
    if h : n ≤ 28 then .ok (a.divTenTo n h) else .error (.scaleTooLarge n)
  | ds => a.mulTenTo (← readPower ds)

/-- The amount that a text stands for. A text that is no plain amount but holds an `e` is read as
a base and a power of ten. -/
def readChars (cs : List Char) : Except TextError Money :=
  match readPlain cs with
  | .ok a => .ok a
  | .error e =>
    match cs.dropWhile fun c => c != 'e' && c != 'E' with
    | [] => .error e
    | _ :: power => readScientific (cs.takeWhile fun c => c != 'e' && c != 'E') power

/-- The amount that a text stands for. -/
def read (s : String) : Except TextError Money := readChars s.toList

example : (read "1.50e1").toOption = ofParts? false 150 1 := by decide +kernel
example : (read "1e3").toOption = ofParts? false 1000 0 := by decide +kernel
example : (read "12.345e-26").toOption = ofParts? false 1235 28 := by decide +kernel
example : (read "0.0000000000000000000000000001_9").toOption = ofParts? false 1 28 := by
  decide +kernel
example : (read "0.1234567890123456789012345678_9").toOption =
    ofParts? false 1234567890123456789012345679 28 := by decide +kernel
example : (read "-0.4e-28").toOption = ofParts? true 0 28 := by decide +kernel

end LoanLedger.Money
