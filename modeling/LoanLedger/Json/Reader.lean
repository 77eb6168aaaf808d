import LoanLedger.Json.Basic

/-!
Reading a value at the front of a JSON text: no comma after the last item, no leading zeros, no
control characters in strings. Half of a surrogate pair is no character; the reader refuses it, or
puts another character in its place when the text is only to be passed over.
-/

set_option autoImplicit false
set_option relaxedAutoImplicit false

namespace LoanLedger.Json

/-- The text without leading blanks; JSON knows four of them. -/
def skipBlanks (cs : List Char) : List Char :=
  cs.dropWhile fun c => c = ' ' || c = '\n' || c = '\t' || c = '\r'

/-- The value of a hexadecimal digit. -/
def hexDigit? (c : Char) : Option Nat :=
  if '0' ≤ c ∧ c ≤ '9' then some (c.toNat - '0'.toNat)
  else if 'a' ≤ c ∧ c ≤ 'f' then some (c.toNat - 'a'.toNat + 10)
  else if 'A' ≤ c ∧ c ≤ 'F' then some (c.toNat - 'A'.toNat + 10)
  else none

/-- Four hexadecimal digits as a code unit, and the rest. -/
def codeUnit? : List Char → Option (Nat × List Char)
  | a :: b :: c :: d :: r => do
    some (((← hexDigit? a) * 16 + (← hexDigit? b)) * 256
      + (← hexDigit? c) * 16 + (← hexDigit? d), r)
  | _ => none

/-- The character of an escape that begins with `u`: one code unit, or two that form a pair.
`unpaired` is what a unit without its partner is read as, if it may stand at all. -/
def unicodeEscape? (unpaired : Option Char) (cs : List Char) : Option (Char × List Char) := do
  let (hi, r) ← codeUnit? cs
  if 0xdc00 ≤ hi ∧ hi < 0xe000 then unpaired.map fun c => (c, r)
  else if 0xd800 ≤ hi ∧ hi < 0xdc00 then
    match r with
    | '\\' :: 'u' :: s =>
      let (lo, s) ← codeUnit? s
      if 0xdc00 ≤ lo ∧ lo < 0xe000 then
        some (Char.ofNat (0x10000 + (hi - 0xd800) * 0x400 + (lo - 0xdc00)), s)
      else unpaired.map fun c => (c, r)
    | _ => unpaired.map fun c => (c, r)
  else some (Char.ofNat hi, r)

/-- What an escape of one letter stands for. -/
def shortEscape? : Char → Option Char
  | '"' => some '"'
  | '\\' => some '\\'
  | '/' => some '/'
  | 'b' => some '\x08'
  | 'f' => some '\x0c'
  | 'n' => some '\n'
  | 'r' => some '\r'
  | 't' => some '\t'
  | _ => none

/-- The characters of a string up to its closing quote, and what follows. -/
def textBody? (unpaired : Option Char) : Nat → List Char → Option (List Char × List Char)
  | 0, _ => none
  | n + 1, cs =>
    match cs with
    | [] => none
    | '"' :: r => some ([], r)
    | '\\' :: 'u' :: r =>
      match unicodeEscape? unpaired r with
      | none => none
      | some (c, r) => (textBody? unpaired n r).map fun (s, r) => (c :: s, r)
    | '\\' :: e :: r =>
      match shortEscape? e with
      | none => none
      | some c => (textBody? unpaired n r).map fun (s, r) => (c :: s, r)
    | c :: r =>
      if c = '\\' ∨ c.toNat < 0x20 then none
      else (textBody? unpaired n r).map fun (s, r) => (c :: s, r)

/-- The decimal places after a point, if there is one: their digits, and the rest. -/
def fraction? : List Char → Option (List Char × List Char)
  | '.' :: r =>
    let (ds, r) := Text.Digits.split r
    if ds = [] then none else some (ds, r)
  | r => some ([], r)

/-- The power of ten after an `e`, if there is one, and the rest. -/
def power? : List Char → Option (Option Int × List Char)
  | [] => some (none, [])
  | c :: r =>
    if c = 'e' ∨ c = 'E' then
      let (negative, r) := match r with
        | '-' :: r => (true, r)
        | '+' :: r => (false, r)
        | r => (false, r)
      let (ds, r) := Text.Digits.split r
      if ds = [] then none
      else
        let n : Int := Text.Digits.value ds
        some (some (if negative then -n else n), r)
    else some (none, c :: r)

/-- A number without its sign, and the rest. A minus sign before a whole zero makes a `real`. -/
def unsigned? (negative : Bool) (cs : List Char) : Option (Json × List Char) := do
  let (whole, r) := Text.Digits.split cs
  if whole = [] ∨ (whole.head? = some '0' ∧ 1 < whole.length) then none
  let (places, r) ← fraction? r
  let (power, r) ← power? r
  let m := Text.Digits.value (whole ++ places)
  if places = [] ∧ power = none then
    if negative then
      if m = 0 then some (.real true 0 0, r) else some (.int (-(m : Int)), r)
    else some (.int m, r)
  else some (.real negative m (power.getD 0 - places.length), r)

/-- A number, and the rest. -/
def number? : List Char → Option (Json × List Char)
  | '-' :: r => unsigned? true r
  | r => unsigned? false r

/-- The members of an object by their names: of several with one name the last counts. -/
def lastNamed : List (String × Json) → List (String × Json)
  | [] => []
  | (k, v) :: ms =>
    if ms.any fun m => m.1 == k then lastNamed ms else (k, v) :: lastNamed ms

mutual

/-- A value at the front of a text, and the rest. The bound limits depth and length together. -/
def value? (unpaired : Option Char) : Nat → List Char → Option (Json × List Char)
  | 0, _ => none
  | n + 1, cs =>
    match skipBlanks cs with
    | 'n' :: 'u' :: 'l' :: 'l' :: r => some (.null, r)
    | 't' :: 'r' :: 'u' :: 'e' :: r => some (.bool true, r)
    | 'f' :: 'a' :: 'l' :: 's' :: 'e' :: r => some (.bool false, r)
    | '"' :: r => (textBody? unpaired n r).map fun (s, r) => (.str (String.ofList s), r)
    | '[' :: r =>
      match skipBlanks r with
      | ']' :: r => some (.arr [], r)
      | r => (items? unpaired n r).map fun (vs, r) => (.arr vs, r)
    | '\x7b' :: r =>
      match skipBlanks r with
      | '\x7d' :: r => some (.obj [], r)
      | r => (members? unpaired n r).map fun (ms, r) => (.obj (lastNamed ms), r)
    | r => number? r

/-- Items up to the closing bracket. -/
def items? (unpaired : Option Char) : Nat → List Char → Option (List Json × List Char)
  | 0, _ => none
  | n + 1, cs =>
    match value? unpaired n cs with
    | none => none
    | some (v, r) =>
      match skipBlanks r with
      | ',' :: r => (items? unpaired n r).map fun (vs, r) => (v :: vs, r)
      | ']' :: r => some ([v], r)
      | _ => none

/-- Members up to the closing brace. -/
def members? (unpaired : Option Char) :
    Nat → List Char → Option (List (String × Json) × List Char)
  | 0, _ => none
  | n + 1, cs =>
    match skipBlanks cs with
    | '"' :: r =>
      match textBody? unpaired n r with
      | none => none
      | some (k, r) =>
        match skipBlanks r with
        | ':' :: r =>
          match value? unpaired n r with
          | none => none
          | some (v, r) =>
            match skipBlanks r with
            | ',' :: r => (members? unpaired n r).map fun (ms, r) => ((String.ofList k, v) :: ms, r)
            | '\x7d' :: r => some ([(String.ofList k, v)], r)
            | _ => none
        | _ => none
    | _ => none

end

/-- A bound that no text of the given characters uses up: every level of nesting costs two steps
and at least one character. -/
def bound (cs : List Char) : Nat := 2 * cs.length + 2

/-- Pass over a value at the front of a text; gives the rest. -/
def skip? (n : Nat) (cs : List Char) : Option (List Char) :=
  (value? (some '\ufffd') n cs).map Prod.snd

/-- What has been read of a text, when only blanks follow it. -/
def complete? {α : Type} : Option (α × List Char) → Option α
  | some (a, r) => if skipBlanks r = [] then some a else none
  | none => none

end LoanLedger.Json
