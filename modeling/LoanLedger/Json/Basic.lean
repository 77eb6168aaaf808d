import LoanLedger.Text.Digits

/-!
JSON values and their text. Whole numbers are kept apart from numbers written with a point or a
power of ten, and the members of an object keep their order. Only whole numbers are ever written.
-/

set_option autoImplicit false
set_option relaxedAutoImplicit false

namespace LoanLedger

/-- A JSON value. `real` is `significand * 10 ^ exponent` with a sign. -/
inductive Json
  | null
  | bool (b : Bool)
  | int (n : Int)
  | real (negative : Bool) (significand : Nat) (exponent : Int)
  | str (s : String)
  | arr (items : List Json)
  | obj (members : List (String × Json))
  deriving Repr, Inhabited

namespace Json

/-- The four hexadecimal digits of a code unit. -/
def hex4 (n : Nat) : List Char :=
  [n / 4096 % 16, n / 256 % 16, n / 16 % 16, n % 16].map Nat.digitChar

/-- How one character is written inside a string. -/
def escape (c : Char) : List Char :=
  if c = '"' then ['\\', '"']
  else if c = '\\' then ['\\', '\\']
  else if c.toNat < 0x20 then '\\' :: 'u' :: hex4 c.toNat
  else [c]

/-- A string with its quotes. -/
def quote (s : String) : List Char := '"' :: (s.toList.flatMap escape ++ ['"'])

mutual

/-- The text of a value, without blanks. -/
def chars : Json → List Char
  | .null => ['n', 'u', 'l', 'l']
  | .bool true => ['t', 'r', 'u', 'e']
  | .bool false => ['f', 'a', 'l', 's', 'e']
  | .int n => Text.Digits.signed n
  | .real negative m e =>
    (if negative then ['-'] else []) ++ Nat.toDigits 10 m ++ 'e' :: Text.Digits.signed e
  | .str s => quote s
  | .arr [] => ['[', ']']
  | .arr (v :: vs) => '[' :: (chars v ++ itemChars vs ++ [']'])
  | .obj [] => ['\x7b', '\x7d']
  | .obj ((k, v) :: ms) => '\x7b' :: (quote k ++ ':' :: chars v ++ memberChars ms ++ ['\x7d'])

/-- Further items, each after a comma. -/
def itemChars : List Json → List Char
  | [] => []
  | v :: vs => ',' :: (chars v ++ itemChars vs)

/-- Further members, each after a comma. -/
def memberChars : List (String × Json) → List Char
  | [] => []
  | (k, v) :: ms => ',' :: (quote k ++ ':' :: chars v ++ memberChars ms)

end

instance : ToString Json := ⟨fun j => String.ofList j.chars⟩

/-- The member of an object with the given name. -/
def member? (name : String) : Json → Option Json
  | .obj ms => ms.lookup name
  | _ => none

end Json
end LoanLedger
