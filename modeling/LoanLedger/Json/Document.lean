import LoanLedger.Json.Binary64
import LoanLedger.Json.Reader

/-!
JSON documents: texts that hold one value, with blanks around it. A document has bounds: its values
nest at most 127 levels, and its numbers lie in the range of binary floating point.
-/

set_option autoImplicit false
set_option relaxedAutoImplicit false

namespace LoanLedger.Json

mutual

/-- Whether a value nests at most `n` levels and all its numbers are in range. -/
def within : Nat → Json → Bool
  | _, .null => true
  | _, .bool _ => true
  | _, .int i => (Binary64.ofDecimal? i.natAbs 0).isSome
  | _, .real _ m e => (Binary64.ofDecimal? m e).isSome
  | _, .str _ => true
  | 0, .arr _ => false
  | 0, .obj _ => false
  | n + 1, .arr vs => itemsWithin n vs
  | n + 1, .obj ms => membersWithin n ms

/-- Whether this holds of all items. -/
def itemsWithin : Nat → List Json → Bool
  | _, [] => true
  | n, v :: vs => within n v && itemsWithin n vs

/-- Whether this holds of all members. -/
def membersWithin : Nat → List (String × Json) → Bool
  | _, [] => true
  | n, (_, v) :: ms => within n v && membersWithin n ms

end

/-- The value of a document. -/
def readChars? (cs : List Char) : Option Json :=
  (complete? (value? none (bound cs) cs)).filter (within 127)

/-- The value of a document. -/
def read? (s : String) : Option Json := readChars? s.toList

end LoanLedger.Json
