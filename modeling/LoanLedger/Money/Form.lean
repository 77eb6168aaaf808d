import LoanLedger.Money.Rounding
import LoanLedger.Money.Text
import LoanLedger.Json.Binary64
import LoanLedger.Json.Form

/-!
The JSON form of amounts: a string. A number is also read, a whole one exactly and any other by its
shortest decimal text.
-/

set_option autoImplicit false
set_option relaxedAutoImplicit false

namespace LoanLedger

namespace Money

/-- The amount of a number that passed through floating point. -/
def ofReal? (negative : Bool) (m : Nat) (e : Int) : Option Money := do
  let x ← Json.Binary64.ofDecimal? m e
  (readChars ((if negative then ['-'] else []) ++ x.chars)).toOption

instance : JsonForm Money where
  toJson a := .str (toString a)
  ofJson?
    | .str s => (read s).toOption
    | .int n =>
      if -0x8000000000000000 ≤ n ∧ n < 0x10000000000000000 then some (ofInt n) else ofReal? (n < 0) n.natAbs 0
    | .real negative m e => ofReal? negative m e
    | _ => none

end Money

instance : JsonForm Currency where
  toJson c := .obj [("code", toJson c.code), ("decimalPlaces", toJson c.decimalPlaces)]
  ofJson? := Json.FieldReader.read? do
    let code ← .required "code"
    let decimalPlaces ← .required "decimalPlaces"
    return { code, decimalPlaces }

end LoanLedger
