/-!
Arithmetic faults. A fault is not a refusal of the ledger: it says that an exact amount, a date or a
count has left the range that can be represented, and it ends whatever was being computed.
-/

set_option autoImplicit false
set_option relaxedAutoImplicit false

namespace LoanLedger

/-- Why an exact computation has no representable result. -/
inductive Fault
  | additionOverflow
  | subtractionOverflow
  | multiplicationOverflow
  | divisionOverflow
  | divisionByZero
  | scaleTooLarge (scale : Nat)
  | dateUnderflow
  | countOverflow
  deriving DecidableEq, Repr

/-- The sentence shown for a fault. -/
def Fault.message : Fault → String
  | .additionOverflow => "Addition overflowed"
  | .subtractionOverflow => "Subtraction overflowed"
  | .multiplicationOverflow => "Multiplication overflowed"
  | .divisionOverflow => "Division overflowed"
  | .divisionByZero => "Division by zero"
  | .scaleTooLarge n => "Scale exceeds the maximum precision allowed: " ++ toString n ++ " > 28"
  | .dateUnderflow => "`NaiveDate - TimeDelta` overflowed"
  | .countOverflow => "attempt to add with overflow"

end LoanLedger
