import LoanLedger.Json.Form
import LoanLedger.Text.Blank
import LoanLedger.Calendar.Text
import LoanLedger.Money.Rounding

/-!
The terms that decide how a loan is accounted for: the charge policy, the accounting method, the
rounding mode, the status of the loan and the extent of a run.
-/

set_option autoImplicit false
set_option relaxedAutoImplicit false

namespace LoanLedger

/-- Which date of a charge decides when it accrues: its due date, or also the date it was
submitted. -/
inductive ChargePolicy
  | dueDate | submittedDate
  deriving DecidableEq, Repr, Inhabited

namespace ChargePolicy

/-- The name of a policy in settings. -/
def name : ChargePolicy → String
  | .dueDate => "due-date"
  | .submittedDate => "submitted-date"

/-- The policy with exactly this name. -/
def ofName? : String → Option ChargePolicy
  | "due-date" => some .dueDate
  | "submitted-date" => some .submittedDate
  | _ => none

/-- A name as it is compared: trimmed, with ASCII letters in lower case. -/
def fold (text : String) : String :=
  String.ofList ((Text.Blank.trim text.toList).map Char.toLower)

instance : JsonForm ChargePolicy := ⟨fun p => .str p.name, Json.named? ofName?⟩

@[simp] theorem ofName?_name (p : ChargePolicy) : ofName? p.name = some p := by
  cases p <;> rfl

end ChargePolicy

/-- The accounting rule of a loan product. -/
inductive AccountingMethod
  | none | cash | accrualUpfront | accrualPeriodic
  deriving DecidableEq, Repr

namespace AccountingMethod

/-- The name of a method in settings. -/
def name : AccountingMethod → String
  | .none => "none"
  | .cash => "cash"
  | .accrualUpfront => "accrual-upfront"
  | .accrualPeriodic => "accrual-periodic"

/-- The method with exactly this name. -/
def ofName? : String → Option AccountingMethod
  | "none" => some .none
  | "cash" => some .cash
  | "accrual-upfront" => some .accrualUpfront
  | "accrual-periodic" => some .accrualPeriodic
  | _ => Option.none

/-- Whether income is booked when it is paid. -/
def isCash (m : AccountingMethod) : Bool := m == .cash

/-- Whether income is booked at once. -/
def isUpfront (m : AccountingMethod) : Bool := m == .accrualUpfront

/-- Whether income is booked period by period. -/
def isPeriodic (m : AccountingMethod) : Bool := m == .accrualPeriodic

instance : JsonForm AccountingMethod := ⟨fun m => .str m.name, Json.named? ofName?⟩

@[simp] theorem ofName?_name (m : AccountingMethod) : ofName? m.name = some m := by
  cases m <;> rfl

end AccountingMethod

namespace RoundingMode

/-- The name of a mode in settings. -/
def name : RoundingMode → String
  | .halfEven => "half-even"
  | .halfUp => "half-up"
  | .halfDown => "half-down"
  | .down => "down"
  | .up => "up"

/-- The mode with exactly this name. -/
def ofName? : String → Option RoundingMode
  | "half-even" => some .halfEven
  | "half-up" => some .halfUp
  | "half-down" => some .halfDown
  | "down" => some .down
  | "up" => some .up
  | _ => none

instance : JsonForm RoundingMode := ⟨fun m => .str m.name, Json.named? ofName?⟩

@[simp] theorem ofName?_name (m : RoundingMode) : ofName? m.name = some m := by
  cases m <;> rfl

end RoundingMode

/-- The status of a loan. -/
inductive LoanStatus
  | submittedAndPendingApproval
  | approved
  | active
  | closedObligationsMet
  | closedWrittenOff
  | overpaid
  deriving DecidableEq, Repr

namespace LoanStatus

/-- The name of a status. -/
def name : LoanStatus → String
  | .submittedAndPendingApproval => "SubmittedAndPendingApproval"
  | .approved => "Approved"
  | .active => "Active"
  | .closedObligationsMet => "ClosedObligationsMet"
  | .closedWrittenOff => "ClosedWrittenOff"
  | .overpaid => "Overpaid"

/-- The status with exactly this name. -/
def ofName? : String → Option LoanStatus
  | "SubmittedAndPendingApproval" => some .submittedAndPendingApproval
  | "Approved" => some .approved
  | "Active" => some .active
  | "ClosedObligationsMet" => some .closedObligationsMet
  | "ClosedWrittenOff" => some .closedWrittenOff
  | "Overpaid" => some .overpaid
  | _ => none

/-- Only an active loan accrues. -/
def isActive (s : LoanStatus) : Bool := s == .active

instance : JsonForm LoanStatus := ⟨fun s => .str s.name, Json.named? ofName?⟩

@[simp] theorem ofName?_name (s : LoanStatus) : ofName? s.name = some s := by
  cases s <;> rfl

end LoanStatus

instance : JsonForm Date where
  toJson d := .str (toString d)
  ofJson?
    | .str s => Date.ofText? s
    | _ => none

/-- How far a run catches up: every installment that is due, or all income up to a date, where the
installments that are not yet due then are accrued in part. -/
inductive RunMode
  | asOfToday
  | tillDate (till : Date)
  deriving DecidableEq, Repr

instance : JsonForm RunMode where
  toJson
    | .asOfToday => .str "AsOfToday"
    | .tillDate d => .obj [("TillDate", toJson d)]
  ofJson? j :=
    match Json.variant? j with
    | some ("AsOfToday", none) => some .asOfToday
    | some ("AsOfToday", some .null) => some .asOfToday
    | some ("TillDate", some v) => (ofJson? v).map .tillDate
    | _ => none

end LoanLedger
