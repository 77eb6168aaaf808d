import LoanLedger.Event
import LoanLedger.Settings

/-!
Arrears of a loan. A loan has at most one row, always computed from scratch: the overdue components,
their total and the date since when; with no principal overdue there is no row at all.
-/

set_option autoImplicit false
set_option relaxedAutoImplicit false

namespace LoanLedger

/-- What is overdue on a loan. -/
structure Arrears where
  loanId : LoanId
  principal : Money
  interest : Money
  fee : Money
  penalty : Money
  total : Money
  since : Date
  deriving DecidableEq, Repr

/-- Overdue components summed over the periods of a loan. -/
structure OverdueTotals where
  principal : Money
  interest : Money
  fee : Money
  penalty : Money
  deriving DecidableEq, Repr

namespace OverdueTotals

/-- Nothing overdue. -/
def none : OverdueTotals := ⟨.zero, .zero, .zero, .zero⟩

/-- All components together. -/
def total (t : OverdueTotals) : Except Fault Money := do
  (← (← t.principal.add t.interest).add t.fee).add t.penalty

/-- The row of these totals, when any principal is overdue. -/
def toArrears (t : OverdueTotals) (loanId : LoanId) (since : Date) :
    Except Fault (Option Arrears) :=
  if t.principal.isPositive then
    return some ⟨loanId, t.principal, t.interest, t.fee, t.penalty, ← t.total, since⟩
  else .ok Option.none

end OverdueTotals

/-- The write that brings the row of a loan up to date. -/
inductive ArrearsChange
  | insert (row : Arrears)
  | update (row : Arrears)
  | delete (loan : LoanId)
  deriving DecidableEq, Repr

namespace ArrearsChange

/-- Insert or replace the computed row; delete where nothing was computed. -/
def plan (loan : LoanId) (existing computed : Option Arrears) : ArrearsChange :=
  match existing, computed with
  | none, some row => .insert row
  | some _, some row => .update row
  | _, none => .delete loan

/-- The loan that a change is about. -/
def loanId : ArrearsChange → LoanId
  | .insert row | .update row => row.loanId
  | .delete loan => loan

/-- The row that a change leaves behind. -/
def row? : ArrearsChange → Option Arrears
  | .insert row | .update row => some row
  | .delete _ => none

/-- The announcement of a change. -/
def event : ArrearsChange → Event
  | .insert row | .update row => .arrearsUpdated row.loanId row.total row.since
  | .delete loan => .arrearsCleared loan

end ArrearsChange

/-- The facts about a loan that decide how its arrears are computed. -/
structure AgeingProfile where
  loanId : LoanId
  status : LoanStatus
  interestRecalculation : Bool
  onIssuedSchedule : Bool
  /-- Overrides the configured days of grace. -/
  graceDays : Option UInt32
  deriving DecidableEq, Repr

namespace AgeingProfile

/-- The profile of a loan without arrears terms of its own. -/
def plain (loanId : LoanId) (status : LoanStatus) : AgeingProfile :=
  ⟨loanId, status, false, false, none⟩

/-- Whether arrears follow the schedule as first issued. -/
def usesIssuedSchedule (p : AgeingProfile) (s : Settings) : Bool :=
  p.status.isActive && p.interestRecalculation &&
    (p.onIssuedSchedule || s.arrears.onIssuedSchedule)

/-- The days of grace that apply. -/
def grace (p : AgeingProfile) (s : Settings) : UInt32 := p.graceDays.getD s.arrears.graceDays

end AgeingProfile
end LoanLedger
