import LoanLedger.Schedule

/-!
Interest waivers against a period. Waivers are recorded for the loan as a whole; they are consumed
first in, first out by the periods that are due before the one in question, the recognized part
before the unrecognized one. What is left of the recognized part tells how much of the interest of
the period can still accrue.
-/

set_option autoImplicit false
set_option relaxedAutoImplicit false

namespace LoanLedger

/-- The interest of a period after waivers. -/
structure ReconciledInterest where
  nominal : Option Money
  accruable : Option Money
  /-- What waivers take off the nominal interest. -/
  reduction : Money
  /-- Waived interest of earlier periods that no waiver covers. -/
  shortfall : Money
  deriving DecidableEq, Repr

namespace ReconciledInterest

/-- Interest without waivers. -/
def unchanged (nominal : Option Money) : ReconciledInterest := ⟨nominal, nominal, .zero, .zero⟩

/-- Whether a waiver counts for a row: made by the start of the period, or during it and by the
date `till`. -/
def counts (row : ScheduleRow) (till : Date) (w : InterestWaiver) : Bool :=
  w.date ≤ row.fromDate || (row.fromDate < w.date && w.date ≤ row.dueDate && w.date ≤ till)

/-- The waivers that count, by date; those of one date in the order given. -/
def applicable (row : ScheduleRow) (till : Date) (ws : List InterestWaiver) :
    List InterestWaiver :=
  (ws.filter (counts row till)).mergeSort fun a b => a.date ≤ b.date

/-- Waived amounts while periods are replayed: waivers still to come, what is left of those taken
up, and the waived interest that is not yet covered. -/
structure Pool where
  pending : List InterestWaiver
  recognized : Money
  unrecognized : Money
  uncovered : Money
  deriving Repr

/-- Take up the next waiver once nothing is left of the last. -/
def Pool.refill (p : Pool) : Except Fault Pool :=
  if p.recognized.isPositive || p.unrecognized.isPositive then .ok p
  else
    match p.pending with
    | [] => .ok p
    | w :: rest => do
      let recognized ← p.recognized.add w.recognized
      let unrecognized ← p.unrecognized.add w.unrecognized
      return { p with pending := rest, recognized, unrecognized }

/-- Cover waived interest: from the recognized part, then from the unrecognized one. -/
def Pool.cover (p : Pool) (waived : Money) : Except Fault Pool := do
  let uncovered ← p.uncovered.add waived
  if uncovered < p.recognized then
    return { p with recognized := ← p.recognized.sub uncovered, uncovered := .zero }
  else
    let uncovered ← uncovered.sub p.recognized
    if uncovered ≤ p.unrecognized then
      return { p with
        recognized := .zero, unrecognized := ← p.unrecognized.sub uncovered, uncovered := .zero }
    else
      return { p with
        recognized := .zero, unrecognized := .zero
        uncovered := ← uncovered.sub p.unrecognized }

/-- Replay one period. Only those due before the row consume anything. -/
def Pool.replay (row : ScheduleRow) (p : Pool) (period : WaivedPeriod) : Except Fault Pool := do
  let p ← p.refill
  if row.dueDate ≤ period.dueDate then return p else p.cover period.waived

/-- The interest of a row that can accrue in a window ending at `till`, given the periods of the
loan with waived interest in order of their due dates and its waivers. -/
def ofWaivers (row : ScheduleRow) (periods : List WaivedPeriod) (waivers : List InterestWaiver)
    (till : Date) : Except Fault ReconciledInterest :=
  match row.waivedInterest with
  | none => .ok (unchanged row.interestIncome)
  | some waived => do
    let p ← periods.foldlM (Pool.replay row) ⟨applicable row till waivers, .zero, .zero, .zero⟩
    let nominal := Money.orZero row.interestIncome
    let excess ← if p.recognized < waived then waived.sub p.recognized else pure .zero
    let accruable ← nominal.monus excess
    let reduction ← nominal.sub accruable
    return ⟨row.interestIncome, row.interestIncome.map fun _ => accruable, reduction, p.uncovered⟩

end ReconciledInterest
end LoanLedger
