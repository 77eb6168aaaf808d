import LoanLedger.Accrual.JournalEntry

/-!
The accrual of one loan: its candidate rows are accrued in order, each seeing the charges as the
rows before it left them.
-/

set_option autoImplicit false
set_option relaxedAutoImplicit false

namespace LoanLedger

/-- All that is read of a loan before it is accrued, with the candidate rows in schedule order. -/
structure AccrualInput where
  loanId : LoanId
  candidates : List ScheduleRow
  charges : List Charge
  waivedPeriods : List WaivedPeriod
  waivers : List InterestWaiver
  deriving DecidableEq, Repr

/-- What the accrual of a loan produced: postings and their journal entries, the charges after
them, and the date the loan is accrued to, if anything was posted. -/
structure AccrualResult where
  loanId : LoanId
  postings : List Posting
  entries : List JournalEntry
  charges : List Charge
  accruedTill : Option Date
  deriving DecidableEq, Repr

/-- Whether nothing was posted. -/
def AccrualResult.isEmpty (r : AccrualResult) : Bool := r.postings.isEmpty

namespace AccrualInput

/-- The income of one window of a row, with waivers counted up to a date. -/
def prepare (input : AccrualInput) (policy : ChargePolicy) (row : ScheduleRow)
    (charges : List Charge) (w : Window) (waiversTill : Date) : Except Fault PreparedAccrual := do
  let apportionment ← Apportionment.ofCharges policy row w charges
  let interest ← ReconciledInterest.ofWaivers row input.waivedPeriods input.waivers waiversTill
  return ⟨row, apportionment, interest⟩

/-- Why a candidate row cannot be accrued, if it cannot. -/
def objection? (input : AccrualInput) (row : ScheduleRow) : Option Refusal :=
  if row.loanId ≠ input.loanId then
    some (.invalidSchedule input.loanId s!"installment {row.installment} belongs to loan {row.loanId}")
  else if row.dueDate < row.fromDate then
    some (.invalidSchedule input.loanId
      s!"installment {row.installment} starts {row.fromDate} after its due date {row.dueDate}")
  else none

/-- Every candidate must be a row of the loan and must not start after its due date. -/
def validate (input : AccrualInput) : Except Refusal Unit :=
  match input.candidates.findSome? input.objection? with
  | some r => .error r
  | none => .ok ()

/-- An accrual in progress. The mark is the date up to which later rows count as accrued; it is
taken from the first row that is due after the till date, and again as long as there is none. -/
structure Progress where
  postings : List Posting
  charges : List Charge
  mark : Option Date
  beforeFuture : Bool
  nextId : Nat
  deriving Repr

/-- Add a posting, if there is one, and let its allocations accrue on the charges. -/
def Progress.add (g : Progress) (p : PreparedAccrual) : Option Posting → Except Fault Progress
  | none => .ok g
  | some posting => do
    let charges ← p.charges.applyTo g.charges
    return { g with postings := g.postings ++ [posting], charges, nextId := g.nextId + 1 }

/-- Accrue the whole period of a row. -/
def accruePeriod (input : AccrualInput) (s : Settings) (processedOn waiversTill : Date)
    (g : Progress) (row : ScheduleRow) : Except Fault Progress := do
  let p ← input.prepare s.policy row g.charges row.period waiversTill
  g.add p (← p.postPeriod s (.ofNat g.nextId) processedOn)

/-- Accrue a row up to a date before its due date. -/
def accrueTill (input : AccrualInput) (s : Settings) (processedOn till : Date)
    (g : Progress) (row : ScheduleRow) : Except Fault Progress := do
  let p ← input.prepare s.policy row g.charges ⟨row.fromDate, till⟩ till
  g.add p (← p.postTill s (.ofNat g.nextId) till processedOn)

/-- The mark as a row due after the till date finds it. -/
def Progress.atFuture (g : Progress) (row : ScheduleRow) : Progress :=
  if g.beforeFuture || g.mark.isNone then
    { g with mark := row.accruedTill, beforeFuture := false }
  else g

/-- Whether the mark has not reached a date. -/
def Progress.isBehind (g : Progress) (till : Date) : Bool :=
  match g.mark with
  | none => true
  | some mark => mark < till

/-- Accrue one row of a run up to `till`: in full when it is due by then, else in part unless the
mark already reaches that date. -/
def accrueRow (input : AccrualInput) (s : Settings) (processedOn till : Date)
    (g : Progress) (row : ScheduleRow) : Except Fault Progress :=
  if till < row.dueDate then
    let g := g.atFuture row
    if g.isBehind till then input.accrueTill s processedOn till g row else .ok g
  else do
    let g ← input.accruePeriod s processedOn till g row
    return { g with mark := some row.dueDate }

/-- Accrue one row as the mode asks. -/
def accrueNext (input : AccrualInput) (mode : RunMode) (s : Settings) (processedOn : Date)
    (g : Progress) (row : ScheduleRow) : Except Fault Progress :=
  match mode with
  | .asOfToday => input.accruePeriod s processedOn row.dueDate g row
  | .tillDate till => input.accrueRow s processedOn till g row

/-- The journal entry of a posting, on the first candidate row it can belong to. -/
def entryFor? (input : AccrualInput) (method : AccountingMethod) (p : Posting) :
    Option JournalEntry :=
  (input.candidates.find? fun row => row.rowId == p.totals.rowId).map fun row =>
    .ofPosting row p method

/-- Accrue the candidate rows one after the other, numbering transactions from `firstId` on. -/
def accrueRows (input : AccrualInput) (mode : RunMode) (s : Settings) (processedOn : Date)
    (firstId : Nat) : Except Fault Progress :=
  input.candidates.foldlM (input.accrueNext mode s processedOn)
    ⟨[], input.charges, none, true, firstId⟩

/-- Accrue a loan. -/
def accrue (input : AccrualInput) (mode : RunMode) (s : Settings) (processedOn : Date)
    (firstId : Nat) : Except Failure AccrualResult := do
  input.validate
  let g ← input.accrueRows mode s processedOn firstId
  return {
    loanId := input.loanId
    postings := g.postings
    entries := g.postings.filterMap (input.entryFor? s.accountingMethod)
    charges := g.charges
    accruedTill := g.postings.getLast?.map (·.accruedTill) }

end AccrualInput
end LoanLedger
