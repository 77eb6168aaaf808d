import LoanLedger.Arrears.Issued
import LoanLedger.Arrears.Live
import LoanLedger.Ledger.Run

/-!
Bringing arrears up to date: each loan against its live schedule or, where its profile asks for it,
against the schedule as first issued. Loans of the second kind are read together.
-/

set_option autoImplicit false
set_option relaxedAutoImplicit false

namespace LoanLedger

namespace Ledger

/-- Write the change that leads to a computed row. -/
def settleArrears (g : Ledger) (loan : LoanId) (computed : Option Arrears) :
    Ledger × Except Failure ArrearsChange :=
  let change := ArrearsChange.plan loan (g.arrearsOf? loan) computed
  match g.applyArrears change with
  | .error r => (g, refuse r)
  | .ok g => (g, .ok change)

/-- The arrears of a loan by its live schedule. -/
def liveArrears (g : Ledger) (loan : LoanId) (today : Date) :
    Except Failure (Option Arrears) := do
  let installments ← g.installments loan
  Arrears.ofInstallments loan installments today

/-- Recompute the arrears of a loan by its live schedule. -/
def updateLive (g : Ledger) (loan : LoanId) (today : Date) :
    Ledger × Except Failure ArrearsChange :=
  match g.liveArrears loan today with
  | .error f => (g, .error f)
  | .ok computed => g.settleArrears loan computed

/-- Recompute the arrears of several loans by their live schedules. -/
def updateLives (g : Ledger) (today : Date) :
    List LoanId → Ledger × Except Failure (List ArrearsChange)
  | [] => (g, .ok [])
  | loan :: rest =>
    match g.updateLive loan today with
    | (g, .error f) => (g, .error f)
    | (g, .ok change) =>
      match g.updateLives today rest with
      | (g, .error f) => (g, .error f)
      | (g, .ok changes) => (g, .ok (change :: changes))

/-- The arrears of a loan by its issued periods: those due before the days of grace count. -/
def issuedArrears (g : Ledger) (s : Settings) (loan : LoanId) (periods : List IssuedPeriod)
    (today : Date) : Except Failure (Option Arrears) := do
  let profile ← g.profile loan
  let cutoff ← today.minusDays (profile.grace s).toNat
  let pastDue := periods.filter fun p => p.dueDate < cutoff
  if pastDue.isEmpty then return none
  let repayments ← g.repayments loan
  let covered ← CoveredPeriod.ofRepayments pastDue repayments
  Arrears.ofCovered loan covered today

/-- Take the periods of a loan out of the groups; a second look finds none. -/
def takeGroup (loan : LoanId) :
    List (LoanId × List IssuedPeriod) → List IssuedPeriod × List (LoanId × List IssuedPeriod)
  | [] => ([], [])
  | (id, periods) :: rest =>
    if id = loan then (periods, (id, []) :: rest)
    else
      let (found, rest) := takeGroup loan rest
      (found, (id, periods) :: rest)

/-- Recompute the arrears of several loans by their issued periods, which have been read. -/
def updateIssuedFrom (g : Ledger) (s : Settings) (today : Date)
    (groups : List (LoanId × List IssuedPeriod)) :
    List LoanId → Ledger × Except Failure (List ArrearsChange)
  | [] => (g, .ok [])
  | loan :: rest =>
    let (periods, groups) := takeGroup loan groups
    match g.issuedArrears s loan periods today with
    | .error f => (g, .error f)
    | .ok computed =>
      match g.settleArrears loan computed with
      | (g, .error f) => (g, .error f)
      | (g, .ok change) =>
        match g.updateIssuedFrom s today groups rest with
        | (g, .error f) => (g, .error f)
        | (g, .ok changes) => (g, .ok (change :: changes))

/-- Recompute the arrears of several loans by their issued schedules, read at once. -/
def updateIssued (g : Ledger) (s : Settings) (today : Date) (loans : List LoanId) :
    Ledger × Except Failure (List ArrearsChange) :=
  let (periods, g) := g.readIssued loans
  g.updateIssuedFrom s today (IssuedPeriod.groupRuns periods) loans

/-- Whether the arrears of a loan follow its issued schedule. -/
def usesIssuedSchedule (g : Ledger) (s : Settings) (loan : LoanId) : Except Refusal Bool :=
  return (← g.profile loan).usesIssuedSchedule s

/-- Recompute the arrears of loans, live ones first. -/
def updateArrears (g : Ledger) (s : Settings) (today : Date) (loans : List LoanId) :
    Ledger × Except Failure (List ArrearsChange) :=
  match loans.mapM (fun id => (g.usesIssuedSchedule s id).map fun issued => (id, issued)) with
  | .error r => (g, refuse r)
  | .ok marked =>
    let live := (marked.filter fun m => !m.2).map (·.1)
    let issued := (marked.filter fun m => m.2).map (·.1)
    match g.updateLives today live with
    | (g, .error f) => (g, .error f)
    | (g, .ok changes) =>
      if issued.isEmpty then (g, .ok changes)
      else
        match g.updateIssued s today issued with
        | (g, .error f) => (g, .error f)
        | (g, .ok more) => (g, .ok (changes ++ more))

/-- Recompute the arrears of the loan that an activity was on. -/
def updateAfter (g : Ledger) (s : Settings) (today : Date) (a : Activity) :
    Ledger × Except Failure ArrearsChange :=
  let issued : Except Refusal Bool :=
    if a.forcesLiveSchedule then .ok false else g.usesIssuedSchedule s a.loanId
  match issued with
  | .error r => (g, refuse r)
  | .ok false => g.updateLive a.loanId today
  | .ok true =>
    match g.updateIssued s today [a.loanId] with
    | (g, .error f) => (g, .error f)
    | (g, .ok changes) => (g, .ok (changes.getLastD (.delete a.loanId)))

end Ledger

namespace Books

/-- Recompute the arrears of loans and announce the changes, once all of them are written. -/
def updateArrears (b : Books) (s : Settings) (today : Date) (loans : List LoanId) :
    Books × Except Failure (List ArrearsChange) :=
  match b.ledger.updateArrears s today loans with
  | (ledger, .error f) => ({ b with ledger }, .error f)
  | (ledger, .ok changes) =>
    ({ b with ledger, events := b.events ++ changes.map (·.event) }, .ok changes)

/-- Recompute the arrears of a loan after an activity on it, and announce the change. -/
def handle (b : Books) (s : Settings) (today : Date) (a : Activity) :
    Books × Except Failure ArrearsChange :=
  match b.ledger.updateAfter s today a with
  | (ledger, .error f) => ({ b with ledger }, .error f)
  | (ledger, .ok change) =>
    ({ b with ledger, events := b.events ++ [change.event] }, .ok change)

end Books
end LoanLedger
