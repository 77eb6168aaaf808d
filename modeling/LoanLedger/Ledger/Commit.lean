import LoanLedger.Ledger.Basic

/-!
Commits: the results of one loan are written as a whole or not at all, guarded by the version that
they were computed from, and handed to the journal before they count.
-/

set_option autoImplicit false
set_option relaxedAutoImplicit false

namespace LoanLedger

/-- The journal: the entries booked, and the loans that it refuses. -/
structure Journal where
  entries : List JournalEntry
  refused : List LoanId
  deriving Repr

namespace Journal

/-- A journal without entries that refuses no loan. -/
def empty : Journal := ⟨[], []⟩

instance : Inhabited Journal := ⟨empty⟩

/-- Refuse every further entry of a loan. -/
def refusing (j : Journal) (id : LoanId) : Journal := { j with refused := j.refused ++ [id] }

/-- Book one entry. -/
def book (j : Journal) (e : JournalEntry) : Except Refusal Journal :=
  if j.refused.contains e.loanId then .error (.storage "journal unavailable")
  else .ok { j with entries := j.entries ++ [e] }

/-- Book entries up to the first refusal; those before it stay booked. -/
def bookAll (j : Journal) : List JournalEntry → Journal × Except Refusal Unit
  | [] => (j, .ok ())
  | e :: rest =>
    match j.book e with
    | .error r => (j, .error r)
    | .ok j => j.bookAll rest

end Journal

/-- The results of one loan, with the version that they were computed from. -/
structure Commit where
  loanId : LoanId
  expected : UInt64
  result : AccrualResult
  deriving DecidableEq, Repr

namespace Loan

/-- A row with new accrued totals. -/
def settle (totals : RowTotals) (row : ScheduleRow) : ScheduleRow :=
  { row with
    accruedInterest := totals.interest
    accruedFee := totals.fee
    accruedPenalty := totals.penalty }

/-- Give the first row that has the number in `totals` its new totals. -/
def settleRows (totals : RowTotals) : List ScheduleRow → Option (List ScheduleRow)
  | [] => none
  | row :: rest =>
    if row.rowId = totals.rowId then some (settle totals row :: rest)
    else (settleRows totals rest).map (row :: ·)

/-- Write one posting to the schedule of a loan. -/
def post (loan : Loan) (p : Posting) : Except Refusal Loan :=
  match settleRows p.totals loan.schedule with
  | some schedule => .ok { loan with schedule }
  | none => .error (.invalidSchedule loan.id s!"no schedule row {p.totals.rowId}")

/-- A loan with the results of a commit: settled rows, advanced charges, the new accrued-till date
if there is one, and the next version. -/
def accept (loan : Loan) (r : AccrualResult) : Except Failure Loan := do
  let loan ← (r.postings.foldlM post loan : Except Refusal Loan)
  let version ← loan.nextVersion
  return { loan with
    charges := r.charges
    accruedTill := r.accruedTill.or loan.accruedTill
    version }

end Loan

namespace Ledger

/-- Let a pending other writer come first: it raises the version of the loan, and the commit that
it precedes is refused. -/
def yieldToWriter (g : Ledger) (id : LoanId) : Ledger × Except Failure Unit :=
  match g.conflicts.find? id with
  | none => (g, .ok ())
  | some n =>
    if n = 0 then (g, .ok ())
    else
      let g := { g with conflicts := g.conflicts.insert id (n - 1) }
      match g.loans.find? id with
      | none => (g, .ok ())
      | some loan =>
        match loan.nextVersion with
        | .error f => (g, .error (.fault f))
        | .ok version =>
          ({ g with loans := g.loans.insert id { loan with version } },
            refuse (.concurrencyConflict id loan.version version))

/-- The ledger as a commit would leave it, and the new version of its loan. -/
def stage (g : Ledger) (c : Commit) : Except Failure (Ledger × UInt64) := do
  let loan ← g.loan c.loanId
  if loan.version ≠ c.expected then
    refuse (.concurrencyConflict c.loanId c.expected loan.version)
  let loan ← loan.accept c.result
  return ({ g with
    loans := g.loans.insert c.loanId loan
    transactions := g.transactions ++ c.result.postings.map (·.transaction)
    payments := g.payments ++ c.result.postings.flatMap (·.payments) }, loan.version)

/-- Commit results and book their journal entries; gives the new version of the loan. The ledger
takes the results only once the journal took all entries. -/
def commit (g : Ledger) (j : Journal) (c : Commit) :
    (Ledger × Journal) × Except Failure UInt64 :=
  match g.yieldToWriter c.loanId with
  | (g, .error f) => ((g, j), .error f)
  | (g, .ok ()) =>
    match g.stage c with
    | .error f => ((g, j), .error f)
    | .ok (staged, version) =>
      match j.bookAll c.result.entries with
      | (j, .error r) => ((g, j), refuse (.journalPosting c.loanId r.message))
      | (j, .ok ()) => ((staged, j), .ok version)

end Ledger
end LoanLedger
