import LoanLedger.Proofs.Conflict.Run

/-!
Conflicts are made up for by trying again. A run in which fewer other writers come before a loan than
it has attempts leaves the loan as it would without them, but for its version; with as many or more
the loan fails, once all attempts are made, and stays as it was.
-/

set_option autoImplicit false
set_option relaxedAutoImplicit false

namespace LoanLedger

namespace Batch

variable {b : Batch} {mode : RunMode} {today : Date} {c : Cancellation} {st : Books} {s : Settings}

/-- A run of all loans that comes to the turn of a loan, which has `r` to commit and then is
`loan'`, if no other writer is to come. -/
structure Reaches (t : RunTerms) (c : Cancellation) (id : LoanId) (loan loan' : Loan)
    (r : AccrualResult) (pre post : List (LoanId × List ScheduleRow)) (st τ : Books) : Prop where
  groups : groupByLoan (st.ledger.candidates none t.mode t.today) =
    pre ++ (id, t.fresh loan) :: post
  ready : st.Ready t id loan loan' r
  turn : t.InTurn c id pre (t.fresh loan) (r.written id)
    ((fun l => { l with attempts := 1 }) <$> RunTerms.summed id r) (st.expecting id 0) τ
  loan : τ.ledger.loans.find? id = some loan'
  conflicts : τ.ledger.conflicts.find? id = some 0

variable {id : LoanId} {loan loan' : Loan} {r : AccrualResult} {n : UInt32}
  {pre post : List (LoanId × List ScheduleRow)} {τ : Books}

theorem Reaches.nodup {t : RunTerms} (h : Reaches t c id loan loan' r pre post st τ) :
    ((pre ++ (id, t.fresh loan) :: post).map Prod.fst).Nodup :=
  h.groups ▸ (grouped_groupByLoan _).nodup

theorem Reaches.keys {t : RunTerms} (h : Reaches t c id loan loan' r pre post st τ) :
    (pre.map Prod.fst).Nodup ∧ id ∉ post.map Prod.fst := by
  obtain ⟨hpre, -, -, hpost, -⟩ := nodup_keys_around h.nodup
  exact ⟨hpre, hpost⟩

end Batch

end LoanLedger
