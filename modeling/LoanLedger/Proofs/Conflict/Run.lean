import LoanLedger.Proofs.Conflict.Groups
import LoanLedger.Proofs.Conflict.Turn

/-!
A run with other writers to come before the commits of a loan. With fewer of them than a turn has
attempts the run makes of the loan what it makes of it without them; with as many or more it leaves
the loan as it was, at a higher version, and reports that the attempts are exhausted.
-/

set_option autoImplicit false
set_option relaxedAutoImplicit false

namespace LoanLedger

/-- The number of attempts that a run has for each loan. The first is always made. -/
def Settings.attempts (s : Settings) : Nat := max 1 s.retry.maxAttempts.toNat

theorem Settings.attempts_eq (s : Settings) :
    s.attempts = (s.retry.maxAttempts.toNat - 1) + 1 := by
  rw [attempts]
  omega

/-- What was made of a loan between two states of the books: the loan as it is in the later one, the
number of writers that are still to come before its commits, and what was written about it. -/
structure Books.Leaves (id : LoanId) (loan : Loan) (conflicts : UInt32) (w : Written)
    (b b' : Books) : Prop where
  loan : b'.ledger.loans.find? id = some loan
  conflicts : b'.ledger.conflicts.find? id = some conflicts
  arrears : b'.ledger.arrears.find? id = b.ledger.arrears.find? id
  written : ∃ v, b.Adds v b' ∧ v.of id = w

/-- What the books have at their end once a result was committed and announced. -/
def AccrualResult.written (r : AccrualResult) (id : LoanId) : Written :=
  ⟨r.postings, r.entries, r.events id⟩

theorem AccrualResult.written_rename (r : AccrualResult) (id : LoanId)
    (f : TransactionId → TransactionId) : (r.rename f).written id = (r.written id).rename f := by
  rw [written, events_rename]
  rfl

theorem Books.Adds.transactionsFor {id : LoanId} {w : Written} {b b' : Books} (h : b.Adds w b')
    (hw : (w.of id).postings = []) :
    b'.ledger.transactionsFor id = b.ledger.transactionsFor id := by
  have hnone : (w.postings.map (·.transaction)).filter (fun a => a.loanId == id) = [] := by
    rw [List.filter_map]
    exact List.map_eq_nil_iff.mpr hw
  rw [Ledger.transactionsFor, h.transactions, List.filter_append, hnone, List.append_nil]
  rfl

namespace Books

variable {id k : LoanId} {st st' : Books} {loan : Loan}

theorem expecting_moves (st : Books) (id : LoanId) (n : UInt32) :
    st.Moves id .nothing (st.expecting id n) :=
  ⟨Written.isFor_nothing, .silent rfl rfl rfl rfl,
    fun _ hk => ⟨rfl, rfl, Table.find?_insert_of_ne _ hk _⟩, rfl, rfl⟩

theorem expecting_alike (st : Books) (hk : k ≠ id) (n m : UInt32) :
    (st.expecting id n).Alike k (st.expecting id m) :=
  ((st.expecting_moves id n).alike hk).symm.trans ((st.expecting_moves id m).alike hk)

theorem overtaken_moves (st : Books) (id : LoanId) (loan : Loan) (n : Nat) :
    st.Moves id .nothing (st.overtaken id loan n) :=
  ⟨Written.isFor_nothing, .silent rfl rfl rfl rfl,
    fun _ hk => ⟨Table.find?_insert_of_ne _ hk _, rfl, rfl⟩, rfl, rfl⟩

theorem taking_moves (st : Books) (loan : Loan) {r : AccrualResult}
    (hpostings : ∀ p ∈ r.postings, p.transaction.loanId = id)
    (hentries : ∀ e ∈ r.entries, e.loanId = id) :
    st.Moves id (r.written id) (st.taking id loan r) :=
  ⟨⟨hpostings, hentries, fun _ he => RunTerms.loanId_of_mem_events he⟩, ⟨rfl, rfl, rfl, rfl⟩,
    fun _ hk => ⟨Table.find?_insert_of_ne _ hk _, rfl, rfl⟩, rfl, rfl⟩

end Books

/-- The turn of a loan in the course of a run: after the turns of other loans it ends in `τ` with the
result `x`, and `w` was written. -/
structure RunTerms.InTurn (t : RunTerms) (c : Cancellation) (id : LoanId)
    (pre : List (LoanId × List ScheduleRow)) (rows : List ScheduleRow) (w : Written)
    (x : Except Failure LoanSummary) (st τ : Books) : Prop where
  filed : st.ledger.Filed
  others : id ∉ pre.map Prod.fst
  turn : ∃ σ summary, t.accrueGroups c pre .empty st = (σ, .ok summary) ∧
    c.requestedBefore id = false ∧
    t.accrueLoan id (t.settings.retry.maxAttempts.toNat - 1) 1 rows σ = (τ, x) ∧
    σ.Moves id w τ

namespace RunTerms.InTurn

variable {t : RunTerms} {c : Cancellation} {id k : LoanId}
  {pre post : List (LoanId × List ScheduleRow)} {rows : List ScheduleRow} {w w' : Written}
  {x x' : Except Failure LoanSummary} {st st' τ τ' : Books}

theorem alike (h : t.InTurn c id pre rows w x st τ) (hk : k ≠ id) (hpre : k ∉ pre.map Prod.fst) :
    st.Alike k τ := by
  obtain ⟨σ, summary, hbefore, -, -, hmoves⟩ := h.turn
  obtain ⟨v, hpasses, -⟩ := accrueGroups_passes hbefore h.filed hpre
  exact hpasses.alike.trans (hmoves.alike hk)

/-- A run goes on from the turn of a loan, with the first outcome for that loan in its summary, or
ends there by a fault. -/
theorem run (h : t.InTurn c id pre rows w x st τ) (post : List (LoanId × List ScheduleRow)) :
    ∃ summary : RunSummary, summary.of id = .empty ∧
      t.accrueGroups c (pre ++ (id, rows) :: post) .empty st =
        match LoanOutcome.ofResult id x with
        | .ok o => t.accrueGroups c post (summary.record o) τ
        | .error f => (τ, .error f) := by
  obtain ⟨σ, summary, hbefore, hgoing, hturn, -⟩ := h.turn
  obtain ⟨v, -, hsummary⟩ := accrueGroups_passes hbefore h.filed h.others
  obtain ⟨τ', x', hturn', hcons⟩ := t.accrueGroups_cons id rows post summary σ hgoing
  cases hturn'.symm.trans hturn
  refine ⟨summary, hsummary summary rfl, ?_⟩
  rw [accrueGroups_append, hbefore]
  exact hcons

/-- Of what was written until the end of the turn, the part about its loan is that of the turn. -/
theorem writes (h : t.InTurn c id pre rows w x st τ) :
    τ.ledger.arrears.find? id = st.ledger.arrears.find? id ∧
      ∃ v, st.Adds v τ ∧ v.of id = w := by
  obtain ⟨σ, summary, hbefore, -, -, hmoves⟩ := h.turn
  obtain ⟨v, hpasses, -⟩ := accrueGroups_passes hbefore h.filed h.others
  refine ⟨?_, _, hpasses.adds.trans hmoves.adds, ?_⟩
  · rw [hmoves.arrears, hpasses.alike.ledger.arrears]
  · rw [Written.append_of, hpasses.others, hmoves.isFor.of_eq, Written.nothing_append]

end RunTerms.InTurn

theorem Books.Passes.expecting_self {id : LoanId} {w : Written} {n : UInt32} {st σ : Books}
    (h : (st.expecting id n).Passes id w σ) : σ.expecting id n = σ := by
  have hconflicts : σ.ledger.conflicts.find? id = some n :=
    h.alike.ledger.conflicts.trans (Table.find?_insert_self _ _ _)
  exact Books.expecting_self hconflicts

namespace Books.Ready

variable {t : RunTerms} {id : LoanId} {st σ : Books} {loan loan' : Loan} {r : AccrualResult}

end Books.Ready

namespace RunTerms

variable {t : RunTerms} {c : Cancellation} {id : LoanId}
  {pre post groups : List (LoanId × List ScheduleRow)}
  {rows : List ScheduleRow} {summary : RunSummary} {st σ τ : Books} {loan loan' : Loan}
  {r : AccrualResult} {n : UInt32}

/-- A loan that commits something in its turn, with no other writer to come, had it ready. -/
theorem InTurn.ready {w : Written} {x : Except Failure LoanSummary}
    (h : t.InTurn c id pre (t.fresh loan) w x (st.expecting id 0) τ) (hw : w.postings ≠ [])
    (hloan : st.ledger.loans.find? id = some loan)
    (hroom : loan.version.toNat + 1 < UInt64.size) :
    ∃ loan' r, st.Ready t id loan loan' r ∧
      t.InTurn c id pre (t.fresh loan) (r.written id)
        ((fun s => { s with attempts := 1 }) <$> summed id r) (st.expecting id 0) τ ∧
      τ.ledger.loans.find? id = some loan' ∧
      τ.ledger.conflicts.find? id = some 0 := by
  obtain ⟨σ, summary, hbefore, hgoing, hturn, hmoves⟩ := h.turn
  obtain ⟨v, hpasses, -⟩ := accrueGroups_passes hbefore h.filed h.others
  have hfound : σ.ledger.loans.find? id = some loan := hpasses.alike.ledger.loan.trans hloan
  -- what was written shows that the turn posted something
  have hwritten : τ.ledger.transactions ≠ σ.ledger.transactions := by
    rw [hmoves.adds.transactions, ne_eq, List.append_right_eq_self, List.map_eq_nil_iff]
    exact hw
  obtain ⟨ok, log, hbooks, -⟩ := accrueLoan_turn (accrueGroups_filed hbefore h.filed)
    (fun found hfound' => by rw [Option.some.inj (hfound'.symm.trans hfound)]) hturn
  obtain ⟨found, -, hloanTurn⟩ := hbooks.loan loan hfound
  have hlog : log ≠ [] := by
    rintro rfl
    exact hwritten (hbooks.records.transactions.trans (List.append_nil _))
  obtain ⟨loan', r, hposts⟩ := hloanTurn.exists_posts hlog hroom
  rcases accrueLoan_of_none hfound hposts (t.settings.retry.maxAttempts.toNat - 1) 1 with
    ⟨htakes, f, hf, hrenamed, htaken⟩ | ⟨-, hledger⟩
  · rw [hpasses.expecting_self, hturn] at htaken
    obtain ⟨rfl, rfl⟩ := Prod.ext_iff.mp htaken
    have htakes : st.journal.refused.contains id = false :=
      hpasses.alike.refused.symm.trans htakes
    have hmoves := (σ.taking_moves loan' hrenamed.loanId_postings hrenamed.loanId_entries).trans
      (Books.expecting_moves _ id 0)
    rw [Written.append_nothing] at hmoves
    exact ⟨loan', r.rename f, ⟨h.filed, hloan, hrenamed, htakes⟩, ⟨h.filed, h.others, σ, summary,
      hbefore, hgoing, hturn, hmoves⟩, Table.find?_insert_self _ _ _,
      Table.find?_insert_self _ _ _⟩
  · rw [hpasses.expecting_self, hturn] at hledger
    exact absurd (congrArg Ledger.transactions hledger) hwritten

/-- The turns before that of the loan end alike however many writers are to come before its commits. -/
theorem InTurn.before {w : Written} {x : Except Failure LoanSummary} {m : UInt32}
    (h : t.InTurn c id pre rows w x (st.expecting id m) τ) (hkeys : (pre.map Prod.fst).Nodup)
    (n : UInt32) :
    ∃ σ summary, t.accrueGroups c pre .empty (st.expecting id n) = (σ, .ok summary) ∧
      c.requestedBefore id = false := by
  obtain ⟨σ₀, summary₀, hbefore, hgoing, -, -⟩ := h.turn
  have hfiled : (st.expecting id n).ledger.Filed := h.filed
  have hne : ∀ k ∈ pre.map Prod.fst, k ≠ id := fun k hk heq => h.others (heq ▸ hk)
  obtain ⟨σ, summary, hrun⟩ := accrueGroups_ok_of_alike hbefore h.filed hkeys hfiled
    (fun k hk => st.expecting_alike (hne k hk) m n) .empty
  exact ⟨σ, summary, hrun, hgoing⟩

end RunTerms
end LoanLedger
