import Mathlib.Data.Option.Basic
import LoanLedger.Ledger.Commit
import LoanLedger.Proofs.Accrual.Loan

/-!
What a commit does to a loan and to the ledger. An accepted commit settles the rows that it has
postings for, takes over the charges and raises the version; a commit that is refused leaves
everything but versions as it was.
-/

set_option autoImplicit false
set_option relaxedAutoImplicit false

namespace LoanLedger

namespace Loan

/-- A row after postings: it takes its totals from the posting that names it. -/
def settledBy (ps : List Posting) (row : ScheduleRow) : ScheduleRow :=
  match ps.find? fun p => p.totals.rowId == row.rowId with
  | some p => settle p.totals row
  | none => row

@[simp] theorem rowId_settle (totals : RowTotals) (row : ScheduleRow) :
    (settle totals row).rowId = row.rowId := rfl

@[simp] theorem rowId_settledBy (ps : List Posting) (row : ScheduleRow) :
    (settledBy ps row).rowId = row.rowId := by
  simp only [settledBy]
  split <;> rfl

theorem settledBy_singleton (p : Posting) (row : ScheduleRow) :
    settledBy [p] row = if row.rowId = p.totals.rowId then settle p.totals row else row := by
  by_cases hid : row.rowId = p.totals.rowId
  · simp [settledBy, hid]
  · simp [settledBy, hid, Ne.symm hid]

private theorem settleRows_eq_map {totals : RowTotals} {rows rows' : List ScheduleRow}
    (h : settleRows totals rows = some rows') (hrows : (rows.map (·.rowId)).Nodup) :
    rows' = rows.map fun row => if row.rowId = totals.rowId then settle totals row else row := by
  induction rows generalizing rows' with
  | nil => cases h
  | cons row rows ih =>
    obtain ⟨hrow, hrest⟩ := List.nodup_cons.mp hrows
    unfold settleRows at h
    split at h
    · next heq =>
      have hsame : (rows.map fun r => if r.rowId = totals.rowId then settle totals r else r) =
          rows := by
        conv_rhs => rw [← List.map_id' rows]
        refine List.map_congr_left fun r hr => if_neg fun hid => hrow ?_
        have hr := List.mem_map_of_mem (f := fun row : ScheduleRow => row.rowId) hr
        rwa [show r.rowId = row.rowId from hid.trans heq.symm] at hr
      rw [← Option.some.inj h, List.map_cons, if_pos heq, hsame]
    · next hne =>
      obtain ⟨rest, hsettle, rfl⟩ := Option.map_eq_some_iff.mp h
      rw [List.map_cons, if_neg hne, ih hsettle hrest]

/-- The first of several postings settles its row, and the others the other rows. -/
theorem settledBy_cons {p : Posting} {ps : List Posting}
    (hp : p.totals.rowId ∉ ps.map (·.totals.rowId)) (row : ScheduleRow) :
    settledBy ps (if row.rowId = p.totals.rowId then settle p.totals row else row) =
      settledBy (p :: ps) row := by
  simp only [settledBy]
  by_cases hid : row.rowId = p.totals.rowId
  · have hnone : ps.find? (fun q => q.totals.rowId == p.totals.rowId) = none := by
      apply List.find?_eq_none.mpr
      intro q hq hqp
      apply hp
      rw [← beq_iff_eq.mp hqp]
      exact List.mem_map_of_mem hq
    have hfound : (p :: ps).find? (fun q => q.totals.rowId == p.totals.rowId) = some p :=
      List.find?_cons_of_pos (beq_self_eq_true _)
    rw [if_pos hid, rowId_settle, hid, hnone, hfound]
  · rw [if_neg hid, List.find?_cons_of_neg]
    rw [beq_iff_eq]
    exact fun h => hid h.symm

/-- Writing postings for different rows settles each row once. -/
theorem foldlM_post {ps : List Posting} {loan loan' : Loan}
    (h : ps.foldlM post loan = .ok loan') (hrows : (loan.schedule.map (·.rowId)).Nodup)
    (hps : (ps.map (·.totals.rowId)).Nodup) :
    loan' = { loan with schedule := loan.schedule.map (settledBy ps) } := by
  induction ps generalizing loan with
  | nil =>
    rw [List.foldlM_nil, pure_eq_ok] at h
    rw [← h, show settledBy [] = fun row => row from rfl, List.map_id']
  | cons p ps ih =>
    obtain ⟨hp, hrest⟩ := List.nodup_cons.mp hps
    rw [List.foldlM_cons, bind_eq_ok] at h
    obtain ⟨mid, hmid, h⟩ := h
    simp only [post] at hmid
    split at hmid
    · next schedule hschedule =>
      have hmap := settleRows_eq_map hschedule hrows
      rw [← Except.ok.inj hmid] at h
      rw [ih h ?_ hrest]
      · dsimp only
        rw [hmap, List.map_map]
        congr 1
        exact List.map_congr_left fun row _ => settledBy_cons hp row
      · dsimp only
        rw [hmap, List.map_map]
        convert hrows using 2
        funext row
        dsimp only [Function.comp]
        split <;> rfl
    · cases hmid

theorem nextVersion_eq_ok {loan : Loan} {v : UInt64} (h : loan.nextVersion = .ok v) :
    v.toNat = loan.version.toNat + 1 := by
  simp only [nextVersion] at h
  split at h
  · next hlt =>
    rw [← Except.ok.inj h, UInt64.toNat_add]
    exact Nat.mod_eq_of_lt hlt
  · cases h

/-- An accepted commit, field by field. -/
theorem accept_eq_ok {loan loan' : Loan} {r : AccrualResult} (h : loan.accept r = .ok loan')
    (hrows : (loan.schedule.map (·.rowId)).Nodup) (hps : (r.postings.map (·.totals.rowId)).Nodup) :
    loan' = { loan with
      schedule := loan.schedule.map (settledBy r.postings)
      charges := r.charges
      accruedTill := r.accruedTill.or loan.accruedTill
      version := loan'.version } ∧ loan'.version.toNat = loan.version.toNat + 1 := by
  obtain ⟨posted, hposted, hrest⟩ := bind_eq_ok.mp h
  obtain ⟨version, hversion, hloan⟩ := bind_eq_ok.mp hrest
  have hposted := foldlM_post (lift_refusal_eq_ok.mp hposted) hrows hps
  have hversion := nextVersion_eq_ok (lift_fault_eq_ok.mp hversion)
  rw [← pure_eq_ok.mp hloan]
  rw [hposted] at hversion ⊢
  exact ⟨rfl, hversion⟩

/-- The same loan at a version that is not lower. -/
structure Reversioned (loan loan' : Loan) : Prop where
  same : loan' = { loan with version := loan'.version }
  version_le : loan.version.toNat ≤ loan'.version.toNat

theorem Reversioned.refl (loan : Loan) : loan.Reversioned loan := ⟨rfl, Nat.le_refl _⟩

theorem Reversioned.trans {loan loan' loan'' : Loan} (h : loan.Reversioned loan')
    (h' : loan'.Reversioned loan'') : loan.Reversioned loan'' :=
  ⟨by rw [h'.same, h.same], Nat.le_trans h.version_le h'.version_le⟩

end Loan

namespace Ledger

/-- A ledger in which at most the version of one loan has been raised. -/
structure Quiet (id : LoanId) (g g' : Ledger) : Prop where
  loan : ∀ loan, g.loans.find? id = some loan →
    ∃ loan', g'.loans.find? id = some loan' ∧ loan.Reversioned loan'
  noLoan : g.loans.find? id = none → g'.loans.find? id = none
  others : ∀ k, k ≠ id → g'.loans.find? k = g.loans.find? k
  transactions : g'.transactions = g.transactions
  payments : g'.payments = g.payments

theorem Quiet.of_eq {id : LoanId} {g g' : Ledger} (hloans : g'.loans = g.loans)
    (htransactions : g'.transactions = g.transactions) (hpayments : g'.payments = g.payments) :
    g.Quiet id g' where
  loan loan h := ⟨loan, hloans ▸ h, .refl loan⟩
  noLoan h := hloans ▸ h
  others _ _ := hloans ▸ rfl
  transactions := htransactions
  payments := hpayments

theorem Quiet.refl (id : LoanId) (g : Ledger) : g.Quiet id g := .of_eq rfl rfl rfl

/-- A writer that comes first raises the version of the loan and refuses the commit; otherwise the
ledger stays as it is, but for what is noted of writers. -/
theorem yieldToWriter_spec {g g' : Ledger} {id : LoanId} {r : Except Failure Unit}
    (h : g.yieldToWriter id = (g', r)) :
    g.Quiet id g' ∧ (r = .ok () → g' = g ∨ g.loans.find? id = none) := by
  unfold yieldToWriter at h
  split at h
  · cases h
    exact ⟨.refl id g, fun _ => .inl rfl⟩
  · split at h
    · cases h
      exact ⟨.refl id g, fun _ => .inl rfl⟩
    · dsimp only at h
      split at h
      · next hnone =>
        cases h
        exact ⟨.of_eq rfl rfl rfl, fun _ => .inr hnone⟩
      · next loan hloan =>
        split at h
        · cases h
          exact ⟨.of_eq rfl rfl rfl, fun hr => nomatch hr⟩
        · next version hversion =>
          cases h
          refine ⟨⟨?_, fun hnone => ?_, fun k hk => ?_, rfl, rfl⟩, fun hr => nomatch hr⟩
          · intro x hx
            rw [hloan] at hx
            cases hx
            refine ⟨_, Table.find?_insert_self _ _ _, rfl, ?_⟩
            rw [Loan.nextVersion_eq_ok hversion]
            exact Nat.le_succ _
          · rw [hloan] at hnone
            cases hnone
          · exact Table.find?_insert_of_ne _ hk _

/-- What a stored commit leaves: the accepted loan, and its transactions and payments at the end. -/
theorem stage_eq_ok {g g' : Ledger} {c : Commit} {v : UInt64} (h : g.stage c = .ok (g', v)) :
    ∃ loan loan', g.loans.find? c.loanId = some loan ∧ loan.version = c.expected ∧
      loan.accept c.result = .ok loan' ∧ v = loan'.version ∧
      g' = { g with
        loans := g.loans.insert c.loanId loan'
        transactions := g.transactions ++ c.result.postings.map (·.transaction)
        payments := g.payments ++ c.result.postings.flatMap (·.payments) } := by
  obtain ⟨loan, hloan, hrest⟩ := bind_eq_ok.mp h
  have hloan : g.loans.find? c.loanId = some loan := by
    have hfound := lift_refusal_eq_ok.mp hloan
    simp only [Ledger.loan] at hfound
    split at hfound
    · next x hx => rw [hx, Except.ok.inj hfound]
    · cases hfound
  dsimp only at hrest
  split at hrest
  · cases hrest
  · next hversion =>
    obtain ⟨loan', hloan', hg⟩ := bind_eq_ok.mp hrest
    have hg := pure_eq_ok.mp hg
    exact ⟨loan, loan', hloan, not_not.mp hversion, hloan', congrArg Prod.snd hg.symm,
      congrArg Prod.fst hg.symm⟩

end Ledger

namespace Journal

theorem bookAll_of_not_refused {j : Journal} {id : LoanId} {es : List JournalEntry}
    (hes : ∀ e ∈ es, e.loanId = id) (hj : ¬j.refused.contains id = true) :
    j.bookAll es = ({ j with entries := j.entries ++ es }, .ok ()) := by
  induction es generalizing j with
  | nil => rw [bookAll, List.append_nil]
  | cons e es ih =>
    obtain ⟨he, hrest⟩ := List.forall_mem_cons.mp hes
    have hbook : j.book e = .ok { j with entries := j.entries ++ [e] } := by
      rw [book, he, if_neg hj]
    have hstep : ({ j with entries := j.entries ++ [e] } : Journal).bookAll es = _ :=
      ih hrest hj
    rw [bookAll, hbook]
    dsimp only at hstep ⊢
    rw [hstep, List.append_assoc, List.singleton_append]

theorem bookAll_of_refused {j : Journal} {id : LoanId} {es : List JournalEntry}
    (hes : ∀ e ∈ es, e.loanId = id) (hj : j.refused.contains id = true) (hne : es ≠ []) :
    j.bookAll es = (j, .error (.storage "journal unavailable")) := by
  obtain ⟨e, es, rfl⟩ := List.exists_cons_of_ne_nil hne
  have hbook : j.book e = .error (.storage "journal unavailable") := by
    rw [book, hes e List.mem_cons_self, if_pos hj]
  rw [bookAll, hbook]

/-- Entries of one loan are booked all together, or the journal refuses the first of them. -/
theorem bookAll_spec {j j' : Journal} {id : LoanId} {es : List JournalEntry}
    {r : Except Refusal Unit} (h : j.bookAll es = (j', r)) (hes : ∀ e ∈ es, e.loanId = id) :
    (j' = j ∧ ∃ f, r = .error f) ∨ (j' = { j with entries := j.entries ++ es } ∧ r = .ok ()) := by
  by_cases hj : j.refused.contains id = true
  · by_cases hne : es = []
    · subst hne
      cases h
      exact .inr ⟨by rw [List.append_nil], rfl⟩
    · rw [bookAll_of_refused hes hj hne] at h
      cases h
      exact .inl ⟨rfl, _, rfl⟩
  · rw [bookAll_of_not_refused hes hj] at h
    cases h
    exact .inr ⟨rfl, rfl⟩

end Journal

namespace Ledger

/-- A commit is either refused, with nothing written but a version, or the ledger takes the results
and the journal takes their entries. -/
theorem commit_spec {g g' : Ledger} {j j' : Journal} {c : Commit} {r : Except Failure UInt64}
    (h : g.commit j c = ((g', j'), r)) (hentries : ∀ e ∈ c.result.entries, e.loanId = c.loanId) :
    (g.Quiet c.loanId g' ∧ j' = j ∧ ∃ f, r = .error f) ∨
      (∃ loan loan', g.loans.find? c.loanId = some loan ∧ loan.version = c.expected ∧
        loan.accept c.result = .ok loan' ∧
        g' = { g with
          loans := g.loans.insert c.loanId loan'
          transactions := g.transactions ++ c.result.postings.map (·.transaction)
          payments := g.payments ++ c.result.postings.flatMap (·.payments) } ∧
        j' = { j with entries := j.entries ++ c.result.entries } ∧ r = .ok loan'.version) := by
  simp only [commit] at h
  -- A writer that commits in between, then the staging, then the bookings: each can end the commit.
  split at h
  · next g₁ f hyield =>
    cases h
    exact .inl ⟨(yieldToWriter_spec hyield).1, rfl, f, rfl⟩
  · next g₁ hyield =>
    obtain ⟨hquiet, hsame⟩ := yieldToWriter_spec hyield
    split at h
    · next f _ =>
      cases h
      exact .inl ⟨hquiet, rfl, f, rfl⟩
    · next staged version hstage =>
      obtain ⟨loan, loan', hloan, hversion, haccept, rfl, rfl⟩ := stage_eq_ok hstage
      split at h
      · next j₁ f hbook =>
        rcases Journal.bookAll_spec hbook hentries with ⟨rfl, -⟩ | ⟨-, hr⟩
        · cases h
          exact .inl ⟨hquiet, rfl, _, rfl⟩
        · cases hr
      · next j₁ hbook =>
        rcases Journal.bookAll_spec hbook hentries with ⟨-, f, hf⟩ | ⟨rfl, -⟩
        · cases hf
        · cases h
          rcases hsame rfl with rfl | hnone
          · exact .inr ⟨loan, loan', hloan, hversion, haccept, rfl, rfl, rfl⟩
          · rw [hquiet.noLoan hnone] at hloan
            cases hloan

end Ledger
end LoanLedger
