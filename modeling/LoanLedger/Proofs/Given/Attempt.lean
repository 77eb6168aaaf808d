import LoanLedger.Proofs.Conflict.Run

/-!
One attempt at a loan, on any rows and whatever is stored. What the loan has to commit depends on the
rows and on the loan, not on its version; whether it is committed depends on whether another writer is
pending, on the schedule of the loan and on the journal.
-/

set_option autoImplicit false
set_option relaxedAutoImplicit false

namespace LoanLedger

/-- No fresh look at the loan would help. -/
def Failure.isFinal : Failure → Bool
  | .refusal r => !r.isRetryable
  | .fault _ => true

namespace Books

/-- How many other writers are going to come before the next commits of a loan. -/
def pending (b : Books) (id : LoanId) : UInt32 := (b.ledger.conflicts.find? id).getD 0

variable {b b' : Books} {id : LoanId}

@[simp] theorem pending_expecting (b : Books) (id : LoanId) (n : UInt32) :
    (b.expecting id n).pending id = n := by
  rw [pending, expecting, Ledger.expectConflicts, Table.find?_insert_self, Option.getD_some]

theorem Alike.pending (h : b.Alike id b') : b'.pending id = b.pending id := by
  rw [Books.pending, Books.pending, h.ledger.conflicts]

theorem expecting_pending (h : b.pending id ≠ 0) : b.expecting id (b.pending id) = b := by
  apply expecting_self
  unfold pending at h ⊢
  cases hfound : b.ledger.conflicts.find? id with
  | none =>
    rw [hfound] at h
    exact absurd rfl h
  | some n => rfl

end Books

namespace Ledger

variable {g : Ledger} {id : LoanId} {loan : Loan}

private theorem mem_of_lookup {es : List (LoanId × Loan)} (h : es.lookup id = some loan) :
    (id, loan) ∈ es := by
  obtain ⟨before, after, rfl, -⟩ := List.lookup_eq_some_iff.mp h
  exact List.mem_append_right _ List.mem_cons_self

private theorem flatMap_insertInto {α : Type} {f : Loan → List α} {p : Loan → Bool} {loan' : Loan}
    {es : List (LoanId × Loan)} (hes : es.Pairwise fun a b => a.1 < b.1)
    (h : es.lookup id = some loan) (hp : p loan' = p loan) (hf : f loan' = f loan) :
    (((Table.insertInto id loan' es).map Prod.snd).filter p).flatMap f =
      ((es.map Prod.snd).filter p).flatMap f := by
  induction es with
  | nil => cases h
  | cons e es ih =>
    obtain ⟨k, d⟩ := e
    rw [Table.insertInto]
    by_cases hk : id = k
    · subst hk
      rw [List.lookup_cons_self] at h
      obtain rfl := Option.some.inj h
      rw [if_pos rfl, List.map_cons, List.map_cons, List.filter_cons, List.filter_cons, hp]
      split
      · rw [List.flatMap_cons, List.flatMap_cons, hf]
      · rfl
    · obtain ⟨hfirst, hes⟩ := List.pairwise_cons.mp hes
      rw [List.lookup_cons, beq_false_of_ne hk] at h
      -- the loan is filed further on, so its place is not before this one
      have hlt : ¬id < k := fun hlt =>
        Int64.lt_irrefl (Int64.lt_trans hlt (hfirst _ (mem_of_lookup h)))
      rw [if_neg hk, if_neg hlt, List.map_cons, List.map_cons, List.filter_cons, List.filter_cons]
      split
      · rw [List.flatMap_cons, List.flatMap_cons, ih hes h]
      · exact ih hes h

/-- Another writer does not change what is read as candidate rows. -/
theorem candidates_reversioned {g' : Ledger} {v : UInt64} (hloan : g.loans.find? id = some loan)
    (hloans : g'.loans = g.loans.insert id { loan with version := v }) (only : Option LoanId)
    (mode : RunMode) (today : Date) : g'.candidates only mode today = g.candidates only mode today := by
  rw [candidates, candidates, hloans]
  exact flatMap_insertInto g.loans.ascending hloan rfl rfl

end Ledger

private theorem Loan.foldlM_post_final {ps : List Posting} {loan : Loan} {refusal : Refusal}
    (h : ps.foldlM post loan = .error refusal) : refusal.isRetryable = false := by
  induction ps generalizing loan with
  | nil => cases h
  | cons p ps ih =>
    rw [List.foldlM_cons, post] at h
    cases hrows : settleRows p.totals loan.schedule with
    | some rows =>
      rw [hrows] at h
      exact ih h
    | none =>
      rw [hrows] at h
      cases h
      rfl

/-- A result that a loan does not accept is refused for good. -/
theorem Loan.accept_isFinal {loan : Loan} {r : AccrualResult} {f : Failure}
    (h : loan.accept r = .error f) : f.isFinal = true := by
  rw [accept] at h
  cases hposted : r.postings.foldlM post loan with
  | error refusal =>
    rw [hposted] at h
    cases h
    rw [Failure.isFinal, foldlM_post_final hposted]
    rfl
  | ok posted =>
    rw [hposted] at h
    cases hversion : posted.nextVersion with
    | error fault =>
      simp only [liftM, monadLift, MonadLift.monadLift, bind, Except.bind, hversion] at h
      cases h
      rfl
    | ok version =>
      simp only [liftM, monadLift, MonadLift.monadLift, bind, Except.bind, hversion] at h
      cases h

theorem Loan.accept_of_no_room {loan : Loan} {r : AccrualResult} (h : loan.Holds r.postings)
    (hroom : ¬loan.version.toNat + 1 < UInt64.size) : ∃ f, loan.accept r = .error (.fault f) := by
  have hversion : ({ loan with schedule := settled r.postings loan.schedule } : Loan).nextVersion =
      .error .countOverflow := if_neg hroom
  refine ⟨.countOverflow, ?_⟩
  rw [accept, foldlM_post_of_holds h]
  change (liftM (Loan.nextVersion _) >>= _ : Except Failure Loan) = _
  rw [hversion]
  rfl

private theorem AccrualInput.validate_final {input : AccrualInput} {refusal : Refusal}
    (h : input.validate = .error refusal) : refusal.isRetryable = false := by
  rw [validate] at h
  split at h
  · next found hfound =>
    cases h
    obtain ⟨row, -, hrow⟩ := List.exists_of_findSome?_eq_some hfound
    rw [objection?] at hrow
    split at hrow
    · cases hrow
      rfl
    · split at hrow
      · cases hrow
        rfl
      · cases hrow
  · cases h

/-- An accrual that is refused is not tried again. -/
theorem AccrualInput.accrue_isFinal {input : AccrualInput} {mode : RunMode} {s : Settings}
    {today : Date} {n : Nat} {f : Failure} (h : input.accrue mode s today n = .error f) :
    f.isFinal = true := by
  rw [accrue] at h
  cases hvalid : input.validate with
  | error refusal =>
    rw [hvalid] at h
    cases h
    rw [Failure.isFinal, validate_final hvalid]
    rfl
  | ok u =>
    rw [hvalid] at h
    cases hrows : input.accrueRows mode s today n with
    | error fault =>
      rw [hrows] at h
      cases h
      rfl
    | ok g =>
      rw [hrows] at h
      cases h

namespace RunTerms

variable (t : RunTerms) (id : LoanId)

/-- What a loan has to commit on the given rows, with its transactions numbered from `n` on. -/
def due? (n : Nat) (loan : Loan) (rows : List ScheduleRow) : Option AccrualResult :=
  if loan.status.isActive then
    match (loan.inputOn id rows).accrue t.mode t.settings t.today n with
    | .ok r => if r.isEmpty then none else some r
    | .error _ => none
  else none

variable {t id} {n : Nat} {loan loan' : Loan} {rows : List ScheduleRow} {r : AccrualResult}
  {st st' : Books} {x : Except Failure LoanSummary}

theorem due?_eq_some : t.due? id n loan rows = some r ↔ loan.status.isActive = true ∧
    (loan.inputOn id rows).accrue t.mode t.settings t.today n = .ok r ∧ r.postings ≠ [] := by
  rw [due?]
  cases hactive : loan.status.isActive with
  | false => simp
  | true =>
    cases hresult : (loan.inputOn id rows).accrue t.mode t.settings t.today n with
    | error f => simp
    | ok result =>
      simp only [if_true, true_and, Except.ok.injEq]
      constructor
      · intro h
        split at h
        · cases h
        · next hne =>
          obtain rfl := Option.some.inj h
          exact ⟨rfl, fun hnil => hne (List.isEmpty_iff.mpr hnil)⟩
      · rintro ⟨rfl, hne⟩
        exact if_neg fun hempty => hne (List.isEmpty_iff.mp hempty)

/-- The first transaction number does not matter to what a loan has to commit, but for the names of
transactions. -/
theorem due?_renumber (t : RunTerms) (id : LoanId) (n m : Nat) (loan : Loan)
    (rows : List ScheduleRow) :
    ∃ f, Function.Bijective f ∧
      t.due? id m loan rows = (t.due? id n loan rows).map (.rename f) := by
  obtain ⟨f, hf, hm⟩ := (loan.inputOn id rows).accrue_renumber t.settings t.today t.mode n m
  refine ⟨f, hf, ?_⟩
  rw [due?, due?, hm]
  cases loan.status.isActive with
  | false => rfl
  | true =>
    cases (loan.inputOn id rows).accrue t.mode t.settings t.today n with
    | error failure => rfl
    | ok r =>
      have hempty : (r.rename f).isEmpty = r.isEmpty := List.isEmpty_map
      simp only [Functor.map, Except.map, if_true, hempty]
      cases r.isEmpty <;> rfl

theorem loanId_postings_of_due (h : t.due? id n loan rows = some r) :
    ∀ p ∈ r.postings, p.transaction.loanId = id := by
  intro p hp
  exact AccrualInput.accrue_loanId (due?_eq_some.mp h).2.1 hp

theorem loanId_entries_of_due (h : t.due? id n loan rows = some r) :
    ∀ e ∈ r.entries, e.loanId = id := by
  intro e he
  exact AccrualInput.loanId_of_mem_entries (due?_eq_some.mp h).2.1 he

theorem entries_nonempty_of_due (h : t.due? id n loan rows = some r) : r.entries ≠ [] := by
  obtain ⟨-, hresult, hne⟩ := due?_eq_some.mp h
  intro hnil
  have hrecords := AccrualInput.accrue_entries hresult
  rw [hnil, List.forall₂_nil_right_iff] at hrecords
  exact hne hrecords

theorem accrueOnce_of_due (hloan : st.ledger.loans.find? id = some loan)
    (h : t.due? id st.nextId loan rows = some r) :
    t.accrueOnce id rows st = conclude id loan.version r st := by
  obtain ⟨hactive, hresult, -⟩ := due?_eq_some.mp h
  exact accrueOnce_of_result hloan hactive hresult

/-- An attempt at a loan that has nothing to commit ends there, for good. -/
theorem accrueOnce_of_not_due (h : t.accrueOnce id rows st = (st', x))
    (hnone : ∀ loan, st.ledger.loans.find? id = some loan →
      t.due? id st.nextId loan rows = none) :
    st' = st ∧ (x = .ok (.nothing id) ∨ ∃ f, x = .error f ∧ f.isFinal = true) := by
  have hnot : ∀ {loan result}, st.ledger.loans.find? id = some loan →
      loan.status.isActive = true →
      (loan.inputOn id rows).accrue t.mode t.settings t.today st.nextId = .ok result →
      result.postings ≠ [] → False := by
    intro loan result hloan hactive hresult hne
    have hdue := due?_eq_some.mpr ⟨hactive, hresult, hne⟩
    rw [hnone loan hloan] at hdue
    cases hdue
  cases accrueOnce_attempted h with
  | missing => exact ⟨rfl, .inr ⟨_, rfl, rfl⟩⟩
  | inactive | idles => exact ⟨rfl, .inl rfl⟩
  | fails hloan hactive hfails =>
    exact ⟨rfl, .inr ⟨_, rfl, AccrualInput.accrue_isFinal hfails⟩⟩
  | refused hloan hactive hresult hne => exact (hnot hloan hactive hresult hne).elim
  | commits hloan hactive hresult hne => exact (hnot hloan hactive hresult hne).elim

/-- Other writers have come before the commit of an attempt: it is refused, to be made again, unless
the version of the loan has no successor. -/
theorem conclude_of_pending (hloan : st.ledger.loans.find? id = some loan)
    (hpending : st.pending id ≠ 0) (hne : r.postings ≠ [])
    (h : conclude id loan.version r st = (st', x)) :
    (∃ v, loan.nextVersion = .ok v ∧
      st' = (st.overtaken id { loan with version := v } r.postings.length).expecting id
        (st.pending id - 1) ∧ x = refuse (.concurrencyConflict id loan.version v)) ∨
    (∃ f, st' = ({ st with nextId := st.nextId + r.postings.length } : Books).expecting id
      (st.pending id - 1) ∧ x = .error (.fault f)) := by
  obtain ⟨n, hn⟩ : ∃ n, st.pending id = n := ⟨_, rfl⟩
  have hself : st.expecting id n = st := by
    rw [← hn, Books.expecting_pending hpending]
  rw [hn] at hpending ⊢
  cases hversion : loan.nextVersion with
  | ok v =>
    have hconflict : conclude id loan.version r (st.expecting id n) = _ :=
      conclude_of_conflict hpending hloan hversion hne
    rw [hself, h] at hconflict
    obtain ⟨rfl, rfl⟩ := Prod.ext_iff.mp hconflict
    exact .inl ⟨v, rfl, rfl, rfl⟩
  | error f =>
    have hyield : (st.ledger.expectConflicts id n).yieldToWriter id =
        (st.ledger.expectConflicts id (n - 1), .error (.fault f)) := by
      simp only [Ledger.yieldToWriter, Ledger.expectConflicts, Table.find?_insert_self, hpending,
        if_false, hloan, hversion, Table.insert_insert]
    rw [← hself] at h
    simp only [conclude, isEmpty_eq_false hne, Bool.false_eq_true, if_false, Books.expecting,
      Books.commit, Ledger.commit, hyield] at h
    obtain ⟨rfl, rfl⟩ := Prod.ext_iff.mp h
    exact .inr ⟨f, rfl, rfl⟩

/-- No other writer comes before the commit of an attempt: the loan and the journal take the result, or
it is refused for good with nothing written. -/
theorem conclude_of_free (hloan : st.ledger.loans.find? id = some loan)
    (hpending : st.pending id = 0) (hne : r.postings ≠ []) (hbooked : r.entries ≠ [])
    (hentries : ∀ e ∈ r.entries, e.loanId = id) (h : conclude id loan.version r st = (st', x)) :
    (∃ loan', loan.accept r = .ok loan' ∧ st.journal.refused.contains id = false ∧
      st' = st.taking id loan' r ∧ x = summed id r) ∨
    (st' = { st with nextId := st.nextId + r.postings.length } ∧
      ∃ f, x = .error f ∧ f.isFinal = true ∧ ((∀ g, f ≠ .fault g) →
        ¬(loan.Holds r.postings ∧ st.journal.refused.contains id = false))) := by
  have hyield : st.ledger.yieldToWriter id = (st.ledger, .ok ()) := by
    rw [Books.pending] at hpending
    rw [Ledger.yieldToWriter]
    cases hfound : st.ledger.conflicts.find? id with
    | none => rfl
    | some n =>
      rw [hfound, Option.getD_some] at hpending
      dsimp only
      rw [if_pos hpending]
  cases haccept : loan.accept r with
  | error f =>
    rw [conclude_of_not_accepted hyield hloan hne haccept] at h
    obtain ⟨rfl, rfl⟩ := Prod.ext_iff.mp h
    refine .inr ⟨rfl, f, rfl, Loan.accept_isFinal haccept, fun hfault => ?_⟩
    rintro ⟨hholds, -⟩
    by_cases hroom : loan.version.toNat + 1 < UInt64.size
    · rw [Loan.accept_of_holds hholds hroom] at haccept
      cases haccept
    · obtain ⟨g, hg⟩ := Loan.accept_of_no_room hholds hroom
      rw [hg] at haccept
      cases haccept
      exact hfault g rfl
  | ok loan' =>
    rcases conclude_of_accepted hyield hloan hne haccept hbooked hentries with
      ⟨htakes, htaken⟩ | ⟨hrefused, message, hconclude⟩
    · rw [htaken] at h
      obtain ⟨rfl, rfl⟩ := Prod.ext_iff.mp h
      exact .inl ⟨loan', rfl, htakes, rfl, rfl⟩
    · rw [hconclude] at h
      obtain ⟨rfl, rfl⟩ := Prod.ext_iff.mp h
      refine .inr ⟨rfl, _, rfl, rfl, fun _ => ?_⟩
      rintro ⟨-, htakes⟩
      rw [hrefused] at htakes
      cases htakes

end RunTerms
end LoanLedger
