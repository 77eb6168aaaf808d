import LoanLedger.Proofs.Isolation.Turn

/-!
The turn of a loan that other writers come before. Each of them raises the version of the loan and
costs the turn one attempt; the first attempt that none precedes commits what it would have committed
without them, but for the names of transactions. A turn makes only so many attempts, and with more
writers than that it fails without writing anything.
-/

set_option autoImplicit false
set_option relaxedAutoImplicit false

namespace LoanLedger

theorem Table.insert_insert {α : Type} (t : Table α) (id : LoanId) (a b : α) :
    (t.insert id a).insert id b = t.insert id b := by
  refine ext_find? fun k => ?_
  by_cases hk : k = id
  · rw [hk, find?_insert_self, find?_insert_self]
  · rw [find?_insert_of_ne _ hk, find?_insert_of_ne _ hk, find?_insert_of_ne _ hk]

theorem Table.insert_eq_self {α : Type} {t : Table α} {id : LoanId} {a : α}
    (h : t.find? id = some a) : t.insert id a = t := by
  refine ext_find? fun k => ?_
  by_cases hk : k = id
  · rw [hk, find?_insert_self, h]
  · rw [find?_insert_of_ne _ hk]

namespace Books

/-- The books, with other writers to come before the next `n` commits of a loan. -/
def expecting (b : Books) (id : LoanId) (n : UInt32) : Books :=
  { b with ledger := b.ledger.expectConflicts id n }

/-- The books once another writer has put a loan, and `n` transaction numbers were drawn for it. -/
def overtaken (b : Books) (id : LoanId) (loan : Loan) (n : Nat) : Books :=
  { b with
    ledger := { b.ledger with loans := b.ledger.loans.insert id loan }
    nextId := b.nextId + n }

/-- The books once a result was committed, with the loan that it leaves, and announced. -/
def taking (b : Books) (id : LoanId) (loan : Loan) (r : AccrualResult) : Books where
  ledger :=
    { b.ledger with
      loans := b.ledger.loans.insert id loan
      transactions := b.ledger.transactions ++ r.postings.map (·.transaction)
      payments := b.ledger.payments ++ r.postings.flatMap (·.payments) }
  journal := { b.journal with entries := b.journal.entries ++ r.entries }
  events := b.events ++ r.events id
  nextId := b.nextId + r.postings.length

variable {b : Books} {id : LoanId}

theorem expecting_self {n : UInt32} (h : b.ledger.conflicts.find? id = some n) :
    b.expecting id n = b := by
  simp only [expecting, Ledger.expectConflicts, Table.insert_eq_self h]

end Books

/-- A version that was raised changes neither what a loan owes nor whether it accepts it. -/
theorem RunTerms.Posts.reversioned {t : RunTerms} {id : LoanId} {rows : List ScheduleRow}
    {loan loan' : Loan} {r : AccrualResult} {v : UInt64} (h : t.Posts id rows loan loan' r)
    (hroom : v.toNat + 1 < UInt64.size) :
    t.Posts id rows { loan with version := v } { loan' with version := v + 1 } r where
  active := h.active
  result := h.result
  nonempty := h.nonempty
  accepted := by
    have hholds : loan.Holds r.postings := by
      by_contra hnot
      obtain ⟨refusal, hrefused⟩ := Loan.accept_of_not_holds hnot
      cases hrefused.symm.trans h.accepted
    have hholds : ({ loan with version := v } : Loan).Holds r.postings := hholds
    rw [Loan.accept_of_holds hholds hroom, (Loan.eq_taking_of_accept h.accepted).1]
    rfl

/-- A loan that posts something in its turn had something to post at the version that it had before. -/
theorem Loan.Turn.exists_posts {t : RunTerms} {id : LoanId} {loan loan' : Loan} {ok : Bool}
    {log : List Posting} (h : loan.Turn t id loan' ok log) (hlog : log ≠ [])
    (hroom : loan.version.toNat + 1 < UInt64.size) :
    ∃ loan' r, t.Posts id (t.fresh loan) loan loan' r := by
  cases h with
  | fails => exact absurd rfl hlog
  | idles => exact absurd rfl hlog
  | @posts mid r _ hwaits hposts =>
    have hmid : ({ mid with version := loan.version } : Loan) = loan := by
      rw [hwaits.reversioned.same]
    have hfresh : t.fresh mid = t.fresh loan := by
      rw [hwaits.reversioned.same]
      rfl
    rw [hfresh] at hposts
    exact ⟨_, r, hmid ▸ hposts.reversioned hroom⟩

namespace RunTerms

variable {t : RunTerms} {id : LoanId} {rows : List ScheduleRow} {st : Books}
  {loan loan' : Loan} {r : AccrualResult}

theorem accrueOnce_of_result (hloan : st.ledger.loans.find? id = some loan)
    (hactive : loan.status.isActive = true)
    (hresult : (loan.inputOn id rows).accrue t.mode t.settings t.today st.nextId = .ok r) :
    t.accrueOnce id rows st = conclude id loan.version r st := by
  rw [accrueOnce_eq, hloan]
  dsimp only
  rw [if_pos hactive, hresult]

theorem isEmpty_eq_false (hne : r.postings ≠ []) : r.isEmpty = false := by
  rw [AccrualResult.isEmpty, Bool.eq_false_iff]
  exact fun hnil => hne (List.isEmpty_iff.mp hnil)

/-- A commit that another writer precedes is refused. -/
theorem conclude_of_conflict {n : UInt32} {version v : UInt64} (hn : n ≠ 0)
    (hloan : st.ledger.loans.find? id = some loan) (hv : loan.nextVersion = .ok v)
    (hne : r.postings ≠ []) :
    conclude id version r (st.expecting id n) =
      ((st.overtaken id { loan with version := v } r.postings.length).expecting id (n - 1),
        refuse (.concurrencyConflict id loan.version v)) := by
  have hyield : (st.ledger.expectConflicts id n).yieldToWriter id =
      (({ st.ledger with
        loans := st.ledger.loans.insert id { loan with version := v } } :
          Ledger).expectConflicts id (n - 1),
        refuse (.concurrencyConflict id loan.version v)) := by
    simp only [Ledger.yieldToWriter, Ledger.expectConflicts, Table.find?_insert_self, hn, if_false,
      hloan, hv, Table.insert_insert]
  simp only [conclude, isEmpty_eq_false hne, Bool.false_eq_true, if_false, Books.expecting,
    Books.commit, Ledger.commit, hyield]
  rfl

section Undisturbed

variable (hyield : st.ledger.yieldToWriter id = (st.ledger, .ok ()))
  (hloan : st.ledger.loans.find? id = some loan) (hne : r.postings ≠ [])

include hyield hloan hne

/-- A commit that the loan does not accept draws its transaction numbers and writes nothing. -/
theorem conclude_of_not_accepted {f : Failure} (haccept : loan.accept r = .error f) :
    conclude id loan.version r st =
      ({ st with nextId := st.nextId + r.postings.length }, .error f) := by
  have hstage : st.ledger.stage ⟨id, loan.version, r⟩ = .error f := by
    rw [Ledger.stage, Ledger.loan_of_find? hloan]
    simp only [liftM, monadLift, MonadLift.monadLift, bind, Except.bind, ne_eq, not_true_eq_false,
      if_false, haccept]
  simp only [conclude, isEmpty_eq_false hne, Bool.false_eq_true, if_false, Books.commit,
    Ledger.commit, hyield, hstage]

/-- A commit that the loan accepts goes by the journal: it is taken and announced, or refused with
nothing written. -/
theorem conclude_of_accepted (haccept : loan.accept r = .ok loan') (hbooked : r.entries ≠ [])
    (hentries : ∀ e ∈ r.entries, e.loanId = id) :
    (st.journal.refused.contains id = false ∧
      conclude id loan.version r st = (st.taking id loan' r, summed id r)) ∨
    (st.journal.refused.contains id = true ∧ ∃ message, conclude id loan.version r st =
      ({ st with nextId := st.nextId + r.postings.length },
        refuse (.journalPosting id message))) := by
  have hstage : st.ledger.stage ⟨id, loan.version, r⟩ =
      .ok ((st.taking id loan' r).ledger, loan'.version) := by
    refine bind_eq_ok.mpr ⟨loan, lift_refusal_eq_ok.mpr (Ledger.loan_of_find? hloan), ?_⟩
    dsimp only
    rw [if_neg (not_not.mpr rfl)]
    exact bind_eq_ok.mpr ⟨loan', haccept, rfl⟩
  simp only [conclude, isEmpty_eq_false hne, Bool.false_eq_true, if_false, Books.commit,
    Ledger.commit, hyield, hstage]
  by_cases hj : st.journal.refused.contains id = true
  · rw [Journal.bookAll_of_refused hentries hj hbooked]
    exact .inr ⟨hj, _, rfl⟩
  · rw [Journal.bookAll_of_not_refused hentries hj]
    refine .inl ⟨Bool.eq_false_iff.mpr hj, ?_⟩
    simp only [Books.announce, summed]
    cases Money.sum (r.postings.map (·.transaction.amount)) <;> rfl

end Undisturbed

/-- A commit that no other writer precedes any more. -/
theorem conclude_of_none (hloan : st.ledger.loans.find? id = some loan)
    (haccept : loan.accept r = .ok loan') (hne : r.postings ≠ []) (hbooked : r.entries ≠ [])
    (hentries : ∀ e ∈ r.entries, e.loanId = id) :
    (st.journal.refused.contains id = false ∧
      conclude id loan.version r (st.expecting id 0) =
        ((st.taking id loan' r).expecting id 0, summed id r)) ∨
    (st.journal.refused.contains id = true ∧
      ∃ message, conclude id loan.version r (st.expecting id 0) =
        (({ st with nextId := st.nextId + r.postings.length } : Books).expecting id 0,
          refuse (.journalPosting id message))) := by
  have hyield : (st.expecting id 0).ledger.yieldToWriter id =
      ((st.expecting id 0).ledger, .ok ()) := by
    simp only [Books.expecting, Ledger.yieldToWriter, Ledger.expectConflicts,
      Table.find?_insert_self, if_true]
  exact conclude_of_accepted hyield hloan hne haccept hbooked hentries

end RunTerms

/-- A loan with a result to commit, which the journal takes. -/
structure Books.Ready (t : RunTerms) (id : LoanId) (loan loan' : Loan) (r : AccrualResult)
    (st : Books) : Prop where
  filed : st.ledger.Filed
  found : st.ledger.loans.find? id = some loan
  posts : t.Posts id (t.fresh loan) loan loan' r
  takes : st.journal.refused.contains id = false

namespace RunTerms

variable {t : RunTerms} {id : LoanId} {rows : List ScheduleRow} {st : Books}
  {loan loan' : Loan} {r : AccrualResult}

/-- The transactions of a result may be numbered from any number on. -/
theorem Posts.result_from (h : t.Posts id rows loan loan' r) (n : Nat) :
    ∃ f, Function.Bijective f ∧
      (loan.inputOn id rows).accrue t.mode t.settings t.today n = .ok (r.rename f) ∧
      t.Posts id rows loan loan' (r.rename f) := by
  obtain ⟨k, hresult⟩ := h.result
  obtain ⟨f, hf, hrenamed⟩ := AccrualInput.accrue_renumbered _ _ _ hresult n
  refine ⟨f, hf, hrenamed, h.active, ⟨n, hrenamed⟩, ?_, ?_⟩
  · exact fun hnil => h.nonempty (List.map_eq_nil_iff.mp hnil)
  · exact (loan.accept_rename f r).trans h.accepted

theorem Posts.loanId_postings (h : t.Posts id rows loan loan' r) :
    ∀ p ∈ r.postings, p.transaction.loanId = id := by
  obtain ⟨n, hresult⟩ := h.result
  exact fun p hp => AccrualInput.accrue_loanId hresult hp

theorem Posts.loanId_entries (h : t.Posts id rows loan loan' r) :
    ∀ e ∈ r.entries, e.loanId = id := by
  obtain ⟨n, hresult⟩ := h.result
  exact fun e he => AccrualInput.loanId_of_mem_entries hresult he

theorem Posts.entries_nonempty (h : t.Posts id rows loan loan' r) : r.entries ≠ [] := by
  obtain ⟨n, hresult⟩ := h.result
  intro hnil
  have hrecords := AccrualInput.accrue_entries hresult
  rw [hnil, List.forall₂_nil_right_iff] at hrecords
  exact h.nonempty hrecords

/-- The turn of a loan that no other writer comes before: its first attempt is the last. -/
theorem accrueLoan_of_none (hloan : st.ledger.loans.find? id = some loan)
    (hposts : t.Posts id rows loan loan' r) (tries attempt : Nat) :
    (st.journal.refused.contains id = false ∧ ∃ f, Function.Bijective f ∧
      t.Posts id rows loan loan' (r.rename f) ∧
      t.accrueLoan id tries attempt rows (st.expecting id 0) =
        ((st.taking id loan' (r.rename f)).expecting id 0,
          (fun s => { s with attempts := attempt }) <$> summed id (r.rename f))) ∨
    (st.journal.refused.contains id = true ∧
      (t.accrueLoan id tries attempt rows (st.expecting id 0)).1.ledger =
        (st.expecting id 0).ledger) := by
  obtain ⟨f, hf, hresult, hrenamed⟩ := hposts.result_from st.nextId
  have hattempt : t.accrueOnce id rows (st.expecting id 0) =
      conclude id loan.version (r.rename f) (st.expecting id 0) :=
    accrueOnce_of_result hloan hposts.active hresult
  unfold accrueLoan
  rw [hattempt]
  rcases conclude_of_none hloan hrenamed.accepted hrenamed.nonempty hrenamed.entries_nonempty
    hrenamed.loanId_entries with ⟨htakes, htaken⟩ | ⟨hrefused, message, hconclude⟩
  · refine .inl ⟨htakes, f, hf, hrenamed, ?_⟩
    rw [htaken]
    simp only [summed]
    cases Money.sum ((r.rename f).postings.map (·.transaction.amount)) <;> rfl
  · refine .inr ⟨hrefused, ?_⟩
    rw [hconclude]
    rfl

end RunTerms

namespace Books

variable {t : RunTerms} {id : LoanId} {st : Books} {loan loan' : Loan} {r : AccrualResult}

theorem filed_overtaken {v : UInt64} (hg : st.ledger.Filed)
    (hloan : st.ledger.loans.find? id = some loan) (n : Nat) :
    (st.overtaken id { loan with version := v } n).ledger.Filed := by
  intro k found hfound
  by_cases hk : k = id
  · subst hk
    cases (Table.find?_insert_self _ _ _).symm.trans hfound
    exact ⟨(hg k loan hloan).id_eq, (hg k loan hloan).rows⟩
  · exact hg k found ((Table.find?_insert_of_ne _ hk _).symm.trans hfound)

theorem Ready.overtaken (h : st.Ready t id loan loan' r) {v : UInt64}
    (hroom : v.toNat + 1 < UInt64.size) (n : Nat) :
    (st.overtaken id { loan with version := v } n).Ready t id { loan with version := v }
      { loan' with version := v + 1 } r where
  filed := filed_overtaken h.filed h.found n
  found := Table.find?_insert_self _ _ _
  posts := h.posts.reversioned hroom
  takes := h.takes

end Books

namespace RunTerms

variable {t : RunTerms} {id : LoanId} {st : Books} {loan loan' : Loan} {r : AccrualResult}

theorem toNat_sub_one {n : UInt32} (hn : n ≠ 0) : (n - 1).toNat + 1 = n.toNat := by
  have hpos : 0 < n.toNat := Nat.pos_of_ne_zero fun hzero => hn (UInt32.toNat_inj.mp hzero)
  have hle : 1 ≤ n := UInt32.le_iff_toNat_le.mpr hpos
  rw [UInt32.toNat_sub_of_le _ _ hle]
  exact Nat.sub_add_cancel hpos

end RunTerms
end LoanLedger
