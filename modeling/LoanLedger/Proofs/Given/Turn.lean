import LoanLedger.Proofs.Given.Attempt

/-!
The turn of a loan on given rows. It commits one result at most: what the loan had to commit on the
given rows, or, if another writer was pending for the loan, on its candidate rows as they are stored.
-/

set_option autoImplicit false
set_option relaxedAutoImplicit false

namespace LoanLedger

/-- The version that a loan comes to once every pending writer has come. -/
def Books.versionDue (b : Books) (id : LoanId) : Nat :=
  ((b.ledger.loans.find? id).map (·.version.toNat)).getD 0 + (b.pending id).toNat

theorem Books.versionDue_of_find? {b : Books} {id : LoanId} {loan : Loan}
    (h : b.ledger.loans.find? id = some loan) :
    b.versionDue id = loan.version.toNat + (b.pending id).toNat := by
  rw [versionDue, h, Option.map_some, Option.getD_some]

theorem Books.Alike.versionDue {id : LoanId} {b b' : Books} (h : b.Alike id b') :
    b'.versionDue id = b.versionDue id := by
  rw [Books.versionDue, Books.versionDue, h.ledger.loan, h.pending]

/-- The same loans, each under its number. -/
structure Ledger.SameIds (g g' : Ledger) : Prop where
  ids : ∀ k, (g'.loans.find? k).map (·.id) = (g.loans.find? k).map (·.id)

theorem Ledger.SameIds.refl (g : Ledger) : g.SameIds g := ⟨fun _ => rfl⟩

theorem Ledger.SameIds.trans {g g' g'' : Ledger} (h : g.SameIds g') (h' : g'.SameIds g'') :
    g.SameIds g'' := ⟨fun k => (h'.ids k).trans (h.ids k)⟩

theorem Ledger.SameIds.of_insert {g g' : Ledger} {id : LoanId} {loan : Loan} (loan' : Loan)
    (hloan : g.loans.find? id = some loan) (hid : loan'.id = loan.id)
    (h : g'.loans = g.loans.insert id loan') : g.SameIds g' := by
  refine ⟨fun k => ?_⟩
  rw [h]
  by_cases hk : k = id
  · rw [hk, Table.find?_insert_self, hloan, Option.map_some, Option.map_some, hid]
  · rw [Table.find?_insert_of_ne _ hk]

namespace RunTerms

variable (t : RunTerms) (id : LoanId)

/-- The rows that a committed result is computed from. Pending writers make the turn read the loan
again. -/
def used (b : Books) (rows : List ScheduleRow) : List ScheduleRow :=
  if b.pending id = 0 then rows else b.ledger.candidates (some id) t.mode t.today

/-- The loan has something to commit on the given rows. -/
def HasDue (b : Books) (rows : List ScheduleRow) : Prop :=
  ∃ loan r, b.ledger.loans.find? id = some loan ∧ t.due? id 0 loan rows = some r

/-- The loan has something to commit on the given rows, and both its schedule and the journal take
it. -/
def Takes (b : Books) (rows : List ScheduleRow) : Prop :=
  ∃ loan r, b.ledger.loans.find? id = some loan ∧ t.due? id 0 loan rows = some r ∧
    loan.Holds r.postings ∧ b.journal.refused.contains id = false

/-- What a turn committed, and how it ended. -/
structure Commits (tries : Nat) (rows : List ScheduleRow) (c : Option AccrualResult)
    (st st' : Books) (x : Except Failure LoanSummary) : Prop where
  moves : st.Moves id (c.elim .nothing (·.written id)) st'
  sameIds : st.ledger.SameIds st'.ledger
  due : ∀ r ∈ c, ∃ loan n, st.ledger.loans.find? id = some loan ∧
    t.due? id n loan (t.used id st rows) = some r
  summary : ∀ s, x = .ok s → s.loanId = id ∧ s.transactions = c.elim 0 (·.postings.length)
  refused : ∀ f, x = .error (.refusal f) → c = none
  version : (∀ f, x ≠ .error (.fault f)) →
    st'.versionDue id = st.versionDue id + if c.isSome then 1 else 0
  complete : (∀ f, x ≠ .error (.fault f)) → (st.pending id).toNat ≤ tries →
    (c.isSome = true ↔ (st.pending id = 0 ∨ t.HasDue id st rows) ∧
      t.Takes id st (t.used id st rows))

variable {t id} {tries attempt : Nat} {rows : List ScheduleRow} {loan : Loan} {r : AccrualResult}
  {st st' : Books} {x : Except Failure LoanSummary}

theorem hasDue_iff {b : Books} (hloan : b.ledger.loans.find? id = some loan) (n : Nat) :
    t.HasDue id b rows ↔ ∃ r, t.due? id n loan rows = some r := by
  obtain ⟨f, -, hf⟩ := due?_renumber t id n 0 loan rows
  constructor
  · rintro ⟨found, r, hfound, hr⟩
    obtain rfl := Option.some.inj (hfound.symm.trans hloan)
    rw [hf] at hr
    obtain ⟨r', hr', -⟩ := Option.map_eq_some_iff.mp hr
    exact ⟨r', hr'⟩
  · rintro ⟨r, hr⟩
    rw [hr] at hf
    exact ⟨loan, _, hloan, hf⟩

theorem takes_iff {b : Books} (hloan : b.ledger.loans.find? id = some loan) {n : Nat}
    (hr : t.due? id n loan rows = some r) :
    t.Takes id b rows ↔ loan.Holds r.postings ∧ b.journal.refused.contains id = false := by
  obtain ⟨f, -, hf⟩ := due?_renumber t id n 0 loan rows
  rw [hr] at hf
  have hholds : loan.Holds (r.rename f).postings ↔ loan.Holds r.postings := List.forall_mem_map
  constructor
  · rintro ⟨found, r', hfound, hr', hfits, htakes⟩
    obtain rfl := Option.some.inj (hfound.symm.trans hloan)
    obtain rfl := Option.some.inj (hf.symm.trans hr')
    exact ⟨hholds.mp hfits, htakes⟩
  · rintro ⟨hfits, htakes⟩
    exact ⟨loan, _, hloan, hf, hholds.mpr hfits, htakes⟩

/-- An attempt that is not to be made again ends the turn. -/
private theorem accrueLoan_of_final {st₁ : Books} {x₁ : Except Failure LoanSummary}
    (hattempt : t.accrueOnce id rows st = (st₁, x₁)) (hfinal : ∀ f, x₁ = .error f → f.isFinal = true)
    (h : t.accrueLoan id tries attempt rows st = (st', x)) :
    st' = st₁ ∧ x = (fun s => { s with attempts := attempt }) <$> x₁ := by
  unfold accrueLoan at h
  rw [hattempt] at h
  rcases x₁ with (r | f) | s
  · have hfinal : (!r.isRetryable) = true := hfinal (.refusal r) rfl
    rw [Bool.not_eq_true'] at hfinal
    dsimp only at h
    rw [if_neg (by rw [hfinal]; exact Bool.false_ne_true)] at h
    cases h
    exact ⟨rfl, rfl⟩
  · cases h
    exact ⟨rfl, rfl⟩
  · cases h
    exact ⟨rfl, rfl⟩

/-- A turn that commits nothing. -/
private theorem commits_none (hmoves : st.Moves id .nothing st')
    (hsame : st.ledger.SameIds st'.ledger)
    (hsummary : ∀ s, x = .ok s → s.loanId = id ∧ s.transactions = 0)
    (hversion : (∀ f, x ≠ .error (.fault f)) →
      st'.versionDue id = st.versionDue id)
    (hcomplete : (∀ f, x ≠ .error (.fault f)) → (st.pending id).toNat ≤ tries →
      st.pending id = 0 ∨ t.HasDue id st rows →
        ¬t.Takes id st (t.used id st rows)) :
    t.Commits id tries rows none st st' x where
  moves := hmoves
  sameIds := hsame
  due := by
    intro r hr
    cases hr
  summary := hsummary
  refused := fun _ _ => rfl
  version := hversion
  complete := by
    intro hfault hfew
    refine iff_of_false Bool.false_ne_true ?_
    rintro ⟨hpending, htakes⟩
    exact hcomplete hfault hfew hpending htakes

/-- A turn that ends by a fault leaves open what it should have committed. -/
private theorem commits_none_of_fault {f : Fault} (hmoves : st.Moves id .nothing st')
    (hsame : st.ledger.SameIds st'.ledger) :
    t.Commits id tries rows none st st' (.error (.fault f)) := by
  refine commits_none hmoves hsame ?_ (fun hfault => absurd rfl (hfault f))
    (fun hfault => absurd rfl (hfault f))
  intro s hs
  cases hs

/-- A turn that finds nothing to commit. -/
private theorem commits_of_not_due (hnone : ∀ loan, st.ledger.loans.find? id = some loan →
      t.due? id st.nextId loan rows = none)
    (h : t.accrueLoan id tries attempt rows st = (st', x)) :
    t.Commits id tries rows none st st' x := by
  rcases hattempt : t.accrueOnce id rows st with ⟨st₁, x₁⟩
  obtain ⟨rfl, hends⟩ := accrueOnce_of_not_due hattempt hnone
  have hfinal : ∀ f, x₁ = .error f → f.isFinal = true := by
    rintro f rfl
    rcases hends with hok | ⟨g, hg, hfinal⟩
    · cases hok
    · cases hg
      exact hfinal
  obtain ⟨rfl, rfl⟩ := accrueLoan_of_final hattempt hfinal h
  have hnot : ¬t.HasDue id st' rows := by
    rintro ⟨loan, r, hloan, hr⟩
    obtain ⟨r', hr'⟩ := (hasDue_iff hloan st'.nextId).mp ⟨loan, r, hloan, hr⟩
    rw [hnone loan hloan] at hr'
    cases hr'
  refine commits_none (.refl id _) (.refl _) ?_ (fun _ => rfl) ?_
  · intro s hs
    rcases hends with rfl | ⟨f, rfl, -⟩
    · cases hs
      exact ⟨rfl, rfl⟩
    · cases hs
  · intro _ _ hpending htakes
    rcases hpending with hfree | hdue
    · rw [used, if_pos hfree] at htakes
      obtain ⟨loan, r, hloan, hr, -⟩ := htakes
      exact hnot ⟨loan, r, hloan, hr⟩
    · exact hnot hdue

/-- A turn that commits a result with its first attempt. -/
private theorem commits_of_taking {loan' : Loan} (hloan : st.ledger.loans.find? id = some loan)
    (hdue : t.due? id st.nextId loan rows = some r) (hfree : st.pending id = 0)
    (haccept : loan.accept r = .ok loan') (hj : st.journal.refused.contains id = false) :
    t.Commits id tries rows (some r) st (st.taking id loan' r)
      ((fun s => { s with attempts := attempt }) <$> summed id r) := by
  have hused : t.used id st rows = rows := if_pos hfree
  obtain ⟨htaking, hversion⟩ := Loan.eq_taking_of_accept haccept
  refine {
    moves := st.taking_moves loan' (loanId_postings_of_due hdue) (loanId_entries_of_due hdue)
    sameIds := .of_insert loan' hloan (by rw [htaking]; rfl) rfl
    due := ?due
    summary := ?summary
    refused := ?refused
    version := ?version
    complete := ?complete }
  case due =>
    rintro r' hr'
    obtain rfl := Option.some.inj hr'
    exact ⟨loan, _, hloan, by rw [hused]; exact hdue⟩
  case summary =>
    intro s hs
    obtain ⟨s₁, hs₁, rfl⟩ := map_eq_ok.mp hs
    obtain ⟨hid, hcount⟩ := summed_eq_ok hs₁
    exact ⟨hid, hcount⟩
  case refused =>
    intro f hf
    cases hsummed : summed id r with
    | ok s =>
      rw [hsummed] at hf
      cases hf
    | error g =>
      obtain ⟨fault, rfl⟩ := summed_eq_error hsummed
      rw [hsummed] at hf
      cases hf
  case version =>
    have hfound : (st.taking id loan' r).ledger.loans.find? id = some loan' :=
      Table.find?_insert_self _ _ _
    have hpending : (st.taking id loan' r).pending id = st.pending id := rfl
    intro _
    rw [Books.versionDue_of_find? hfound, Books.versionDue_of_find? hloan, hpending, hversion,
      Option.isSome_some, if_pos rfl]
    omega
  case complete =>
    intro _ _
    rw [hused]
    refine ⟨fun _ => ⟨.inl hfree, (takes_iff hloan hdue).mpr ⟨?_, hj⟩⟩, fun _ => rfl⟩
    by_contra hnot
    obtain ⟨refusal, hrefusal⟩ := Loan.accept_of_not_holds hnot
    rw [hrefusal] at haccept
    cases haccept

/-- A turn that no pending writer disturbs: its first attempt is the last. -/
private theorem commits_of_free (hloan : st.ledger.loans.find? id = some loan)
    (hdue : t.due? id st.nextId loan rows = some r) (hfree : st.pending id = 0)
    (h : t.accrueLoan id tries attempt rows st = (st', x)) :
    ∃ c, t.Commits id tries rows c st st' x := by
  have hattempt := accrueOnce_of_due hloan hdue
  rcases hconclude : conclude id loan.version r st with ⟨st₁, x₁⟩
  rw [hconclude] at hattempt
  rcases conclude_of_free hloan hfree (due?_eq_some.mp hdue).2.2 (entries_nonempty_of_due hdue)
    (loanId_entries_of_due hdue) hconclude with
    ⟨loan', haccept, hj, rfl, rfl⟩ | ⟨rfl, f, rfl, hfinal, hrefused⟩
  · have hfinal : ∀ f, summed id r = .error f → f.isFinal = true := by
      intro f hf
      obtain ⟨g, rfl⟩ := summed_eq_error hf
      rfl
    obtain ⟨rfl, rfl⟩ := accrueLoan_of_final hattempt hfinal h
    exact ⟨some r, commits_of_taking hloan hdue hfree haccept hj⟩
  · have hends : ∀ g, (.error f : Except Failure LoanSummary) = .error g → g.isFinal = true := by
      rintro g hg
      cases hg
      exact hfinal
    obtain ⟨rfl, rfl⟩ := accrueLoan_of_final hattempt hends h
    refine ⟨none, commits_none (Books.Moves.refl id _).of_drawn (.refl _) ?_ (fun _ => rfl) ?_⟩
    · intro s hs
      cases hs
    · intro hfault _ _ hall
      have hused : t.used id st rows = rows := if_pos hfree
      rw [hused] at hall
      refine hrefused ?_ ((takes_iff hloan hdue).mp hall)
      rintro g rfl
      exact hfault g rfl

/-- Books in which another writer has come before the commit of an attempt. -/
private def afterWriter (st : Books) (id : LoanId) (loan : Loan) (v : UInt64) (k : Nat) : Books :=
  (st.overtaken id { loan with version := v } k).expecting id (st.pending id - 1)

private theorem afterWriter_moves (st : Books) (loan : Loan) (v : UInt64) (k : Nat) :
    st.Moves id .nothing (afterWriter st id loan v k) :=
  (st.overtaken_moves id { loan with version := v } k).trans (Books.expecting_moves _ id _)

private theorem afterWriter_sameIds (hloan : st.ledger.loans.find? id = some loan)
    (v : UInt64) (k : Nat) :
    st.ledger.SameIds (afterWriter st id loan v k).ledger :=
  .of_insert { loan with version := v } hloan rfl rfl

/-- A writer that has come raises the version, and is not pending any more. -/
private theorem versionDue_afterWriter {v : UInt64}
    (hloan : st.ledger.loans.find? id = some loan) (hpending : st.pending id ≠ 0)
    (hv : loan.nextVersion = .ok v) (k : Nat) :
    (afterWriter st id loan v k).versionDue id = st.versionDue id := by
  have hfound : (afterWriter st id loan v k).ledger.loans.find? id =
      some { loan with version := v } := Table.find?_insert_self _ _ _
  have hleft : (afterWriter st id loan v k).pending id = st.pending id - 1 :=
    Books.pending_expecting _ _ _
  have hcount := toNat_sub_one hpending
  have hversion := Loan.nextVersion_eq_ok hv
  rw [Books.versionDue_of_find? hfound, Books.versionDue_of_find? hloan, hleft]
  dsimp only
  omega

private theorem candidates_afterWriter (hloan : st.ledger.loans.find? id = some loan)
    (v : UInt64) (k : Nat) :
    (afterWriter st id loan v k).ledger.candidates (some id) t.mode t.today =
      st.ledger.candidates (some id) t.mode t.today :=
  Ledger.candidates_reversioned hloan rfl _ _ _

/-- What a turn commits after another writer has come first, on the rows as they are stored. -/
private theorem Commits.after_writer {c : Option AccrualResult} {v : UInt64} {k n : Nat}
    (hloan : st.ledger.loans.find? id = some loan) (hdue : t.due? id n loan rows = some r)
    (hpending : st.pending id ≠ 0) (hv : loan.nextVersion = .ok v)
    (h : t.Commits id tries (st.ledger.candidates (some id) t.mode t.today) c
      (afterWriter st id loan v k) st' x) :
    t.Commits id (tries + 1) rows c st st' x := by
  obtain ⟨stored, hstored⟩ : ∃ rows, st.ledger.candidates (some id) t.mode t.today = rows :=
    ⟨_, rfl⟩
  have hfound : (afterWriter st id loan v k).ledger.loans.find? id =
      some { loan with version := v } := Table.find?_insert_self _ _ _
  have hleft : (afterWriter st id loan v k).pending id = st.pending id - 1 :=
    Books.pending_expecting _ _ _
  have hcount := toNat_sub_one hpending
  have hused : t.used id st rows = stored := by rw [used, if_neg hpending, hstored]
  have hagain : t.used id (afterWriter st id loan v k) stored = stored := by
    have hsame : (afterWriter st id loan v k).ledger.candidates (some id) t.mode t.today =
        stored := (candidates_afterWriter hloan v k).trans hstored
    rw [used, hsame, ite_self]
  rw [hstored] at h
  refine {
    moves := (afterWriter_moves st loan v k).trans h.moves
    sameIds := (afterWriter_sameIds hloan v k).trans h.sameIds
    due := ?due
    summary := h.summary
    refused := h.refused
    version := ?version
    complete := ?complete }
  case due =>
    intro r' hr'
    obtain ⟨found, m, hfound', hr'⟩ := h.due r' hr'
    obtain rfl := Option.some.inj (hfound.symm.trans hfound')
    rw [hagain] at hr'
    exact ⟨loan, m, hloan, by rw [hused]; exact hr'⟩
  case version =>
    intro hfault
    rw [h.version hfault, versionDue_afterWriter hloan hpending hv]
  case complete =>
    intro hfault htries
    have hrest := h.complete hfault (by rw [hleft]; omega)
    rw [hagain] at hrest
    rw [hrest, hused]
    -- the rows read again decide, whether or not yet another writer is pending
    have htakes : t.Takes id (afterWriter st id loan v k) stored ↔
        t.Takes id st stored := by
      constructor
      · rintro ⟨found, r', hfound', hr', hfits, hj⟩
        obtain rfl := Option.some.inj (hfound.symm.trans hfound')
        exact ⟨loan, r', hloan, hr', hfits, hj⟩
      · rintro ⟨found, r', hfound', hr', hfits, hj⟩
        obtain rfl := Option.some.inj (hloan.symm.trans hfound')
        exact ⟨_, r', hfound, hr', hfits, hj⟩
    rw [htakes]
    constructor
    · rintro ⟨-, hall⟩
      exact ⟨.inr ((hasDue_iff hloan n).mpr ⟨r, hdue⟩), hall⟩
    · rintro ⟨-, hall⟩
      obtain ⟨found, r', hfound', hr', -⟩ := htakes.mpr hall
      exact ⟨.inr ⟨found, r', hfound', hr'⟩, hall⟩

/-- A turn commits one result at most. -/
theorem accrueLoan_commits (h : t.accrueLoan id tries attempt rows st = (st', x)) :
    ∃ c, t.Commits id tries rows c st st' x := by
  induction tries using Nat.strong_induction_on generalizing attempt rows st with
  | _ tries ih =>
    cases hloan : st.ledger.loans.find? id with
    | none =>
      refine ⟨none, commits_of_not_due (fun loan hfound => ?_) h⟩
      rw [hloan] at hfound
      cases hfound
    | some loan =>
      cases hdue : t.due? id st.nextId loan rows with
      | none =>
        refine ⟨none, commits_of_not_due (fun found hfound => ?_) h⟩
        obtain rfl := Option.some.inj (hloan.symm.trans hfound)
        exact hdue
      | some r =>
        by_cases hfree : st.pending id = 0
        · exact commits_of_free hloan hdue hfree h
        · have hattempt := accrueOnce_of_due hloan hdue
          rcases hconclude : conclude id loan.version r st with ⟨st₁, x₁⟩
          rw [hconclude] at hattempt
          rcases conclude_of_pending hloan hfree (due?_eq_some.mp hdue).2.2 hconclude with
            ⟨v, hv, rfl, rfl⟩ | ⟨f, rfl, rfl⟩
          · unfold accrueLoan at h
            rw [hattempt] at h
            cases tries with
            | zero =>
              cases h
              refine ⟨none, commits_none (afterWriter_moves st loan v _)
                (afterWriter_sameIds hloan v _) ?_
                (fun _ => versionDue_afterWriter hloan hfree hv _) ?_⟩
              · intro s hs
                cases hs
              · intro _ hfew
                exact absurd (UInt32.toNat_inj.mp (Nat.le_zero.mp hfew)) hfree
            | succ tries =>
              change t.accrueLoan id tries (attempt + 1)
                ((afterWriter st id loan v _).ledger.candidates (some id) t.mode t.today)
                (afterWriter st id loan v _) = (st', x) at h
              rw [candidates_afterWriter hloan] at h
              obtain ⟨c, hc⟩ := ih tries (Nat.lt_succ_self tries) h
              exact ⟨c, hc.after_writer hloan hdue hfree hv⟩
          · unfold accrueLoan at h
            rw [hattempt] at h
            cases h
            exact ⟨none, commits_none_of_fault
              (.of_drawn (Books.expecting_moves _ id _)) ⟨fun _ => rfl⟩⟩

end RunTerms
end LoanLedger
