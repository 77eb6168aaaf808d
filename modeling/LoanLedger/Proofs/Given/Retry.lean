import LoanLedger.Proofs.Given.Run

/-!
The rows that a run over given rows accrues. A loan is accrued on the rows given for it, unless another
writer is pending for it: then its first commit is refused, and the loan is read again and accrued on
all its candidate rows as they are stored, as in a run without that writer to which these are given.
-/

set_option autoImplicit false
set_option relaxedAutoImplicit false

namespace LoanLedger

/-- The installments of a loan that events announce postings for. -/
def announcedOf (id : LoanId) (es : List Event) : List InstallmentNumber :=
  es.filterMap fun e =>
    match e with
    | .accrualCreated loan _ installment _ _ => if loan = id then some installment else none
    | _ => none

/-- The installments of a loan that postings were announced for. -/
def Books.announced (b : Books) (id : LoanId) : List InstallmentNumber := announcedOf id b.events

theorem announcedOf_append (id : LoanId) (es es' : List Event) :
    announcedOf id (es ++ es') = announcedOf id es ++ announcedOf id es' := List.filterMap_append

theorem announcedOf_filter (id : LoanId) (es : List Event) :
    announcedOf id (es.filter fun e => e.loanId = id) = announcedOf id es := by
  rw [announcedOf, announcedOf, List.filterMap_filter]
  congr 1
  funext e
  cases e with
  | accrualCreated loan _ installment _ _ =>
    by_cases hloan : loan = id
    · simp [Event.loanId, hloan]
    · simp [Event.loanId, hloan]
  | accruedTillAdvanced => simp
  | arrearsUpdated => simp
  | arrearsCleared => simp

theorem announcedOf_rename (id : LoanId) (f : TransactionId → TransactionId) (es : List Event) :
    announcedOf id (es.map (.rename f)) = announcedOf id es := by
  rw [announcedOf, announcedOf, List.filterMap_map]
  congr 1
  funext e
  cases e <;> rfl

theorem Books.Adds.announced {b b' : Books} {w : Written} (h : b.Adds w b') (id : LoanId) :
    b'.announced id = b.announced id ++ announcedOf id (w.of id).events := by
  rw [Books.announced, Books.announced, h.events, announcedOf_append]
  congr 1
  exact (announcedOf_filter id w.events).symm

private theorem lookup_of_not_mem {commits : List (LoanId × AccrualResult)} {id : LoanId}
    (h : id ∉ commits.map Prod.fst) : commits.lookup id = none := by
  refine List.lookup_eq_none_iff.mpr fun c hc => bne_iff_ne.mpr fun heq => h ?_
  rw [heq]
  exact List.mem_map_of_mem hc

private theorem exists_lookup {commits : List (LoanId × AccrualResult)} {id : LoanId}
    (h : id ∈ commits.map Prod.fst) : ∃ r, commits.lookup id = some r ∧ (id, r) ∈ commits := by
  cases hfound : commits.lookup id with
  | none =>
    obtain ⟨c, hc, rfl⟩ := List.mem_map.mp h
    exact absurd rfl (bne_iff_ne.mp (List.lookup_eq_none_iff.mp hfound c hc))
  | some r =>
    obtain ⟨before, after, rfl, -⟩ := List.lookup_eq_some_iff.mp hfound
    exact ⟨r, rfl, List.mem_append_right _ List.mem_cons_self⟩

/-- What commits wrote about a loan is what its commit wrote. -/
theorem Written.of_all {commits : List (LoanId × AccrualResult)} (id : LoanId)
    (hn : (commits.map Prod.fst).Nodup) (hfor : ∀ c ∈ commits, (c.2.written c.1).IsFor c.1) :
    (Written.all commits).of id = (commits.lookup id).elim .nothing (·.written id) := by
  induction commits with
  | nil => rfl
  | cons c commits ih =>
    obtain ⟨k, r⟩ := c
    obtain ⟨hk, hn⟩ := List.nodup_cons.mp hn
    obtain ⟨hown, hrest⟩ := List.forall_mem_cons.mp hfor
    have hall : Written.all ((k, r) :: commits) = (r.written k).append (.all commits) := rfl
    rw [hall, append_of, ih hn hrest]
    by_cases hid : id = k
    · subst hid
      rw [hown.of_eq, lookup_of_not_mem hk, List.lookup_cons_self, Option.elim_none, append_nothing,
        Option.elim_some]
    · rw [hown.of_ne hid, nothing_append, List.lookup_cons, beq_false_of_ne hid]

namespace RunTerms

variable {t : RunTerms} {flag : Cancellation} {id : LoanId} {rows : List ScheduleRow}
  {commits : List (LoanId × AccrualResult)} {summary : RunSummary} {st st' : Books}
  {r : Except Fault RunSummary}

theorem Commitment.isFor {c : LoanId × AccrualResult} (h : t.Commitment c) :
    (c.2.written c.1).IsFor c.1 := by
  obtain ⟨input, n, hid, hresult, -⟩ := h
  rw [← hid]
  exact ⟨fun p hp => AccrualInput.accrue_loanId hresult hp,
    fun e he => AccrualInput.loanId_of_mem_entries hresult he, fun e he => loanId_of_mem_events he⟩

theorem due?_nil (n : Nat) (loan : Loan) : t.due? id n loan [] = none := by
  cases hdue : t.due? id n loan [] with
  | none => rfl
  | some r =>
    obtain ⟨-, hresult, hne⟩ := due?_eq_some.mp hdue
    have hfor : List.SublistForall₂ Posting.IsFor r.postings [] := AccrualInput.accrue_isFor hresult
    cases hpostings : r.postings with
    | nil => exact absurd hpostings hne
    | cons p ps =>
      rw [hpostings] at hfor
      cases hfor

private theorem mem_byLoan {g : LoanId × List ScheduleRow}
    (hg : g ∈ byLoan ScheduleRow.loanId rows) : g.2 = rows.filter fun row => row.loanId = g.1 := by
  obtain ⟨id, -, rfl⟩ := List.mem_map.mp hg
  rfl

/-- What a run commits is what the loan had to commit on the rows that are used for it. -/
theorem Makes.due_used (h : t.Makes flag (byLoan ScheduleRow.loanId rows) summary commits st st' r)
    (hkeyed : st.ledger.Keyed) : ∀ c ∈ commits,
      ∃ loan n, st.ledger.loans.find? c.1 = some loan ∧ t.due? c.1 n loan
        (t.used c.1 st (rows.filter fun row => row.loanId = c.1)) = some c.2 := by
  intro c hc
  obtain ⟨group, loan, n, hgroup, hloan, hdue⟩ := h.due hkeyed c hc
  rw [show group = _ from mem_byLoan hgroup] at hdue
  exact ⟨loan, n, hloan, hdue⟩

theorem Makes.nodup (h : t.Makes flag (byLoan ScheduleRow.loanId rows) summary commits st st' r) :
    (commits.map Prod.fst).Nodup := by
  have hkeys := h.keys
  rw [keys_byLoan] at hkeys
  exact hkeys.nodup (nodup_loansOf _ _)

theorem Makes.postings_isFor
    (h : t.Makes flag (byLoan ScheduleRow.loanId rows) summary commits st st' r)
    (hkeyed : st.ledger.Keyed) : ∀ c ∈ commits, List.SublistForall₂ Posting.IsFor c.2.postings
      (t.used c.1 st (rows.filter fun row => row.loanId = c.1)) := by
  intro c hc
  obtain ⟨loan, n, -, hdue⟩ := h.due_used hkeyed c hc
  exact AccrualInput.accrue_isFor (due?_eq_some.mp hdue).2.1

/-- A run that meets no fault commits for a loan what the loan and the journal take. -/
theorem Makes.mem_keys_iff
    (h : t.Makes flag (byLoan ScheduleRow.loanId rows) summary commits st st' r)
    (hfault : ∀ f, r ≠ .error f) (hgoing : flag.requestedBefore id = false)
    (hkeyed : st.ledger.Keyed) (hfew : (st.pending id).toNat ≤ t.retries) :
    id ∈ commits.map Prod.fst ↔
      (st.pending id = 0 ∨
        t.HasDue id st (rows.filter fun row => row.loanId = id)) ∧
      t.Takes id st (t.used id st (rows.filter fun row => row.loanId = id)) := by
  by_cases hid : id ∈ loansOf ScheduleRow.loanId rows
  · exact h.complete hfault hkeyed _ (List.mem_map_of_mem hid) hgoing hfew
  · have hnone : rows.filter (fun row => row.loanId = id) = [] :=
      List.filter_eq_nil_iff.mpr fun row hrow heq =>
        hid ((mem_loansOf _).mpr ⟨row, hrow, of_decide_eq_true heq⟩)
    have hnot : id ∉ commits.map Prod.fst := by
      intro hmem
      have hkey := h.keys.subset hmem
      rw [keys_byLoan] at hkey
      exact hid hkey
    rw [hnone]
    refine iff_of_false hnot ?_
    rintro ⟨hfree | ⟨loan, r, -, hdue⟩, loan', r', -, hdue', -⟩
    · rw [used, if_pos hfree, due?_nil] at hdue'
      cases hdue'
    · rw [due?_nil] at hdue
      cases hdue

/-- Of two runs that read the same loans, of which one finds another writer pending for a loan and the
other is given the candidate rows of that loan as they are stored, both commit the same for the loan,
but for the names of transactions. -/
theorem Makes.same_of_pending {flag' : Cancellation} {rows' : List ScheduleRow}
    {commits' : List (LoanId × AccrualResult)} {σ σ' : Books} {made made' : RunSummary}
    (h : t.Makes flag (byLoan ScheduleRow.loanId rows) summary commits st st' (.ok made))
    (h' : t.Makes flag' (byLoan ScheduleRow.loanId rows') summary commits' σ σ' (.ok made'))
    (hgoing : flag.requestedBefore id = false) (hgoing' : flag'.requestedBefore id = false)
    (hloans : σ.ledger.loans = st.ledger.loans)
    (hjournal : σ.journal = st.journal) (hkeyed : st.ledger.Keyed)
    (hpending : st.pending id ≠ 0) (hfew : (st.pending id).toNat ≤ t.retries)
    (hfree : σ.pending id = 0)
    (hdue : t.HasDue id st (rows.filter fun row => row.loanId = id))
    (hstored : rows'.filter (fun row => row.loanId = id) =
      st.ledger.candidates (some id) t.mode t.today) :
    ∃ f, Function.Bijective f ∧ ((Written.all commits).of id) = ((Written.all commits').of id).rename f := by
  obtain ⟨stored, hrows⟩ : ∃ stored, st.ledger.candidates (some id) t.mode t.today = stored :=
    ⟨_, rfl⟩
  have hkeyed' : σ.ledger.Keyed := by
    rw [Ledger.Keyed, hloans]
    exact hkeyed
  have hused : ∀ group, t.used id st group = stored := fun group => by
    rw [used, if_neg hpending, hrows]
  have hused' : ∀ group, t.used id σ group = group := fun group => if_pos hfree
  have htakes : t.Takes id σ stored ↔ t.Takes id st stored := by
    rw [Takes, Takes, hloans, hjournal]
  have hfew' : (σ.pending id).toNat ≤ t.retries := by
    rw [hfree]
    exact Nat.zero_le _
  have hends : ∀ (made : RunSummary) (f : Fault), Except.ok made ≠ .error f := by
    intro made f hf
    cases hf
  have hmem := h.mem_keys_iff (hends made) hgoing hkeyed hfew
  have hmem' := h'.mem_keys_iff (hends made') hgoing' hkeyed' hfew'
  rw [hused] at hmem
  rw [hused', hstored, hrows, htakes] at hmem'
  have hboth : id ∈ commits.map Prod.fst ↔ id ∈ commits'.map Prod.fst := by
    rw [hmem, hmem']
    exact and_congr_left fun _ => iff_of_true (.inr hdue) (.inl hfree)
  have hwritten := Written.of_all id h.nodup fun c hc => (h.commitment c hc).isFor
  have hwritten' := Written.of_all id h'.nodup fun c hc => (h'.commitment c hc).isFor
  by_cases hid : id ∈ commits.map Prod.fst
  · obtain ⟨a, ha, hcommit⟩ := exists_lookup hid
    obtain ⟨a', ha', hcommit'⟩ := exists_lookup (hboth.mp hid)
    obtain ⟨loan, n, hloan, hfirst⟩ := h.due_used hkeyed _ hcommit
    obtain ⟨loan', n', hloan', hother⟩ := h'.due_used hkeyed' _ hcommit'
    rw [hloans] at hloan'
    obtain rfl := Option.some.inj (hloan.symm.trans hloan')
    rw [hused] at hfirst
    rw [hused', hstored, hrows] at hother
    -- both results are the same accrual, numbered from two numbers on
    obtain ⟨f, hf, hrenamed⟩ := due?_renumber t id n' n loan stored
    rw [hfirst, hother] at hrenamed
    obtain rfl := Option.some.inj hrenamed
    refine ⟨f, hf, ?_⟩
    rw [hwritten, hwritten', ha, ha', Option.elim_some, Option.elim_some,
      AccrualResult.written_rename]
  · refine ⟨fun n => n, Function.bijective_id, ?_⟩
    rw [hwritten, hwritten', lookup_of_not_mem hid, lookup_of_not_mem fun h => hid (hboth.mpr h)]
    rfl

end RunTerms

/-- The first row is given, and both rows are stored. Alone, it is accrued; but if another writer comes
before the commit, the loan is read again, and both installments are accrued. -/
theorem run_rows_reads_again :
    (standardBatch.run .asOfToday firstOfMarch (some [januaryRow])
        .never (booksOf januaryFeeLoan)).books.announced 1 = [1] ∧
      (standardBatch.run .asOfToday firstOfMarch (some [januaryRow])
        .never ((booksOf januaryFeeLoan).expecting 1 1)).books.announced 1 = [1, 2] ∧
      ¬∃ row ∈ [januaryRow], row.installment = 2 := by
  decide +kernel

/-- A run over given rows posts for a loan only to the rows given for it, or, where another writer was
pending for the loan, only to its candidate rows as they are stored. With fewer such writers than a turn
has attempts, what the run then makes of a loan that has something to commit on the given rows is what a
run makes of it that finds no writer and is given those candidate rows, but for the names of
transactions: postings for the same installments. -/
theorem run_rows_posts_to_used :
    (∀ (b : Batch) (mode : RunMode) (today : Date) (rows : List ScheduleRow) (flag : Cancellation)
      (st : Books), st.ledger.Keyed → ∃ commits : List (LoanId × AccrualResult),
        st.Adds (.all commits) (b.run mode today (some rows) flag st).books ∧
        ∀ c ∈ commits, (c.2.written c.1).IsFor c.1 ∧
          (st.pending c.1 = 0 → List.SublistForall₂ Posting.IsFor c.2.postings
            (rows.filter fun row => row.loanId = c.1)) ∧
          (st.pending c.1 ≠ 0 → List.SublistForall₂ Posting.IsFor c.2.postings
            (st.ledger.candidates (some c.1) mode today))) ∧
    ∀ (b : Batch) (s : Settings) (mode : RunMode) (today : Date) (rows stored : List ScheduleRow)
      (flag flag' : Cancellation) (st : Books) (id : LoanId) (n : UInt32), b.settings = .ok s →
      st.ledger.Keyed → flag.requestedBefore id = false → flag'.requestedBefore id = false →
      n ≠ 0 → n.toNat < s.attempts →
      (⟨s, mode, today⟩ : RunTerms).HasDue id st (rows.filter fun row => row.loanId = id) →
      stored.filter (fun row => row.loanId = id) =
        st.ledger.candidates (some id) mode today →
      (∀ f, (b.run mode today (some rows) flag (st.expecting id n)).result ≠ .error (.fault f)) →
      (∀ f, (b.run mode today (some stored) flag' (st.expecting id 0)).result ≠ .error (.fault f)) →
      (∃ w v f, st.Adds w (b.run mode today (some rows) flag (st.expecting id n)).books ∧
        st.Adds v (b.run mode today (some stored) flag' (st.expecting id 0)).books ∧
        Function.Bijective f ∧ w.of id = (v.of id).rename f) ∧
      (b.run mode today (some rows) flag (st.expecting id n)).books.announced id =
        (b.run mode today (some stored) flag' (st.expecting id 0)).books.announced id := by
  constructor
  · intro b mode today rows flag st hkeyed
    cases hs : b.settings with
    | error r =>
      refine ⟨[], ?_, List.forall_mem_nil _⟩
      rw [Batch.run, hs]
      exact .refl _
    | ok s =>
      obtain ⟨commits, r, hmakes, -⟩ := b.run_rows_makes hs mode today rows flag st
      refine ⟨commits, hmakes.adds, fun c hc => ⟨(hmakes.commitment c hc).isFor, ?_, ?_⟩⟩
      · intro hfree
        have hfor := hmakes.postings_isFor hkeyed c hc
        rwa [RunTerms.used, if_pos hfree] at hfor
      · intro hpending
        have hfor := hmakes.postings_isFor hkeyed c hc
        rwa [RunTerms.used, if_neg hpending] at hfor
  · intro b s mode today rows stored flag flag' st id n hs hkeyed hgoing hgoing' hn hfew hdue
      hstored hfault hfault'
    obtain ⟨commits, r, hmakes, hresult⟩ :=
      b.run_rows_makes hs mode today rows flag (st.expecting id n)
    obtain ⟨commits', r', hmakes', hresult'⟩ :=
      b.run_rows_makes hs mode today stored flag' (st.expecting id 0)
    cases r with
    | error f => exact absurd hresult (hfault f)
    | ok made =>
      cases r' with
      | error f => exact absurd hresult' (hfault' f)
      | ok made' =>
        have hpending : (st.expecting id n).pending id = n := st.pending_expecting id n
        have hfree : (st.expecting id 0).pending id = 0 := st.pending_expecting id 0
        rw [Settings.attempts_eq] at hfew
        obtain ⟨f, hf, hsame⟩ := hmakes.same_of_pending hmakes' hgoing hgoing' rfl rfl hkeyed
          (by rw [hpending]; exact hn) (by rw [hpending]; exact Nat.lt_succ_iff.mp hfew) hfree hdue
          hstored
        have hadds : st.Adds (.all commits) _ :=
          (Books.expecting_moves st id n).adds.trans hmakes.adds
        have hadds' : st.Adds (.all commits') _ :=
          (Books.expecting_moves st id 0).adds.trans hmakes'.adds
        refine ⟨⟨_, _, f, hadds, hadds', hf, hsame⟩, ?_⟩
        rw [hadds.announced, hadds'.announced, hsame]
        exact congrArg _ (announcedOf_rename id f _)

/-- The first row is given where another writer is pending, and both stored rows where none is. -/
theorem run_rows_posts_to_used_januaryRow :
    (standardBatch.run .asOfToday firstOfMarch (some [januaryRow])
        .never ((booksOf januaryFeeLoan).expecting 1 1)).books.announced 1 =
      (standardBatch.run .asOfToday firstOfMarch (some [januaryRow, februaryRow])
        .never ((booksOf januaryFeeLoan).expecting 1 0)).books.announced 1 := by
  have hkeyed : (booksOf januaryFeeLoan).ledger.Keyed := Ledger.keyed_empty.putLoan _
  have hdue : (⟨.standard, .asOfToday, firstOfMarch⟩ : RunTerms).HasDue 1 (booksOf januaryFeeLoan)
      ([januaryRow].filter fun row => row.loanId = 1) := by
    have hsome : (RunTerms.due? ⟨.standard, .asOfToday, firstOfMarch⟩ 1 0 januaryFeeLoan
      ([januaryRow].filter fun row => row.loanId = 1)).isSome = true := by decide +kernel
    obtain ⟨r, hr⟩ := Option.isSome_iff_exists.mp hsome
    exact ⟨januaryFeeLoan, r, Table.find?_insert_self _ _ _, hr⟩
  refine (run_rows_posts_to_used.2 standardBatch .standard .asOfToday firstOfMarch [januaryRow]
    [januaryRow, februaryRow] .never .never (booksOf januaryFeeLoan) 1 1 rfl hkeyed rfl rfl
    (by decide) (by decide) hdue (by decide +kernel) ?_ ?_).2
  · have hok : (standardBatch.run .asOfToday firstOfMarch (some [januaryRow])
      .never ((booksOf januaryFeeLoan).expecting 1 1)).result.isOk = true := by
      decide +kernel
    intro f hf
    rw [hf] at hok
    cases hok
  · have hok : (standardBatch.run .asOfToday firstOfMarch (some [januaryRow, februaryRow])
      .never ((booksOf januaryFeeLoan).expecting 1 0)).result.isOk = true := by
      decide +kernel
    intro f hf
    rw [hf] at hok
    cases hok

end LoanLedger
