import LoanLedger.Proofs.Ledger.Run

/-!
The announcements of a run. A run announces a loan as advanced at most to the date that the loan is
accrued to when the run is over.
-/

set_option autoImplicit false
set_option relaxedAutoImplicit false

namespace LoanLedger

/-- What was announced between two states of the books: that a loan advanced, if at all, to the date
that it is accrued to in the later one. -/
def Books.Announced (b b' : Books) : Prop :=
  ∃ es, b'.events = b.events ++ es ∧ ∀ id till, Event.accruedTillAdvanced id till ∈ es →
    ∃ loan, b'.ledger.loans.find? id = some loan ∧ loan.accruedTill = some till

theorem Books.Announced.of_eq {b b' : Books} (h : b'.events = b.events) : b.Announced b' :=
  ⟨[], h.trans (List.append_nil _).symm, fun _ _ he => nomatch he⟩

namespace RunTerms

variable {t : RunTerms} {c : Cancellation} {id : LoanId} {st st' : Books}

/-- The announcements of a turn: of the loan alone, and of the date that it is accrued to after it. -/
private def Tells (id : LoanId) (st st' : Books) : Prop :=
  ∃ es, st'.events = st.events ++ es ∧
    ∀ k till, Event.accruedTillAdvanced k till ∈ es →
      k = id ∧ ∃ loan, st'.ledger.loans.find? id = some loan ∧ loan.accruedTill = some till

private theorem Tells.of_eq (h : st'.events = st.events) : Tells id st st' :=
  ⟨[], h.trans (List.append_nil _).symm, fun _ _ he => nomatch he⟩

private theorem mem_events {result : AccrualResult} {k : LoanId} {till : Date}
    (h : Event.accruedTillAdvanced k till ∈ result.events id) :
    k = id ∧ result.accruedTill = some till := by
  rcases List.mem_append.mp h with h | h
  · obtain ⟨p, -, hp⟩ := List.mem_map.mp h
    cases hp
  · obtain ⟨date, hdate, heq⟩ := Option.map_eq_some_iff.mp (Option.mem_toList.mp h)
    cases heq
    exact ⟨rfl, hdate⟩

private theorem accrueOnce_tells {rows : List ScheduleRow} {r : Except Failure LoanSummary}
    (h : t.accrueOnce id rows st = (st', r)) :
    Tells id st st' ∧ ∀ f, r = .error (.refusal f) → st'.events = st.events := by
  cases accrueOnce_attempted h with
  | missing | inactive | fails | idles => exact ⟨.of_eq rfl, fun _ _ => rfl⟩
  | refused hloan hactive haccrue hne hcommit =>
    have hsilent := (congrArg (·.1.events) hcommit).symm
    exact ⟨.of_eq hsilent, fun _ _ => hsilent⟩
  | @commits loan result b v hloan hactive haccrue hne hcommit =>
    have hsilent : b.events = st.events := (congrArg (·.1.events) hcommit).symm
    refine ⟨⟨result.events id, ?_, fun k till he => ?_⟩, fun f hf => ?_⟩
    · simp only [Books.announce]
      rw [hsilent]
    · obtain ⟨hk, hdate⟩ := mem_events he
      rcases Books.commit_spec haccrue hcommit with ⟨-, -, f, hf⟩ |
        ⟨stored, loan', -, -, haccept, hloans, -, -⟩
      · cases hf
      · refine ⟨hk, loan', hloans ▸ Table.find?_insert_self _ _ _, ?_⟩
        rw [(Loan.eq_taking_of_accept haccept).1]
        exact congrArg (Option.or · stored.accruedTill) hdate
    · obtain ⟨g, hg⟩ := summed_eq_error hf
      cases hg

private theorem accrueLoan_tells {tries attempt : Nat} {rows : List ScheduleRow}
    {r : Except Failure LoanSummary} (h : t.accrueLoan id tries attempt rows st = (st', r)) :
    Tells id st st' := by
  induction tries using Nat.strong_induction_on generalizing attempt rows st with
  | _ tries ih =>
    rcases hattempt : t.accrueOnce id rows st with ⟨st₁, r₁⟩
    rcases accrueLoan_cases hattempt h with ⟨rfl, -⟩ | ⟨f, k, hf, -, rfl, hrest⟩
    · exact (accrueOnce_tells hattempt).1
    · obtain ⟨es, hes, htells⟩ := ih k (Nat.lt_succ_self k) hrest
      rw [(accrueOnce_tells hattempt).2 f hf] at hes
      exact ⟨es, hes, htells⟩

/-- The announcements of the turns of loans that have one each. -/
theorem accrueGroups_announced {groups : List (LoanId × List ScheduleRow)} {summary : RunSummary}
    {r : Except Fault RunSummary} (hg : st.ledger.Filed) (hn : (groups.map Prod.fst).Nodup)
    (hrows : ∀ group ∈ groups, ∀ loan, st.ledger.loans.find? group.1 = some loan →
      group.2 = t.fresh loan)
    (h : t.accrueGroups c groups summary st = (st', r)) : st.Announced st' := by
  induction groups generalizing summary st with
  | nil =>
    cases h
    exact .of_eq rfl
  | cons group groups ih =>
    obtain ⟨id, rows⟩ := group
    obtain ⟨hid, hn⟩ := List.nodup_cons.mp hn
    obtain ⟨hrow, hrows⟩ := List.forall_mem_cons.mp hrows
    rcases accrueGroups_cons_cases h with ⟨-, h⟩ | ⟨st₁, x, -, hloan, hends⟩
    · exact ih hg hn hrows h
    · obtain ⟨ok, log, hturn, -⟩ := accrueLoan_turn hg hrow hloan
      have hrows₁ := hturn.fresh hid hrows
      have hfiled := hturn.filed hg
      obtain ⟨es, hes, htells⟩ := accrueLoan_tells hloan
      rcases hends with ⟨f, -, rfl, -⟩ | ⟨o, -, hrest⟩
      · refine ⟨es, hes, fun k till he => ?_⟩
        obtain ⟨rfl, htold⟩ := htells k till he
        exact htold
      · -- the later turns are of other loans
        obtain ⟨es', hes', hannounced⟩ := ih hfiled hn hrows₁ hrest
        obtain ⟨_, _, ⟨_, hothers⟩, _⟩ := accrueGroups_ran hfiled hn hrows₁ hrest
        refine ⟨es ++ es', by rw [hes', hes, List.append_assoc], fun k till he => ?_⟩
        rcases List.mem_append.mp he with he | he
        · obtain ⟨rfl, loan, hloan, hdate⟩ := htells k till he
          exact ⟨loan, (hothers k hid).2.2.trans hloan, hdate⟩
        · exact hannounced k till he

end RunTerms

/-- A run announces a loan as advanced at most to the date that it is accrued to afterwards. -/
theorem Batch.run_announced {b : Batch} {s : Settings} (mode : RunMode) (today : Date)
    (c : Cancellation) (st : Books) (hs : b.settings = .ok s) (hg : st.ledger.Filed) :
    st.Announced (b.run mode today none c st).books := by
  rw [run_books hs]
  exact RunTerms.accrueGroups_announced hg (grouped_groupByLoan _).nodup (freshGroups hg) rfl

end LoanLedger
