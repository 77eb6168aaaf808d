import LoanLedger.Proofs.Given.Turn
import LoanLedger.Proofs.Grouping

/-!
Runs over given rows. Loan after loan has its turn, in the order in which the loans are first seen in
the rows; every loan is reported once, and all that the run writes is one commit for each of some of
them.
-/

set_option autoImplicit false
set_option relaxedAutoImplicit false

namespace LoanLedger

/-- What commits wrote, one after the other. -/
def Written.all (commits : List (LoanId × AccrualResult)) : Written :=
  commits.foldr (fun c w => (c.2.written c.1).append w) .nothing

theorem Ledger.Keyed.of_sameIds {g g' : Ledger} (h : g.Keyed) (hsame : g.SameIds g') : g'.Keyed := by
  intro id loan hloan
  have hid := hsame.ids id
  rw [hloan, Option.map_some] at hid
  obtain ⟨before, hbefore, heq⟩ := Option.map_eq_some_iff.mp hid.symm
  rw [← heq]
  exact h id before hbefore

namespace LoanOutcome

def summary? : LoanOutcome → Option LoanSummary
  | .succeeded s => some s
  | .failed .. => none

def refusal? : LoanOutcome → Option (LoanId × Refusal)
  | .succeeded _ => none
  | .failed loan r => some (loan, r)

/-- The loan of an outcome with transactions, and their number. -/
def posted? : LoanOutcome → Option (LoanId × Nat)
  | .succeeded s => if s.transactions = 0 then none else some (s.loanId, s.transactions)
  | .failed .. => none

end LoanOutcome

namespace RunSummary

/-- The summary of outcomes in their order, and of the loans that were left out. -/
def ofOutcomes (os : List LoanOutcome) (rest : List LoanId) : RunSummary :=
  ⟨os.filterMap LoanOutcome.summary?, os.filterMap LoanOutcome.refusal?, rest⟩

def append (s s' : RunSummary) : RunSummary :=
  ⟨s.succeeded ++ s'.succeeded, s.failed ++ s'.failed, s.notAttempted ++ s'.notAttempted⟩

theorem append_nil (s : RunSummary) : s.append (ofOutcomes [] []) = s := by
  simp [append, ofOutcomes]

theorem record_append (s : RunSummary) (o : LoanOutcome) (os : List LoanOutcome)
    (rest : List LoanId) :
    (s.record o).append (ofOutcomes os rest) = s.append (ofOutcomes (o :: os) rest) := by
  cases o <;> simp [record, append, ofOutcomes, LoanOutcome.summary?, LoanOutcome.refusal?,
    List.filterMap_cons]

theorem skip_append (s : RunSummary) (id : LoanId) (os : List LoanOutcome) (rest : List LoanId) :
    (s.skip id).append (ofOutcomes os rest) = s.append (ofOutcomes os (id :: rest)) := by
  simp [skip, append, ofOutcomes]

end RunSummary

namespace RunTerms

variable (t : RunTerms)

/-- The number of tries that a turn has after the first. -/
def retries : Nat := t.settings.retry.maxAttempts.toNat - 1

/-- A commit of a loan: the result of one accrual of it, with something posted. -/
def Commitment (c : LoanId × AccrualResult) : Prop :=
  ∃ (input : AccrualInput) (n : Nat), input.loanId = c.1 ∧ input.accrue t.mode t.settings t.today n = .ok c.2 ∧
    c.2.postings ≠ []

/-- What a run over groups of rows makes of the loans. It attempts those before which the flag that
stops it is not raised. -/
structure Makes (flag : Cancellation) (groups : List (LoanId × List ScheduleRow))
    (summary : RunSummary) (commits : List (LoanId × AccrualResult)) (st st' : Books)
    (r : Except Fault RunSummary) : Prop where
  keys : (commits.map Prod.fst).Sublist (groups.map Prod.fst)
  commitment : ∀ c ∈ commits, t.Commitment c
  adds : st.Adds (.all commits) st'
  others : ∀ k, k ∉ groups.map Prod.fst → st.Alike k st'
  outcomes : ∀ made, r = .ok made → ∃ os,
    os.map (·.loanId) = (groups.map Prod.fst).filter (fun id => !flag.requestedBefore id) ∧
      made = summary.append (.ofOutcomes os ((groups.map Prod.fst).filter flag.requestedBefore)) ∧
      os.filterMap LoanOutcome.posted? = commits.map (fun c => (c.1, c.2.postings.length))
  version : (∀ f, r ≠ .error f) → ∀ k, st'.versionDue k =
    st.versionDue k + if k ∈ commits.map Prod.fst then 1 else 0
  due : st.ledger.Keyed → ∀ c ∈ commits, ∃ rows loan n, (c.1, rows) ∈ groups ∧
    st.ledger.loans.find? c.1 = some loan ∧
      t.due? c.1 n loan (t.used c.1 st rows) = some c.2
  complete : (∀ f, r ≠ .error f) → st.ledger.Keyed → ∀ g ∈ groups,
    flag.requestedBefore g.1 = false → (st.pending g.1).toNat ≤ t.retries →
      (g.1 ∈ commits.map Prod.fst ↔
      (st.pending g.1 = 0 ∨ t.HasDue g.1 st g.2) ∧
        t.Takes g.1 st (t.used g.1 st g.2))

variable {t} {flag : Cancellation} {id : LoanId} {rows : List ScheduleRow}
  {groups : List (LoanId × List ScheduleRow)} {summary : RunSummary} {commits : List (LoanId × AccrualResult)} {st st₁ st' : Books}
  {r : Except Fault RunSummary} {x : Except Failure LoanSummary} {c : Option AccrualResult}

/-! What a loan finds in books that look alike to it. -/

section Alike

variable {b b' : Books}

theorem used_alike (h : b.Alike id b') (hb : b.ledger.Keyed) (hb' : b'.ledger.Keyed) :
    t.used id b' rows = t.used id b rows := by
  rw [used, used, hb.candidates, hb'.candidates, h.ledger.loan, h.pending]

theorem hasDue_alike (h : b.Alike id b') : t.HasDue id b' rows ↔ t.HasDue id b rows := by
  rw [HasDue, HasDue, h.ledger.loan]

theorem takes_alike (h : b.Alike id b') : t.Takes id b' rows ↔ t.Takes id b rows := by
  rw [Takes, Takes, h.ledger.loan, h.refused]

end Alike

/-- The commit of one turn. -/
private def own (id : LoanId) (c : Option AccrualResult) : List (LoanId × AccrualResult) :=
  c.toList.map fun r => (id, r)

private theorem mem_keys_own {k : LoanId} :
    k ∈ (own id c).map Prod.fst ↔ k = id ∧ c.isSome = true := by
  cases c <;> simp [own]

private theorem all_own_append (id : LoanId) (c : Option AccrualResult)
    (commits : List (LoanId × AccrualResult)) :
    Written.all (own id c ++ commits) = (c.elim .nothing (·.written id)).append (.all commits) := by
  cases c <;> rfl

private theorem commitment_of_commits {tries : Nat} (hc : t.Commits id tries rows c st st₁ x) :
    ∀ d ∈ own id c, t.Commitment d := by
  intro d hd
  obtain ⟨r, hr, rfl⟩ := List.mem_map.mp hd
  obtain ⟨loan, n, -, hdue⟩ := hc.due r (Option.mem_toList.mp hr)
  obtain ⟨-, hresult, hne⟩ := due?_eq_some.mp hdue
  exact ⟨_, n, rfl, hresult, hne⟩

private theorem due_of_commits {tries : Nat} (hc : t.Commits id tries rows c st st₁ x) :
    ∀ d ∈ own id c, ∃ loan n, st.ledger.loans.find? d.1 = some loan ∧
      t.due? d.1 n loan (t.used d.1 st rows) = some d.2 := by
  intro d hd
  obtain ⟨r, hr, rfl⟩ := List.mem_map.mp hd
  exact hc.due r (Option.mem_toList.mp hr)

/-- The outcome of a turn tells what it committed. -/
private theorem posted?_of_commits {tries : Nat} {o : LoanOutcome}
    (hc : t.Commits id tries rows c st st₁ x) (ho : LoanOutcome.ofResult id x = .ok o) :
    o.posted?.toList = (own id c).map fun d => (d.1, d.2.postings.length) := by
  rcases x with (f | f) | s
  · cases ho
    rw [hc.refused f rfl]
    rfl
  · cases ho
  · cases ho
    obtain ⟨hid, hcount⟩ := hc.summary s rfl
    rw [LoanOutcome.posted?, hcount, hid]
    cases c with
    | none => rfl
    | some r =>
      obtain ⟨-, -, -, -, hne⟩ := commitment_of_commits hc (id, r) List.mem_cons_self
      have hcount : r.postings.length ≠ 0 := fun hzero => hne (List.length_eq_zero_iff.mp hzero)
      rw [Option.elim_some, if_neg hcount]
      rfl

/-- A run over no groups. -/
private theorem makes_nil (flag : Cancellation) (summary : RunSummary) (st : Books) :
    t.Makes flag [] summary [] st st (.ok summary) where
  keys := List.nil_sublist _
  commitment := List.forall_mem_nil _
  adds := .refl _
  others := fun k _ => .refl k _
  outcomes := by
    intro made hmade
    cases hmade
    exact ⟨[], rfl, summary.append_nil.symm, rfl⟩
  version := fun _ k => rfl
  due := fun _ => List.forall_mem_nil _
  complete := fun _ _ => List.forall_mem_nil _

/-- A run that goes on after it has left a loan out. -/
private theorem Makes.after_skip (hrequested : flag.requestedBefore id = true)
    (h : t.Makes flag groups (summary.skip id) commits st st' r) :
    t.Makes flag ((id, rows) :: groups) summary commits st st' r where
  keys := h.keys.cons id
  commitment := h.commitment
  adds := h.adds
  others := fun k hk => h.others k (List.not_mem_of_not_mem_cons hk)
  outcomes := by
    intro made hmade
    obtain ⟨os, hkeys, rfl, hposted⟩ := h.outcomes made hmade
    refine ⟨os, ?_, ?_, hposted⟩
    · rw [List.map_cons, List.filter_cons_of_neg (by simp [hrequested]), hkeys]
    · rw [List.map_cons, List.filter_cons_of_pos hrequested, RunSummary.skip_append]
  version := h.version
  due := by
    intro hkeyed d hd
    obtain ⟨rows', loan, n, hgroup, hdue⟩ := h.due hkeyed d hd
    exact ⟨rows', loan, n, List.mem_cons_of_mem _ hgroup, hdue⟩
  complete := by
    intro hr hkeyed g hg hgoing
    rcases List.mem_cons.mp hg with rfl | hg
    · rw [hrequested] at hgoing
      cases hgoing
    · exact h.complete hr hkeyed g hg hgoing

/-- A run that a turn ends by a fault. -/
private theorem makes_of_fault {f : Fault} (hc : t.Commits id t.retries rows c st st₁ x)
    (groups : List (LoanId × List ScheduleRow)) (summary : RunSummary) :
    t.Makes flag ((id, rows) :: groups) summary (own id c) st st₁ (.error f) where
  keys := by
    cases c with
    | none => exact List.nil_sublist _
    | some r => exact .cons_cons id (List.nil_sublist _)
  commitment := commitment_of_commits hc
  adds := by
    have hall := all_own_append id c []
    rw [List.append_nil, show Written.all [] = .nothing from rfl, Written.append_nothing] at hall
    rw [hall]
    exact hc.moves.adds
  others := fun k hk => hc.moves.alike (List.ne_of_not_mem_cons hk)
  outcomes := by
    intro made hmade
    cases hmade
  version := fun hfault => absurd rfl (hfault f)
  due := by
    intro _ d hd
    obtain ⟨loan, n, hloan, hdue⟩ := due_of_commits hc d hd
    obtain ⟨r, -, rfl⟩ := List.mem_map.mp hd
    exact ⟨rows, loan, n, List.mem_cons_self, hloan, hdue⟩
  complete := fun hfault => absurd rfl (hfault f)

/-- A run that goes on after a turn. -/
private theorem Makes.after_turn {o : LoanOutcome} (hgoing : flag.requestedBefore id = false)
    (hturn : t.accrueLoan id t.retries 1 rows st = (st₁, x))
    (hc : t.Commits id t.retries rows c st st₁ x) (ho : LoanOutcome.ofResult id x = .ok o)
    (hid : id ∉ groups.map Prod.fst)
    (h : t.Makes flag groups (summary.record o) commits st₁ st' r) :
    t.Makes flag ((id, rows) :: groups) summary (own id c ++ commits) st st' r := by
  have hfault : ∀ f, x ≠ .error (.fault f) := by
    rintro f rfl
    cases ho
  have hcommits : id ∉ commits.map Prod.fst := fun hmem => hid (h.keys.subset hmem)
  have halike : ∀ k, k ≠ id → st.Alike k st₁ := fun k hk => hc.moves.alike hk
  have hmem : ∀ k, k ∈ (own id c ++ commits).map Prod.fst ↔
      (k = id ∧ c.isSome = true) ∨ k ∈ commits.map Prod.fst := by
    intro k
    rw [List.map_append, List.mem_append, mem_keys_own]
  refine {
    keys := ?keys
    commitment := ?commitment
    adds := by rw [all_own_append]; exact hc.moves.adds.trans h.adds
    others := ?others
    outcomes := ?outcomes
    version := ?version
    due := ?due
    complete := ?complete }
  case keys =>
    rw [List.map_append, List.map_cons]
    cases c with
    | none => exact h.keys.cons id
    | some r => exact h.keys.cons_cons id
  case commitment =>
    intro d hd
    rcases List.mem_append.mp hd with hd | hd
    · exact commitment_of_commits hc d hd
    · exact h.commitment d hd
  case others =>
    intro k hk
    have hlater := h.others k (List.not_mem_of_not_mem_cons hk)
    exact (halike k (List.ne_of_not_mem_cons hk)).trans hlater
  case outcomes =>
    intro made hmade
    obtain ⟨os, hkeys, rfl, hposted⟩ := h.outcomes made hmade
    refine ⟨o :: os, ?_, ?_, ?_⟩
    · rw [List.map_cons, List.map_cons, List.filter_cons_of_pos (by simp [hgoing]), hkeys,
        loanId_of_ofResult hturn ho]
    · rw [List.map_cons, List.filter_cons_of_neg (by simp [hgoing]), RunSummary.record_append]
    · have hown := posted?_of_commits hc ho
      rw [List.map_append, ← hposted, ← hown, List.filterMap_cons]
      cases o.posted? <;> rfl
  case version =>
    intro hr k
    rw [h.version hr k]
    by_cases hk : k = id
    · subst hk
      rw [if_neg hcommits, Nat.add_zero, hc.version hfault]
      simp only [hmem, true_and, hcommits, or_false]
    · rw [(halike k hk).versionDue]
      simp only [hmem, hk, false_and, false_or]
  case due =>
    intro hkeyed d hd
    rcases List.mem_append.mp hd with hd | hd
    · obtain ⟨loan, n, hloan, hdue⟩ := due_of_commits hc d hd
      obtain ⟨r, -, rfl⟩ := List.mem_map.mp hd
      exact ⟨rows, loan, n, List.mem_cons_self, hloan, hdue⟩
    · have hkeyed₁ := hkeyed.of_sameIds hc.sameIds
      obtain ⟨rows', loan, n, hgroup, hloan, hdue⟩ := h.due hkeyed₁ d hd
      have hkey : d.1 ∈ groups.map Prod.fst := List.mem_map_of_mem hgroup
      have hlike := halike d.1 fun heq => hid (heq ▸ hkey)
      rw [used_alike hlike hkeyed hkeyed₁] at hdue
      exact ⟨rows', loan, n, List.mem_cons_of_mem _ hgroup, hlike.ledger.loan.symm.trans hloan, hdue⟩
  case complete =>
    intro hr hkeyed g hg hreads hfew
    rw [hmem]
    rcases List.mem_cons.mp hg with rfl | hg
    · rw [← hc.complete hfault hfew]
      simp only [true_and, hcommits, or_false]
    · have hkeyed₁ := hkeyed.of_sameIds hc.sameIds
      have hkey : g.1 ∈ groups.map Prod.fst := List.mem_map_of_mem hg
      have hne : g.1 ≠ id := fun heq => hid (heq ▸ hkey)
      have hlike := halike g.1 hne
      have hrest := h.complete hr hkeyed₁ g hg hreads (by rw [hlike.pending]; exact hfew)
      rw [used_alike hlike hkeyed hkeyed₁, hasDue_alike hlike, takes_alike hlike,
        hlike.pending] at hrest
      rw [← hrest]
      simp only [hne, false_and, false_or]

/-- Loan after loan, a run commits once at most for each, and reports each of them. -/
theorem accrueGroups_makes (h : t.accrueGroups flag groups summary st = (st', r))
    (hn : (groups.map Prod.fst).Nodup) :
    ∃ commits, t.Makes flag groups summary commits st st' r := by
  induction groups generalizing summary st with
  | nil =>
    cases h
    exact ⟨[], makes_nil flag summary _⟩
  | cons group groups ih =>
    obtain ⟨id, rows⟩ := group
    obtain ⟨hid, hn⟩ := List.nodup_cons.mp hn
    rcases accrueGroups_cons_cases h with ⟨hrequested, hrest⟩ | ⟨st₁, x, hgoing, hturn, hends⟩
    · obtain ⟨commits, hmakes⟩ := ih hrest hn
      exact ⟨commits, hmakes.after_skip hrequested⟩
    · obtain ⟨c, hc⟩ := accrueLoan_commits hturn
      rcases hends with ⟨f, -, rfl, rfl⟩ | ⟨o, ho, hrest⟩
      · exact ⟨_, makes_of_fault hc groups summary⟩
      · obtain ⟨commits, hmakes⟩ := ih hrest hn
        exact ⟨_, hmakes.after_turn hgoing hturn hc ho hid⟩

end RunTerms

/-- A run made of loans: outcomes of those before which the flag is not raised, in their order,
with the others left out, and commits, one at most for each loan, which agree with the outcomes and
are all that was written. -/
structure RunTerms.Handles (t : RunTerms) (flag : Cancellation) (ids : List LoanId)
    (os : List LoanOutcome) (rest : List LoanId) (commits : List (LoanId × AccrualResult))
    (b b' : Books) : Prop where
  attempted : os.map (·.loanId) = ids.filter fun id => !flag.requestedBefore id
  leftOut : rest = ids.filter flag.requestedBefore
  once : (commits.map Prod.fst).Sublist ids
  posted : os.filterMap LoanOutcome.posted? = commits.map fun c => (c.1, c.2.postings.length)
  commitment : ∀ c ∈ commits, t.Commitment c
  adds : b.Adds (.all commits) b'
  version : ∀ id, b'.versionDue id = b.versionDue id + if id ∈ commits.map Prod.fst then 1 else 0

namespace RunTerms.Handles

variable {t : RunTerms} {flag : Cancellation} {ids rest : List LoanId} {os : List LoanOutcome}
  {commits : List (LoanId × AccrualResult)} {b b' : Books}

theorem outcomes_eq_nil (h : t.Handles flag ids os rest commits b b')
    (hrequested : ∀ id ∈ ids, flag.requestedBefore id = true) : os = [] := by
  have hnone : ids.filter (fun id => !flag.requestedBefore id) = [] :=
    List.filter_eq_nil_iff.mpr fun id hid => by simp [hrequested id hid]
  exact List.map_eq_nil_iff.mp (h.attempted.trans hnone)

theorem rest_eq_nil (h : t.Handles flag ids os rest commits b b')
    (hgoing : ∀ id ∈ ids, flag.requestedBefore id = false) : rest = [] :=
  h.leftOut.trans (List.filter_eq_nil_iff.mpr fun id hid => by simp [hgoing id hid])

end RunTerms.Handles

namespace Batch

variable {b : Batch} {s : Settings} {mode : RunMode} {today : Date} {rows : List ScheduleRow}
  {flag : Cancellation} {st : Books}

/-- Over given rows a run makes its turns, with a result that tells of a fault in them. -/
theorem run_rows_makes (hs : b.settings = .ok s) (mode : RunMode) (today : Date)
    (rows : List ScheduleRow) (flag : Cancellation) (st : Books) :
    ∃ commits r, (⟨s, mode, today⟩ : RunTerms).Makes flag (byLoan ScheduleRow.loanId rows) .empty
        commits st (b.run mode today (some rows) flag st).books r ∧
      (b.run mode today (some rows) flag st).result =
        match r with
        | .error f => .error (.fault f)
        | .ok summary => liftM summary.result := by
  obtain ⟨hbooks, hresult⟩ := run_eq hs mode today (some rows) flag st
  rw [Option.getD_some] at hbooks hresult
  obtain ⟨commits, hmakes⟩ := RunTerms.accrueGroups_makes (Prod.ext hbooks.symm rfl)
    (grouped_groupByLoan rows).nodup
  rw [groupByLoan_eq] at hmakes hresult
  exact ⟨commits, _, hmakes, hresult⟩

/-- A run over given rows that meets no fault handles each of their loans once. -/
theorem run_rows_handles (hs : b.settings = .ok s)
    (hfault : ∀ f, (b.run mode today (some rows) flag st).result ≠ .error (.fault f)) :
    ∃ os rest commits, (⟨s, mode, today⟩ : RunTerms).Handles flag
        (loansOf ScheduleRow.loanId rows) os rest commits st
        (b.run mode today (some rows) flag st).books ∧
      (b.run mode today (some rows) flag st).result =
        liftM (RunSummary.ofOutcomes os rest).result := by
  obtain ⟨commits, r, hmakes, hresult⟩ := run_rows_makes hs mode today rows flag st
  cases r with
  | error f => exact absurd hresult (hfault f)
  | ok summary =>
    obtain ⟨os, hloans, rfl, hposted⟩ := hmakes.outcomes summary rfl
    have hkeys := hmakes.keys
    rw [keys_byLoan] at hloans hkeys hresult
    refine ⟨os, _, commits, ⟨hloans, rfl, hkeys, hposted, hmakes.commitment, hmakes.adds, ?_⟩,
      hresult⟩
    refine hmakes.version ?_
    intro f hf
    cases hf

end Batch

/-- Rows are grouped by loan, every loan once and with all its rows in order; so are the periods of a
schedule where those of one loan stand together; and a run over given rows that meets no fault handles
each of their loans once: it reports them in the order of the rows, those before which the flag was
raised as left out, and commits for each once at most. -/
theorem rows_handled_by_loan :
    (∀ rows : List ScheduleRow, groupByLoan rows = byLoan ScheduleRow.loanId rows ∧
      (GroupIndex.ofRows rows).groups = byLoan ScheduleRow.loanId rows ∧
      ((groupByLoan rows).map Prod.fst).Nodup ∧ ((groupByLoan rows).flatMap Prod.snd).Perm rows) ∧
    (∀ periods : List IssuedPeriod, Contiguous IssuedPeriod.loanId periods →
      IssuedPeriod.groupRuns periods = byLoan IssuedPeriod.loanId periods) ∧
    ∀ (b : Batch) (s : Settings) (mode : RunMode) (today : Date) (rows : List ScheduleRow)
      (flag : Cancellation) (st : Books), b.settings = .ok s →
      (∀ f, (b.run mode today (some rows) flag st).result ≠ .error (.fault f)) →
      ∃ os rest commits, (⟨s, mode, today⟩ : RunTerms).Handles flag
          (loansOf ScheduleRow.loanId rows) os rest commits st
          (b.run mode today (some rows) flag st).books ∧
        (b.run mode today (some rows) flag st).result =
          liftM (RunSummary.ofOutcomes os rest).result ∧
        ((∀ id ∈ loansOf ScheduleRow.loanId rows, flag.requestedBefore id = true) → os = []) ∧
        ((∀ id ∈ loansOf ScheduleRow.loanId rows, flag.requestedBefore id = false) → rest = []) := by
  refine ⟨fun rows => ?_, fun periods h => IssuedPeriod.groupRuns_eq h,
    fun b s mode today rows flag st hs hfault => ?_⟩
  · have hgroups := groupByLoan_eq rows
    refine ⟨hgroups, (GroupIndex.groups_ofRows rows).trans hgroups,
      (grouped_groupByLoan rows).nodup, ?_⟩
    rw [hgroups]
    exact flatMap_byLoan_perm _ rows
  · obtain ⟨os, rest, commits, hhandles, hresult⟩ := Batch.run_rows_handles hs hfault
    exact ⟨os, rest, commits, hhandles, hresult, hhandles.outcomes_eq_nil, hhandles.rest_eq_nil⟩

/-- Rows of two loans in turn. -/
def mixedRows : List ScheduleRow := [{ januaryRow with loanId := 2 }, januaryRow,
  { februaryRow with loanId := 2 }, februaryRow]

/-- Periods of two loans, those of each together. -/
def pairedPeriods : List IssuedPeriod :=
  [⟨2, januaryRow.dueDate, .zero, .zero, .zero, .zero⟩,
    ⟨2, februaryRow.dueDate, .zero, .zero, .zero, .zero⟩,
    ⟨1, januaryRow.dueDate, .zero, .zero, .zero, .zero⟩]

/-- The journal refuses one of the loans, and another writer comes before the other. -/
theorem rows_handled_by_loan_neighbours :
    (Contiguous IssuedPeriod.loanId pairedPeriods ∧
      IssuedPeriod.groupRuns pairedPeriods = byLoan IssuedPeriod.loanId pairedPeriods) ∧
    loansOf ScheduleRow.loanId mixedRows = [2, 1] ∧
    ∃ os commits, (⟨.standard, .asOfToday, firstOfMarch⟩ : RunTerms).Handles .never
      (loansOf ScheduleRow.loanId mixedRows) os [] commits neighbours
      (standardBatch.run .asOfToday firstOfMarch (some mixedRows) .never neighbours).books := by
  have hcontiguous : Contiguous IssuedPeriod.loanId pairedPeriods := by
    intro a b c hsub hac
    have hall := hsub.eq_of_length rfl
    simp only [pairedPeriods, List.cons.injEq] at hall
    obtain ⟨rfl, rfl, rfl, -⟩ := hall
    cases hac
  have hresult : (standardBatch.run .asOfToday firstOfMarch (some mixedRows)
      .never neighbours).result = refuse (.runFailed 1
        ["loan 1: journal entry posting failed for loan 1: storage error: journal unavailable"]) := by
    decide +kernel
  obtain ⟨-, hperiods, hrun⟩ := rows_handled_by_loan
  refine ⟨⟨hcontiguous, hperiods pairedPeriods hcontiguous⟩, by decide +kernel, ?_⟩
  obtain ⟨os, rest, commits, hhandles, -, -, hrest⟩ := hrun standardBatch .standard .asOfToday
    firstOfMarch mixedRows .never neighbours rfl (by rw [hresult]; rintro f ⟨⟩)
  obtain rfl := hrest fun _ _ => rfl
  exact ⟨os, commits, hhandles⟩

end LoanLedger
