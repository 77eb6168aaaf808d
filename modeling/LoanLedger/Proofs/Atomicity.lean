import LoanLedger.Proofs.Consistency
import LoanLedger.Proofs.Ledger.Accept

/-!
Commits are atomic and guarded by the version that they were computed from. A commit that is
admitted is written as a whole, any other writes nothing, and of the commits of one loan that were
computed from the same version at most one is admitted.
-/

set_option autoImplicit false
set_option relaxedAutoImplicit false

namespace LoanLedger

/-- The journal takes entries of one loan when there are none or it does not refuse that loan. -/
theorem Journal.bookAll_ok_iff {j : Journal} {id : LoanId} {es : List JournalEntry}
    (hes : ∀ e ∈ es, e.loanId = id) :
    (j.bookAll es).2 = .ok () ↔ (es ≠ [] → id ∉ j.refused) := by
  induction es generalizing j with
  | nil => exact ⟨fun _ hne => absurd rfl hne, fun _ => rfl⟩
  | cons e es ih =>
    obtain ⟨he, hrest⟩ := List.forall_mem_cons.mp hes
    rw [bookAll, book, he, List.contains_eq_mem]
    by_cases hj : id ∈ j.refused
    · simp [hj]
    · have hrest := (ih (j := { j with entries := j.entries ++ [e] }) hrest).mpr fun _ => hj
      simpa [hj] using hrest

namespace Ledger

/-- Another writer is about to come before the next commit of a loan. -/
def Contended (g : Ledger) (id : LoanId) : Prop := ∃ n, g.conflicts.find? id = some n ∧ n ≠ 0

/-- The ledger once a writer that is about to come before the next commit of a loan, if there is
one, has raised the version of that loan. -/
def afterWriter (g : Ledger) (id : LoanId) : Ledger :=
  match g.conflicts.find? id with
  | none => g
  | some n =>
    if n = 0 then g
    else { g with
      conflicts := g.conflicts.insert id (n - 1)
      loans := match g.loans.find? id with
        | none => g.loans
        | some loan => g.loans.insert id { loan with version := loan.version + 1 } }

theorem afterWriter_of_not_contended {g : Ledger} {id : LoanId} (h : ¬g.Contended id) :
    g.afterWriter id = g := by
  unfold afterWriter
  split
  · rfl
  · next n hn => exact if_pos (not_not.mp fun hne => h ⟨n, hn, hne⟩)

/-- No version has reached the last number. -/
def HasRoom (g : Ledger) : Prop :=
  ∀ id loan, g.loans.find? id = some loan → loan.version.toNat + 1 < UInt64.size

end Ledger

namespace Commit

/-- A commit of what an accrual of its loan gave, for any rows and any state of the loan. -/
def Computed (c : Commit) : Prop :=
  ∃ (input : AccrualInput) (mode : RunMode) (s : Settings) (today : Date) (firstId : Nat),
    input.loanId = c.loanId ∧ input.accrue mode s today firstId = .ok c.result

/-- The entries of a computed commit are for its loan, and there are as many as postings. -/
theorem Computed.entries {c : Commit} (h : c.Computed) :
    (∀ e ∈ c.result.entries, e.loanId = c.loanId) ∧
      (c.result.entries = [] ↔ c.result.postings = []) := by
  obtain ⟨input, mode, s, today, firstId, hid, hresult⟩ := h
  refine ⟨fun e he => (AccrualInput.loanId_of_mem_entries hresult he).trans hid, ?_⟩
  rw [← List.length_eq_zero_iff, ← List.length_eq_zero_iff,
    (AccrualInput.accrue_entries hresult).length_eq]

/-- When a commit is admitted: no other writer comes first, the loan is there at the expected
version with a row for every posting, and the journal takes the loan if it is asked. -/
structure Admitted (c : Commit) (g : Ledger) (j : Journal) : Prop where
  uncontended : ¬g.Contended c.loanId
  loan : ∃ loan, g.loans.find? c.loanId = some loan ∧ loan.version = c.expected ∧
    loan.Holds c.result.postings
  journal : c.result.postings ≠ [] → c.loanId ∉ j.refused

/-- What an admitted commit changes, and what it leaves. -/
structure Taken (c : Commit) (g g' : Ledger) (j j' : Journal) : Prop where
  loan : ∃ loan, g.loans.find? c.loanId = some loan ∧
    g'.loans.find? c.loanId = some (loan.taking c.result)
  others : ∀ id, id ≠ c.loanId → g'.loans.find? id = g.loans.find? id
  transactions : g'.transactions = g.transactions ++ c.result.postings.map (·.transaction)
  payments : g'.payments = g.payments ++ c.result.postings.flatMap (·.payments)
  arrears : g'.arrears = g.arrears
  conflicts : g'.conflicts = g.conflicts
  issuedReads : g'.issuedReads = g.issuedReads
  entries : j'.entries = j.entries ++ c.result.entries
  refused : j'.refused = j.refused

end Commit

namespace Ledger

variable {g : Ledger} {j : Journal} {c : Commit}

private theorem yieldToWriter_of_not_contended {id : LoanId} (h : ¬g.Contended id) :
    g.yieldToWriter id = (g, .ok ()) := by
  unfold yieldToWriter
  split
  · rfl
  · next n hn => exact if_pos (not_not.mp fun hne => h ⟨n, hn, hne⟩)

/-- A commit that another writer precedes is refused, and all that changes is what the writer
did. -/
private theorem commit_of_contended (h : g.Contended c.loanId) (hroom : g.HasRoom) :
    ∃ r, g.commit j c = ((g.afterWriter c.loanId, j), refuse r) := by
  obtain ⟨n, hn, hne⟩ := h
  cases hloan : g.loans.find? c.loanId with
  | none =>
    have hyield : g.yieldToWriter c.loanId = (g.afterWriter c.loanId, .ok ()) := by
      simp only [yieldToWriter, afterWriter, hn, hloan, if_neg hne]
    have hnone : (g.afterWriter c.loanId).loans.find? c.loanId = none := by
      simp only [afterWriter, hn, hloan, if_neg hne]
    have hstage : (g.afterWriter c.loanId).stage c = refuse (.loanNotFound c.loanId) := by
      rw [stage, Ledger.loan, hnone]
      rfl
    rw [commit, hyield]
    dsimp only
    rw [hstage]
    exact ⟨_, rfl⟩
  | some loan =>
    have hversion : loan.nextVersion = .ok (loan.version + 1) := if_pos (hroom _ _ hloan)
    have hyield : g.yieldToWriter c.loanId = (g.afterWriter c.loanId,
        refuse (.concurrencyConflict c.loanId loan.version (loan.version + 1))) := by
      simp only [yieldToWriter, afterWriter, hn, hloan, hversion, if_neg hne]
    rw [commit, hyield]
    exact ⟨_, rfl⟩

private theorem commit_of_stage_refused {r : Refusal} (h : ¬g.Contended c.loanId)
    (hstage : g.stage c = refuse r) : g.commit j c = ((g, j), refuse r) := by
  rw [commit, yieldToWriter_of_not_contended h]
  dsimp only
  rw [hstage]
  rfl

private theorem stage_of_holds {loan : Loan} (hloan : g.loans.find? c.loanId = some loan)
    (hversion : loan.version = c.expected) (hholds : loan.Holds c.result.postings)
    (hroom : g.HasRoom) :
    g.stage c = .ok ({ g with
      loans := g.loans.insert c.loanId (loan.taking c.result)
      transactions := g.transactions ++ c.result.postings.map (·.transaction)
      payments := g.payments ++ c.result.postings.flatMap (·.payments) }, c.expected + 1) := by
  refine bind_eq_ok.mpr ⟨loan, lift_refusal_eq_ok.mpr (loan_of_find? hloan), ?_⟩
  dsimp only
  rw [if_neg (not_not.mpr hversion)]
  refine bind_eq_ok.mpr ⟨_, Loan.accept_of_holds hholds (hroom _ _ hloan), ?_⟩
  rw [← hversion]
  rfl

/-- Nothing is staged for a loan that is not there, is at another version or has no row for a
posting. -/
private theorem stage_refused (h : ¬∃ loan, g.loans.find? c.loanId = some loan ∧
    loan.version = c.expected ∧ loan.Holds c.result.postings) : ∃ r, g.stage c = refuse r := by
  cases hloan : g.loans.find? c.loanId with
  | none =>
    rw [stage, Ledger.loan, hloan]
    exact ⟨_, rfl⟩
  | some loan =>
    rw [stage, loan_of_find? hloan]
    change ∃ r, (if loan.version ≠ c.expected then _ else _) = refuse r
    by_cases hversion : loan.version = c.expected
    · have hholds : ¬loan.Holds c.result.postings := fun hholds => h ⟨loan, hloan, hversion, hholds⟩
      obtain ⟨r, hr⟩ := Loan.accept_of_not_holds hholds
      rw [if_neg (not_not.mpr hversion), hr]
      exact ⟨r, rfl⟩
    · rw [if_pos hversion]
      exact ⟨_, rfl⟩

/-- A commit is taken as a whole when it is admitted, else refused as a whole. -/
private theorem commit_cases (hc : c.Computed) (hroom : g.HasRoom) :
    (c.Admitted g j ∧ ∃ g' j', g.commit j c = ((g', j'), .ok (c.expected + 1)) ∧
      c.Taken g g' j j') ∨
    (¬c.Admitted g j ∧ ∃ r, g.commit j c = ((g.afterWriter c.loanId, j), refuse r)) := by
  by_cases hcontended : g.Contended c.loanId
  · exact .inr ⟨fun ha => ha.uncontended hcontended, commit_of_contended hcontended hroom⟩
  rw [afterWriter_of_not_contended hcontended]
  by_cases hstaged : ∃ loan, g.loans.find? c.loanId = some loan ∧ loan.version = c.expected ∧
      loan.Holds c.result.postings
  · obtain ⟨loan, hloan, hversion, hholds⟩ := hstaged
    obtain ⟨hentries, hnone⟩ := hc.entries
    have hjournal := Journal.bookAll_ok_iff (j := j) hentries
    rw [commit, yieldToWriter_of_not_contended hcontended]
    dsimp only
    rw [stage_of_holds hloan hversion hholds hroom]
    dsimp only
    rcases hbook : j.bookAll c.result.entries with ⟨j', booked⟩
    rw [hbook] at hjournal
    rcases Journal.bookAll_spec hbook hentries with ⟨rfl, f, rfl⟩ | ⟨rfl, rfl⟩
    · refine .inr ⟨fun ha => ?_, _, rfl⟩
      have hbooked := hjournal.mpr fun hne => ha.journal fun hp => hne (hnone.mpr hp)
      cases hbooked
    · refine .inl ⟨⟨hcontended, ⟨loan, hloan, hversion, hholds⟩, fun hp => ?_⟩, _, _, rfl, {
        loan := ⟨loan, hloan, Table.find?_insert_self _ _ _⟩
        others := fun id hid => Table.find?_insert_of_ne _ hid _
        transactions := rfl
        payments := rfl
        arrears := rfl
        conflicts := rfl
        issuedReads := rfl
        entries := rfl
        refused := rfl }⟩
      exact hjournal.mp rfl fun he => hp (hnone.mp he)
  · obtain ⟨r, hr⟩ := stage_refused hstaged
    exact .inr ⟨fun ha => hstaged ha.loan, r, commit_of_stage_refused hcontended hr⟩

/-- The commits of a sequence that are admitted when they are made one after the other. -/
def accepted (g : Ledger) (j : Journal) : List Commit → List Commit
  | [] => []
  | c :: cs =>
    match g.commit j c with
    | ((g', j'), .ok _) => c :: g'.accepted j' cs
    | ((g', j'), .error _) => g'.accepted j' cs

/-- No loan appears and no version falls. -/
private def Rises (g g' : Ledger) : Prop :=
  ∀ id loan', g'.loans.find? id = some loan' →
    ∃ loan, g.loans.find? id = some loan ∧ loan.version ≤ loan'.version

private theorem Quiet.rises {g' : Ledger} {id : LoanId} (h : g.Quiet id g') : g.Rises g' := by
  intro k loan' hloan'
  by_cases hk : k = id
  · subst hk
    cases hloan : g.loans.find? k with
    | none =>
      rw [h.noLoan hloan] at hloan'
      cases hloan'
    | some loan =>
      obtain ⟨found, hfound, hversion⟩ := h.loan loan hloan
      rw [hfound] at hloan'
      cases hloan'
      exact ⟨loan, rfl, UInt64.le_iff_toNat_le.mpr hversion.version_le⟩
  · exact ⟨loan', h.others k hk ▸ hloan', UInt64.le_refl _⟩

/-- A commit lowers no version, and an admitted one raises the version that it expected. -/
private theorem rises_commit {g' : Ledger} {j' : Journal} {r : Except Failure UInt64}
    (hc : c.Computed) (h : g.commit j c = ((g', j'), r)) :
    g.Rises g' ∧ ((∃ f, r = .error f) ∨ ∃ loan loan' v, g.loans.find? c.loanId = some loan ∧
      loan.version = c.expected ∧ g'.loans.find? c.loanId = some loan' ∧
      c.expected < loan'.version ∧ r = .ok v) := by
  rcases commit_spec h hc.entries.1 with ⟨hquiet, -, hr⟩ |
    ⟨loan, loan', hloan, hversion, haccept, rfl, -, rfl⟩
  · exact ⟨hquiet.rises, .inl hr⟩
  · have hlt : loan.version < loan'.version := by
      rw [UInt64.lt_iff_toNat_lt, (Loan.eq_taking_of_accept haccept).2]
      exact Nat.lt_succ_self _
    refine ⟨fun k found hfound => ?_, .inr ⟨loan, loan', loan'.version, hloan, hversion,
      Table.find?_insert_self _ _ _, hversion ▸ hlt, rfl⟩⟩
    by_cases hk : k = c.loanId
    · subst hk
      have hfound := (Table.find?_insert_self _ _ _).symm.trans hfound
      cases hfound
      exact ⟨loan, hloan, UInt64.le_of_lt hlt⟩
    · exact ⟨found, (Table.find?_insert_of_ne _ hk _).symm.trans hfound, UInt64.le_refl _⟩

/-- Commits that are admitted later expect no version below the present one. -/
private theorem version_le_of_accepted {cs : List Commit} (hcs : ∀ c ∈ cs, c.Computed)
    {d : Commit} (hd : d ∈ g.accepted j cs) :
    ∃ loan, g.loans.find? d.loanId = some loan ∧ loan.version ≤ d.expected := by
  induction cs generalizing g j with
  | nil => cases hd
  | cons c cs ih =>
    obtain ⟨hc, hcs⟩ := List.forall_mem_cons.mp hcs
    rcases hcommit : g.commit j c with ⟨⟨g', j'⟩, r⟩
    obtain ⟨hrises, hr⟩ := rises_commit hc hcommit
    have hlater (hd : d ∈ g'.accepted j' cs) :
        ∃ loan, g.loans.find? d.loanId = some loan ∧ loan.version ≤ d.expected := by
      obtain ⟨loan', hloan', hle⟩ := ih hcs hd
      obtain ⟨loan, hloan, hle'⟩ := hrises _ loan' hloan'
      exact ⟨loan, hloan, UInt64.le_trans hle' hle⟩
    rcases hr with ⟨f, rfl⟩ | ⟨loan, loan', v, hloan, hversion, -, -, rfl⟩
    · rw [accepted, hcommit] at hd
      exact hlater hd
    · rw [accepted, hcommit] at hd
      rcases List.mem_cons.mp hd with rfl | hd
      · exact ⟨loan, hloan, hversion ▸ UInt64.le_refl _⟩
      · exact hlater hd

/-- Of several admitted commits of one loan each expects a higher version than those before it. -/
theorem pairwise_accepted (id : LoanId) {cs : List Commit} (hcs : ∀ c ∈ cs, c.Computed) :
    ((g.accepted j cs).filter fun c => c.loanId = id).Pairwise
      fun c d => c.expected < d.expected := by
  induction cs generalizing g j with
  | nil => exact .nil
  | cons c cs ih =>
    obtain ⟨hc, hcs⟩ := List.forall_mem_cons.mp hcs
    rcases hcommit : g.commit j c with ⟨⟨g', j'⟩, r⟩
    rcases (rises_commit hc hcommit).2 with
      ⟨f, rfl⟩ | ⟨loan, loan', v, -, -, hloan', hlt, rfl⟩
    · rw [accepted, hcommit]
      exact ih hcs
    · rw [accepted, hcommit]
      by_cases hid : c.loanId = id
      · rw [List.filter_cons_of_pos (by simpa using hid)]
        refine List.pairwise_cons.mpr ⟨fun d hd => ?_, ih hcs⟩
        obtain ⟨hd, hdid⟩ := List.mem_filter.mp hd
        obtain ⟨found, hfound, hle⟩ := version_le_of_accepted hcs hd
        rw [of_decide_eq_true hdid, ← hid, hloan'] at hfound
        cases hfound
        exact UInt64.lt_of_lt_of_le hlt hle
      · rw [List.filter_cons_of_neg (by simpa using hid)]
        exact ih hcs

/-- A computed commit succeeds exactly when it is admitted. Then it gives the version after the
expected one, and the results and the journal entries are written as a whole. Otherwise it is
refused and nothing is written; a writer that comes first raises the version of the loan, and that
is all. Of the commits of a loan that were computed from one version at most one is admitted. -/
theorem commit_atomic (hc : c.Computed) (hroom : g.HasRoom) :
    ((∃ v, (g.commit j c).2 = .ok v) ↔ c.Admitted g j) ∧
    (c.Admitted g j → ∃ g' j', g.commit j c = ((g', j'), .ok (c.expected + 1)) ∧
      c.Taken g g' j j') ∧
    (¬c.Admitted g j → ∃ r, g.commit j c = ((g.afterWriter c.loanId, j), refuse r)) ∧
    ∀ cs : List Commit, (∀ d ∈ cs, d.Computed) →
      ((g.accepted j cs).filter fun d => d.loanId = c.loanId).Pairwise
        fun d e => d.expected < e.expected := by
  rcases commit_cases (j := j) hc hroom with ⟨ha, g', j', hcommit, htaken⟩ | ⟨hnot, r, hr⟩
  · refine ⟨⟨fun _ => ha, fun _ => ?_⟩, fun _ => ⟨g', j', hcommit, htaken⟩,
      fun hnot => absurd ha hnot, fun _ hcs => pairwise_accepted c.loanId hcs⟩
    rw [hcommit]
    exact ⟨_, rfl⟩
  · refine ⟨⟨fun hv => ?_, fun ha => absurd ha hnot⟩, fun ha => absurd ha hnot, fun _ => ⟨r, hr⟩,
      fun _ hcs => pairwise_accepted c.loanId hcs⟩
    rw [hr] at hv
    obtain ⟨v, hv⟩ := hv
    cases hv

end Ledger

/-- The accrual of both installments with their fee as of 2024-03-01. -/
def januaryFeeInput : AccrualInput :=
  ⟨1, januaryFeeLoan.schedule, januaryFeeLoan.charges, [], []⟩

/-- What it gives, to be committed at the first version. -/
def januaryFeeCommit : Commit where
  loanId := 1
  expected := 1
  result := ((januaryFeeInput.accrue .asOfToday .standard firstOfMarch 0).toOption).getD
    ⟨1, [], [], [], none⟩

theorem hasRoom_booksOf {loan : Loan} (h : loan.version.toNat + 1 < UInt64.size) :
    (booksOf loan).ledger.HasRoom := by
  intro id found hfound
  obtain ⟨-, rfl⟩ := find?_booksOf hfound
  exact h

theorem Ledger.commit_atomic_januaryFee :
    ∃ g' j', (booksOf januaryFeeLoan).ledger.commit .empty januaryFeeCommit = ((g', j'), .ok 2) ∧
      januaryFeeCommit.Taken (booksOf januaryFeeLoan).ledger g' .empty j' := by
  have hcomputed : januaryFeeCommit.Computed :=
    ⟨januaryFeeInput, .asOfToday, .standard, firstOfMarch, 0, rfl, by decide +kernel⟩
  have hroom : (booksOf januaryFeeLoan).ledger.HasRoom := hasRoom_booksOf (by decide)
  refine (Ledger.commit_atomic hcomputed hroom).2.1 ⟨?_, ⟨januaryFeeLoan, rfl, rfl, ?_⟩, fun _ => by decide⟩
  · rintro ⟨n, hn, -⟩
    cases hn
  · unfold Loan.Holds
    decide +kernel

/-- Nothing accrued, to be committed at the first version. -/
def emptyCommit : Commit := ⟨1, 1, ⟨1, [], [], [], none⟩⟩

/-- A journal is not asked to take a loan for which nothing was posted. -/
theorem Ledger.commit_empty_refused :
    ¬∀ (g : Ledger) (j : Journal) (c : Commit), c.Computed → g.HasRoom →
      ((∃ v, (g.commit j c).2 = .ok v) ↔
        ¬g.Contended c.loanId ∧ (∃ loan, g.loans.find? c.loanId = some loan ∧
          loan.version = c.expected ∧ loan.Holds c.result.postings) ∧ c.loanId ∉ j.refused) := by
  intro h
  have hcomputed : emptyCommit.Computed :=
    ⟨⟨1, [], [], [], []⟩, .asOfToday, .standard, firstOfMarch, 0, rfl, rfl⟩
  have hroom : (booksOf (monthlyLoan [] [])).ledger.HasRoom := hasRoom_booksOf (by decide)
  obtain ⟨-, -, htakes⟩ := (h _ (Journal.empty.refusing 1) emptyCommit hcomputed hroom).mp ⟨2, rfl⟩
  exact htakes (by decide)

end LoanLedger
