import LoanLedger.Proofs.Isolation.Renaming
import LoanLedger.Proofs.Ledger.Run

/-!
A commit reads and writes nothing of other loans: on books that look alike to its loan it ends
alike, and to every other loan the books look as before.
-/

set_option autoImplicit false
set_option relaxedAutoImplicit false

namespace LoanLedger

/-- What is added at the end of the books. -/
structure Written where
  postings : List Posting
  entries : List JournalEntry
  events : List Event

namespace Written

def nothing : Written := ⟨[], [], []⟩

def append (w v : Written) : Written :=
  ⟨w.postings ++ v.postings, w.entries ++ v.entries, w.events ++ v.events⟩

/-- The same under other transaction identifiers. -/
def rename (f : TransactionId → TransactionId) (w : Written) : Written :=
  ⟨w.postings.map (.rename f), w.entries.map (.rename f), w.events.map (.rename f)⟩

/-- What was written about one loan. -/
def of (id : LoanId) (w : Written) : Written where
  postings := postingsOf id w.postings
  entries := w.entries.filter fun e => e.loanId = id
  events := w.events.filter fun e => e.loanId = id

/-- All of it is about one loan. -/
structure IsFor (id : LoanId) (w : Written) : Prop where
  postings : ∀ p ∈ w.postings, p.transaction.loanId = id
  entries : ∀ e ∈ w.entries, e.loanId = id
  events : ∀ e ∈ w.events, e.loanId = id

variable {id k : LoanId} {w v : Written} {f : TransactionId → TransactionId}

theorem isFor_nothing : nothing.IsFor id :=
  ⟨fun _ h => (nomatch h), fun _ h => (nomatch h), fun _ h => nomatch h⟩

theorem IsFor.append (hw : w.IsFor id) (hv : v.IsFor id) : (w.append v).IsFor id where
  postings p hp := (List.mem_append.mp hp).elim (hw.postings p) (hv.postings p)
  entries e he := (List.mem_append.mp he).elim (hw.entries e) (hv.entries e)
  events e he := (List.mem_append.mp he).elim (hw.events e) (hv.events e)

theorem append_rename : (w.append v).rename f = (w.rename f).append (v.rename f) := by
  simp only [append, rename, List.map_append]

theorem append_of : (w.append v).of id = (w.of id).append (v.of id) := by
  simp only [append, of, postingsOf_append, List.filter_append]

theorem nothing_append (w : Written) : nothing.append w = w := rfl

theorem append_nothing (w : Written) : w.append nothing = w := by
  simp only [append, nothing, List.append_nil]

theorem IsFor.of_eq (h : w.IsFor id) : w.of id = w := by
  simp only [of, postingsOf_eq_self h.postings]
  rw [List.filter_eq_self.mpr fun e he => decide_eq_true (h.entries e he),
    List.filter_eq_self.mpr fun e he => decide_eq_true (h.events e he)]

theorem IsFor.of_ne (h : w.IsFor id) (hk : k ≠ id) : w.of k = nothing := by
  simp only [of, postingsOf_eq_nil h.postings hk, nothing]
  rw [List.filter_eq_nil_iff.mpr fun e he hek => hk ((of_decide_eq_true hek).symm.trans
      (h.entries e he)),
    List.filter_eq_nil_iff.mpr fun e he hek => hk ((of_decide_eq_true hek).symm.trans
      (h.events e he))]

end Written

/-- Ledgers in which a loan finds the same about itself. -/
structure Ledger.Alike (id : LoanId) (g g' : Ledger) : Prop where
  loan : g'.loans.find? id = g.loans.find? id
  arrears : g'.arrears.find? id = g.arrears.find? id
  conflicts : g'.conflicts.find? id = g.conflicts.find? id

/-- Books in which a loan finds the same about itself, and which take its entries alike. -/
structure Books.Alike (id : LoanId) (b b' : Books) : Prop where
  ledger : b.ledger.Alike id b'.ledger
  refused : b'.journal.refused.contains id = b.journal.refused.contains id

/-- Books with `w` at their end. -/
structure Books.Adds (w : Written) (b b' : Books) : Prop where
  transactions : b'.ledger.transactions = b.ledger.transactions ++ w.postings.map (·.transaction)
  payments : b'.ledger.payments = b.ledger.payments ++ w.postings.flatMap (·.payments)
  entries : b'.journal.entries = b.journal.entries ++ w.entries
  events : b'.events = b.events ++ w.events

/-- Books in which only one loan has moved, with `w` written for it. -/
structure Books.Moves (id : LoanId) (w : Written) (b b' : Books) : Prop where
  isFor : w.IsFor id
  adds : b.Adds w b'
  others : ∀ k, k ≠ id → b.ledger.Alike k b'.ledger
  arrears : b'.ledger.arrears = b.ledger.arrears
  refused : b'.journal.refused = b.journal.refused

namespace Books

variable {id k : LoanId} {w v : Written} {b b' b'' : Books}

theorem Alike.refl (id : LoanId) (b : Books) : b.Alike id b := ⟨⟨rfl, rfl, rfl⟩, rfl⟩

theorem Alike.symm (h : b.Alike id b') : b'.Alike id b :=
  ⟨⟨h.ledger.loan.symm, h.ledger.arrears.symm, h.ledger.conflicts.symm⟩, h.refused.symm⟩

theorem Alike.trans (h : b.Alike id b') (h' : b'.Alike id b'') : b.Alike id b'' where
  ledger := ⟨h'.ledger.loan.trans h.ledger.loan, h'.ledger.arrears.trans h.ledger.arrears,
    h'.ledger.conflicts.trans h.ledger.conflicts⟩
  refused := h'.refused.trans h.refused

theorem Adds.silent (htransactions : b'.ledger.transactions = b.ledger.transactions)
    (hpayments : b'.ledger.payments = b.ledger.payments)
    (hentries : b'.journal.entries = b.journal.entries) (hevents : b'.events = b.events) :
    b.Adds .nothing b' where
  transactions := htransactions.trans (List.append_nil _).symm
  payments := hpayments.trans (List.append_nil _).symm
  entries := hentries.trans (List.append_nil _).symm
  events := hevents.trans (List.append_nil _).symm

theorem Adds.refl (b : Books) : b.Adds .nothing b := .silent rfl rfl rfl rfl

theorem Adds.trans (h : b.Adds w b') (h' : b'.Adds v b'') : b.Adds (w.append v) b'' where
  transactions := by
    rw [h'.transactions, h.transactions, Written.append, List.map_append, List.append_assoc]
  payments := by
    rw [h'.payments, h.payments, Written.append, List.flatMap_append, List.append_assoc]
  entries := by rw [h'.entries, h.entries, Written.append, List.append_assoc]
  events := by rw [h'.events, h.events, Written.append, List.append_assoc]

theorem Moves.refl (id : LoanId) (b : Books) : b.Moves id .nothing b :=
  ⟨Written.isFor_nothing, .refl b, fun _ _ => ⟨rfl, rfl, rfl⟩, rfl, rfl⟩

theorem Moves.trans (h : b.Moves id w b') (h' : b'.Moves id v b'') :
    b.Moves id (w.append v) b'' where
  isFor := h.isFor.append h'.isFor
  adds := h.adds.trans h'.adds
  others k hk := ⟨(h'.others k hk).loan.trans (h.others k hk).loan,
    (h'.others k hk).arrears.trans (h.others k hk).arrears,
    (h'.others k hk).conflicts.trans (h.others k hk).conflicts⟩
  arrears := h'.arrears.trans h.arrears
  refused := h'.refused.trans h.refused

theorem Moves.of_drawn {n : Nat} (h : Moves id w { b with nextId := n } b') : b.Moves id w b' :=
  ⟨h.isFor, ⟨h.adds.transactions, h.adds.payments, h.adds.entries, h.adds.events⟩, h.others,
    h.arrears, h.refused⟩

theorem Moves.alike (h : b.Moves id w b') (hk : k ≠ id) : b.Alike k b' :=
  ⟨h.others k hk, by rw [h.refused]⟩

end Books

namespace Ledger

variable {g g' : Ledger} {id : LoanId}

theorem Alike.yieldToWriter (h : g.Alike id g') :
    (g.yieldToWriter id).1.Alike id (g'.yieldToWriter id).1 ∧
      (g'.yieldToWriter id).2 = (g.yieldToWriter id).2 := by
  simp only [Ledger.yieldToWriter, h.conflicts]
  cases g.conflicts.find? id with
  | none => exact ⟨h, rfl⟩
  | some n =>
    dsimp only
    split
    · exact ⟨h, rfl⟩
    · rw [h.loan]
      cases hloan : g.loans.find? id with
      | none =>
        refine ⟨⟨h.loan, h.arrears, ?_⟩, rfl⟩
        rw [Table.find?_insert_self, Table.find?_insert_self]
      | some loan =>
        dsimp only
        cases loan.nextVersion with
        | error f =>
          refine ⟨⟨h.loan, h.arrears, ?_⟩, rfl⟩
          rw [Table.find?_insert_self, Table.find?_insert_self]
        | ok version =>
          refine ⟨⟨?_, h.arrears, ?_⟩, rfl⟩
          · rw [Table.find?_insert_self, Table.find?_insert_self]
          · rw [Table.find?_insert_self, Table.find?_insert_self]

theorem yieldToWriter_keeps (g : Ledger) (id : LoanId) :
    (g.yieldToWriter id).1.arrears = g.arrears ∧
      ∀ k, k ≠ id → (g.yieldToWriter id).1.conflicts.find? k = g.conflicts.find? k := by
  unfold yieldToWriter
  split
  · exact ⟨rfl, fun _ _ => rfl⟩
  · split
    · exact ⟨rfl, fun _ _ => rfl⟩
    · dsimp only
      split
      · exact ⟨rfl, fun k hk => Table.find?_insert_of_ne _ hk _⟩
      · split
        · exact ⟨rfl, fun k hk => Table.find?_insert_of_ne _ hk _⟩
        · exact ⟨rfl, fun k hk => Table.find?_insert_of_ne _ hk _⟩

/-- The loan as a commit would leave it. -/
private def staged (g : Ledger) (c : Commit) : Except Failure Loan := do
  let loan ← g.loan c.loanId
  if loan.version ≠ c.expected then
    refuse (.concurrencyConflict c.loanId c.expected loan.version)
  loan.accept c.result

/-- The ledger with the loan and the results of a commit. -/
private def storing (g : Ledger) (c : Commit) (loan : Loan) : Ledger :=
  { g with
    loans := g.loans.insert c.loanId loan
    transactions := g.transactions ++ c.result.postings.map (·.transaction)
    payments := g.payments ++ c.result.postings.flatMap (·.payments) }

private theorem stage_eq_map (g : Ledger) (c : Commit) :
    g.stage c = (fun loan => (g.storing c loan, loan.version)) <$> g.staged c := by
  simp only [stage, staged, map_bind]
  congr 1
  funext loan
  by_cases hversion : loan.version = c.expected
  · rw [if_neg (not_not.mpr hversion), if_neg (not_not.mpr hversion)]
    rfl
  · rw [if_pos hversion, if_pos hversion]
    rfl

theorem commit_keeps (g : Ledger) (j : Journal) (c : Commit) :
    (g.commit j c).1.1.arrears = g.arrears ∧
      ∀ k, k ≠ c.loanId → (g.commit j c).1.1.conflicts.find? k = g.conflicts.find? k := by
  obtain ⟨⟨g', r⟩, hyield⟩ : ∃ x, g.yieldToWriter c.loanId = x := ⟨_, rfl⟩
  have hkeeps := g.yieldToWriter_keeps c.loanId
  rw [hyield] at hkeeps
  simp only [commit, hyield]
  cases r with
  | error f => exact hkeeps
  | ok u =>
    dsimp only
    split
    · exact hkeeps
    · next staged version hstage =>
      obtain ⟨loan, loan', -, -, -, -, rfl⟩ := stage_eq_ok hstage
      split <;> exact hkeeps

private theorem Alike.staged {c : Commit} (h : g.Alike c.loanId g')
    (f : TransactionId → TransactionId) :
    g'.staged { c with result := c.result.rename f } = g.staged c := by
  simp only [Ledger.staged, Ledger.loan, h.loan, Loan.accept_rename]

end Ledger

/-- The journal takes the entries of a loan, or refuses them, alike under any identifiers. -/
theorem Journal.bookAll_rename {j j' : Journal} {id : LoanId} {es : List JournalEntry}
    (hes : ∀ e ∈ es, e.loanId = id) (hj : j'.refused.contains id = j.refused.contains id)
    (f : TransactionId → TransactionId) :
    (j'.bookAll (es.map (.rename f))).2 = (j.bookAll es).2 := by
  induction es generalizing j j' with
  | nil => rfl
  | cons e es ih =>
    obtain ⟨he, hes⟩ := List.forall_mem_cons.mp hes
    have he' : (e.rename f).loanId = id := he
    rw [List.map_cons, bookAll, bookAll, book, book, he, he', hj]
    cases j.refused.contains id with
    | true => rfl
    | false => exact ih hes hj

theorem Journal.refused_bookAll (j : Journal) (es : List JournalEntry) :
    (j.bookAll es).1.refused = j.refused := by
  induction es generalizing j with
  | nil => rfl
  | cons e es ih =>
    rw [bookAll, book]
    cases j.refused.contains e.loanId with
    | true => rfl
    | false => exact ih _

namespace Books

variable {b b' : Books} {c : Commit}

/-- What a commit wrote, by how it ended. -/
def written (c : Commit) : Except Failure UInt64 → Written
  | .ok _ => ⟨c.result.postings, c.result.entries, []⟩
  | .error _ => .nothing

theorem nextId_commit (b : Books) (c : Commit) : (b.commit c).1.nextId = b.nextId := rfl

/-- A commit moves its loan and no other. -/
theorem commit_moves (hpostings : ∀ p ∈ c.result.postings, p.transaction.loanId = c.loanId)
    (hentries : ∀ e ∈ c.result.entries, e.loanId = c.loanId) :
    b.Moves c.loanId (written c (b.commit c).2) (b.commit c).1 := by
  obtain ⟨⟨⟨g, j⟩, r⟩, h⟩ : ∃ x, b.ledger.commit b.journal c = x := ⟨_, rfl⟩
  obtain ⟨harrears, hconflicts⟩ := b.ledger.commit_keeps b.journal c
  rw [h] at harrears hconflicts
  have hcommit : b.commit c = ({ b with ledger := g, journal := j }, r) := by rw [commit, h]
  rw [hcommit]
  rcases Ledger.commit_spec h hentries with ⟨hquiet, rfl, f, rfl⟩ |
    ⟨loan, loan', hloan, hversion, haccept, rfl, rfl, rfl⟩
  · exact {
      isFor := Written.isFor_nothing
      adds := ⟨hquiet.transactions.trans (List.append_nil _).symm,
        hquiet.payments.trans (List.append_nil _).symm, (List.append_nil _).symm,
        (List.append_nil _).symm⟩
      others := fun k hk => ⟨hquiet.others k hk, congrArg (·.find? k) harrears, hconflicts k hk⟩
      arrears := harrears
      refused := rfl }
  · exact {
      isFor := ⟨hpostings, hentries, fun _ he => nomatch he⟩
      adds := ⟨rfl, rfl, rfl, (List.append_nil _).symm⟩
      others := fun k hk => ⟨Table.find?_insert_of_ne _ hk _, rfl, rfl⟩
      arrears := rfl
      refused := rfl }

/-- On books that look alike to its loan a commit ends alike, whatever the identifiers. -/
theorem Alike.commit (h : b.Alike c.loanId b')
    (hentries : ∀ e ∈ c.result.entries, e.loanId = c.loanId) (f : TransactionId → TransactionId) :
    (b.commit c).1.Alike c.loanId (b'.commit { c with result := c.result.rename f }).1 ∧
      (b'.commit { c with result := c.result.rename f }).2 = (b.commit c).2 := by
  obtain ⟨⟨g, r⟩, hyield⟩ : ∃ x, b.ledger.yieldToWriter c.loanId = x := ⟨_, rfl⟩
  obtain ⟨⟨g', r'⟩, hyield'⟩ : ∃ x, b'.ledger.yieldToWriter c.loanId = x := ⟨_, rfl⟩
  obtain ⟨hg, hr⟩ := h.ledger.yieldToWriter
  rw [hyield, hyield'] at hg hr
  dsimp only at hg hr
  subst hr
  simp only [Books.commit, Ledger.commit, hyield, hyield']
  cases r' with
  | error failure => exact ⟨⟨hg, h.refused⟩, rfl⟩
  | ok u =>
    simp only [Ledger.stage_eq_map, hg.staged f]
    cases g.staged c with
    | error failure => exact ⟨⟨hg, h.refused⟩, rfl⟩
    | ok loan =>
      obtain ⟨⟨j, booked⟩, hbook⟩ : ∃ x, b.journal.bookAll c.result.entries = x := ⟨_, rfl⟩
      obtain ⟨⟨j', booked'⟩, hbook'⟩ :
          ∃ x, b'.journal.bookAll (c.result.entries.map (.rename f)) = x := ⟨_, rfl⟩
      have hsame := Journal.bookAll_rename hentries h.refused f
      have hrefused := Journal.refused_bookAll b.journal c.result.entries
      have hrefused' := Journal.refused_bookAll b'.journal (c.result.entries.map (.rename f))
      rw [hbook] at hsame hrefused
      rw [hbook'] at hsame hrefused'
      dsimp only at hsame hrefused hrefused'
      subst hsame
      have hj : j'.refused.contains c.loanId = j.refused.contains c.loanId := by
        rw [hrefused, hrefused', h.refused]
      simp only [Functor.map, Except.map, AccrualResult.rename, hbook, hbook']
      cases booked' with
      | error r => exact ⟨⟨hg, hj⟩, rfl⟩
      | ok u =>
        refine ⟨⟨⟨?_, hg.arrears, hg.conflicts⟩, hj⟩, rfl⟩
        exact (Table.find?_insert_self _ _ _).trans (Table.find?_insert_self _ _ _).symm

end Books
end LoanLedger
