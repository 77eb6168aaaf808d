import LoanLedger.Proofs.Ledger.Candidates
import LoanLedger.Proofs.Ledger.Commit

/-!
The turn of one loan in a run. Whatever comes of it, the ledger, the journal and the announcements
record the same postings; the loan waits, is left alone or takes the postings of its accrual.
-/

set_option autoImplicit false
set_option relaxedAutoImplicit false

namespace LoanLedger

/-- The announcement of a posting. -/
def Posting.announcement (p : Posting) : Event :=
  .accrualCreated p.transaction.loanId p.transaction.id p.totals.installment p.transaction.amount
    p.transaction.date

/-- Whether an event announces a posting. -/
def Event.isCreation : Event → Bool
  | .accrualCreated .. => true
  | _ => false

/-- The same postings were added to all that a run writes. -/
structure Books.Records (log : List Posting) (b b' : Books) : Prop where
  transactions : b'.ledger.transactions = b.ledger.transactions ++ log.map (·.transaction)
  payments : b'.ledger.payments = b.ledger.payments ++ log.flatMap (·.payments)
  entries : ∃ es, b'.journal.entries = b.journal.entries ++ es ∧
    List.Forall₂ JournalEntry.Records log es
  events : ∃ es, b'.events = b.events ++ es ∧
    es.filter Event.isCreation = log.map Posting.announcement ∧
    ∀ e ∈ es, ∃ p ∈ log, e.loanId = p.transaction.loanId

namespace Books

theorem Records.silent {b b' : Books}
    (htransactions : b'.ledger.transactions = b.ledger.transactions)
    (hpayments : b'.ledger.payments = b.ledger.payments)
    (hentries : b'.journal.entries = b.journal.entries) (hevents : b'.events = b.events) :
    Records [] b b' where
  transactions := htransactions.trans (List.append_nil _).symm
  payments := hpayments.trans (List.append_nil _).symm
  entries := ⟨[], hentries.trans (List.append_nil _).symm, .nil⟩
  events := ⟨[], hevents.trans (List.append_nil _).symm, rfl, fun _ h => nomatch h⟩

theorem Records.refl (b : Books) : Records [] b b := .silent rfl rfl rfl rfl

theorem Records.of_drawn {log : List Posting} {b b' : Books} {n : Nat}
    (h : Records log { b with nextId := n } b') : Records log b b' :=
  ⟨h.transactions, h.payments, h.entries, h.events⟩

theorem Records.trans {ps qs : List Posting} {b b' b'' : Books} (h : Records ps b b')
    (h' : Records qs b' b'') : Records (ps ++ qs) b b'' where
  transactions := by rw [h'.transactions, h.transactions, List.map_append, List.append_assoc]
  payments := by rw [h'.payments, h.payments, List.flatMap_append, List.append_assoc]
  entries := by
    obtain ⟨es, hes, hfor⟩ := h.entries
    obtain ⟨es', hes', hfor'⟩ := h'.entries
    refine ⟨es ++ es', ?_, List.rel_append hfor hfor'⟩
    rw [hes', hes, List.append_assoc]
  events := by
    obtain ⟨es, hes, hcreated, hloans⟩ := h.events
    obtain ⟨es', hes', hcreated', hloans'⟩ := h'.events
    refine ⟨es ++ es', ?_, ?_, ?_⟩
    · rw [hes', hes, List.append_assoc]
    · rw [List.filter_append, hcreated, hcreated', List.map_append]
    · intro e he
      rcases List.mem_append.mp he with he | he
      · obtain ⟨p, hp, heq⟩ := hloans e he
        exact ⟨p, List.mem_append_left _ hp, heq⟩
      · obtain ⟨p, hp, heq⟩ := hloans' e he
        exact ⟨p, List.mem_append_right _ hp, heq⟩

end Books

/-- What an accrual of a loan reads, on the given rows. -/
def Loan.inputOn (loan : Loan) (id : LoanId) (rows : List ScheduleRow) : AccrualInput :=
  ⟨id, rows, loan.charges, loan.waivedPeriods, loan.waivers⟩

namespace RunTerms

variable (t : RunTerms) (id : LoanId)

/-- The result of an accrual of a loan on the given rows, whatever the first transaction number. -/
def Yields (loan : Loan) (rows : List ScheduleRow) (r : AccrualResult) : Prop :=
  ∃ n, (loan.inputOn id rows).accrue t.mode t.settings t.today n = .ok r

/-- The loan has something to accrue on the given rows. -/
def Owes (loan : Loan) (rows : List ScheduleRow) : Prop :=
  loan.status.isActive = true ∧ ∃ r, t.Yields id loan rows r ∧ r.postings ≠ []

/-- The loan has nothing to accrue on the given rows. -/
def Idle (loan : Loan) (rows : List ScheduleRow) : Prop :=
  loan.status.isActive = false ∨ ∃ r, t.Yields id loan rows r ∧ r.postings = []

/-- A result with postings that the loan accepts. -/
structure Posts (rows : List ScheduleRow) (loan loan' : Loan) (r : AccrualResult) : Prop where
  active : loan.status.isActive = true
  result : t.Yields id loan rows r
  nonempty : r.postings ≠ []
  accepted : loan.accept r = .ok loan'

/-- The candidate rows of a loan as it is stored. -/
def fresh (loan : Loan) : List ScheduleRow := Ledger.candidatesOf t.mode t.today loan

/-- The loan was left as it was, but for a version that other writers may have raised while there
was something to accrue. -/
structure Waits (loan loan' : Loan) : Prop where
  reversioned : loan.Reversioned loan'
  keeps : loan' = loan ∨ t.Owes id loan (t.fresh loan)

end RunTerms

/-- The turn of a loan: it fails, or has nothing to accrue, or takes the postings of its accrual.
The flag says whether the turn counts as a success. -/
inductive Loan.Turn (t : RunTerms) (id : LoanId) (loan loan' : Loan) : Bool → List Posting → Prop
  | fails (hwaits : t.Waits id loan loan') : Loan.Turn t id loan loan' false []
  | idles (hwaits : t.Waits id loan loan') (hidle : t.Idle id loan' (t.fresh loan')) :
    Loan.Turn t id loan loan' true []
  | posts {mid : Loan} {r : AccrualResult} {ok : Bool} (hwaits : t.Waits id loan mid)
      (hposts : t.Posts id (t.fresh mid) mid loan' r) : Loan.Turn t id loan loan' ok r.postings

namespace RunTerms

variable {t : RunTerms} {id : LoanId} {rows : List ScheduleRow} {st st' : Books}
  {r : Except Failure LoanSummary}

/-- The summary of a commit that took one attempt, unless the amounts have no sum. -/
def summed (id : LoanId) (r : AccrualResult) : Except Failure LoanSummary :=
  match Money.sum (r.postings.map (·.transaction.amount)) with
  | .error f => .error (.fault f)
  | .ok amount => .ok ⟨id, r.postings.length, amount, r.accruedTill, 0⟩

theorem summed_eq_ok {r : AccrualResult} {s : LoanSummary} (h : summed id r = .ok s) :
    s.loanId = id ∧ s.transactions = r.postings.length := by
  unfold summed at h
  split at h <;> cases h
  exact ⟨rfl, rfl⟩

theorem summed_eq_error {r : AccrualResult} {f : Failure} (h : summed id r = .error f) :
    ∃ g, f = .fault g := by
  unfold summed at h
  split at h <;> cases h
  exact ⟨_, rfl⟩

/-- Committing and announcing a result. -/
def conclude (id : LoanId) (version : UInt64) (result : AccrualResult) (st : Books) :
    Books × Except Failure LoanSummary :=
  if result.isEmpty then (st, .ok (.nothing id))
  else
    let drawn := { st with nextId := st.nextId + result.postings.length }
    match drawn.commit ⟨id, version, result⟩ with
    | (st, .error f) => (st, .error f)
    | (st, .ok _) =>
      let st := st.announce (result.events id)
      match Money.sum (result.postings.map (·.transaction.amount)) with
      | .error f => (st, .error (.fault f))
      | .ok amount => (st, .ok ⟨id, result.postings.length, amount, result.accruedTill, 0⟩)

/-- An attempt reads the loan, computes a result and concludes it. -/
theorem accrueOnce_eq (t : RunTerms) (id : LoanId) (rows : List ScheduleRow) (st : Books) :
    t.accrueOnce id rows st =
      match st.ledger.loans.find? id with
      | none => (st, refuse (.loanNotFound id))
      | some loan =>
        if loan.status.isActive then
          match (loan.inputOn id rows).accrue t.mode t.settings t.today st.nextId with
          | .error f => (st, .error f)
          | .ok result => conclude id loan.version result st
        else (st, .ok (.nothing id)) := by
  simp only [accrueOnce, Ledger.snapshot, Ledger.loan]
  cases st.ledger.loans.find? id with
  | none => rfl
  | some loan =>
    change (if !loan.status.isActive then _ else _) = if loan.status.isActive then _ else _
    cases loan.status.isActive <;> rfl

/-- What an attempt comes to. -/
inductive Attempted (t : RunTerms) (id : LoanId) (rows : List ScheduleRow) (st : Books) :
    Books → Except Failure LoanSummary → Prop
  | missing (hnone : st.ledger.loans.find? id = none) :
    Attempted t id rows st st (refuse (.loanNotFound id))
  | inactive {loan : Loan} (hloan : st.ledger.loans.find? id = some loan)
      (hinactive : loan.status.isActive = false) :
    Attempted t id rows st st (.ok (.nothing id))
  | fails {loan : Loan} {f : Failure} (hloan : st.ledger.loans.find? id = some loan)
      (hactive : loan.status.isActive = true)
      (hfails : (loan.inputOn id rows).accrue t.mode t.settings t.today st.nextId =
        .error f) :
    Attempted t id rows st st (.error f)
  | idles {loan : Loan} {result : AccrualResult}
      (hloan : st.ledger.loans.find? id = some loan) (hactive : loan.status.isActive = true)
      (haccrue : (loan.inputOn id rows).accrue t.mode t.settings t.today st.nextId =
        .ok result)
      (hnil : result.postings = []) :
    Attempted t id rows st st (.ok (.nothing id))
  | refused {loan : Loan} {result : AccrualResult} {b : Books} {f : Failure}
      (hloan : st.ledger.loans.find? id = some loan) (hactive : loan.status.isActive = true)
      (haccrue : (loan.inputOn id rows).accrue t.mode t.settings t.today st.nextId =
        .ok result)
      (hne : result.postings ≠ [])
      (hcommit : ({ st with nextId := st.nextId + result.postings.length } :
        Books).commit ⟨id, loan.version, result⟩ = (b, .error f)) :
    Attempted t id rows st b (.error f)
  | commits {loan : Loan} {result : AccrualResult} {b : Books} {v : UInt64}
      (hloan : st.ledger.loans.find? id = some loan) (hactive : loan.status.isActive = true)
      (haccrue : (loan.inputOn id rows).accrue t.mode t.settings t.today st.nextId =
        .ok result)
      (hne : result.postings ≠ [])
      (hcommit : ({ st with nextId := st.nextId + result.postings.length } :
        Books).commit ⟨id, loan.version, result⟩ = (b, .ok v)) :
    Attempted t id rows st (b.announce (result.events id))
      (summed id result)

theorem accrueOnce_attempted (h : t.accrueOnce id rows st = (st', r)) :
    t.Attempted id rows st st' r := by
  rw [accrueOnce_eq] at h
  split at h
  · next hnone =>
    cases h
    exact .missing hnone
  · next loan hloan =>
    split at h
    · next hactive =>
      split at h
      · next f hfails =>
        cases h
        exact .fails hloan hactive hfails
      · next result haccrue =>
        unfold conclude at h
        split at h
        · next hempty =>
          cases h
          exact .idles hloan hactive haccrue (List.isEmpty_iff.mp hempty)
        · next hempty =>
          have hne : result.postings ≠ [] := fun hnil => hempty (List.isEmpty_iff.mpr hnil)
          dsimp only at h
          split at h
          · next b f hcommit =>
            cases h
            exact .refused hloan hactive haccrue hne hcommit
          · next b v hcommit =>
            have hends : (b.announce (result.events id),
                summed id result) = (st', r) := by
              rw [← h, summed]
              cases Money.sum (result.postings.map (·.transaction.amount)) <;> rfl
            cases hends
            exact .commits hloan hactive haccrue hne hcommit
    · next hinactive =>
      cases h
      exact .inactive hloan (eq_false_of_ne_true hinactive)

private theorem events_records {r : AccrualResult}
    (hid : ∀ p ∈ r.postings, p.transaction.loanId = id)
    (htill : r.accruedTill = r.postings.getLast?.map (·.accruedTill)) :
    (r.events id).filter Event.isCreation = r.postings.map Posting.announcement ∧
      ∀ e ∈ r.events id, ∃ p ∈ r.postings, e.loanId = p.transaction.loanId := by
  have hmap : r.postings.map (fun p => Event.accrualCreated id p.transaction.id
      p.totals.installment p.transaction.amount p.transaction.date) =
      r.postings.map Posting.announcement :=
    List.map_congr_left fun p hp => by rw [Posting.announcement, hid p hp]
  simp only [AccrualResult.events]
  rw [hmap]
  constructor
  · have hall : (r.postings.map Posting.announcement).filter Event.isCreation =
        r.postings.map Posting.announcement := by
      apply List.filter_eq_self.mpr
      intro e he
      obtain ⟨p, -, rfl⟩ := List.mem_map.mp he
      rfl
    have hnone : ((r.accruedTill.map (Event.accruedTillAdvanced id)).toList).filter
        Event.isCreation = [] := by
      cases r.accruedTill <;> rfl
    rw [List.filter_append, hall, hnone, List.append_nil]
  · intro e he
    rcases List.mem_append.mp he with he | he
    · obtain ⟨p, hp, rfl⟩ := List.mem_map.mp he
      exact ⟨p, hp, rfl⟩
    · obtain ⟨till, hsome, rfl⟩ := Option.map_eq_some_iff.mp (Option.mem_toList.mp he)
      rw [htill] at hsome
      obtain ⟨p, hp, -⟩ := Option.map_eq_some_iff.mp hsome
      have hmem := List.mem_of_getLast? hp
      exact ⟨p, hmem, (hid p hmem).symm⟩

end RunTerms

/-- The commit of an accrual is refused, or recorded once it is announced. -/
theorem Books.commit_spec {b b' : Books} {input : AccrualInput} {mode : RunMode} {s : Settings}
    {today : Date} {n : Nat} {result : AccrualResult} {version : UInt64}
    {r : Except Failure UInt64} (haccrue : input.accrue mode s today n = .ok result)
    (h : b.commit ⟨input.loanId, version, result⟩ = (b', r)) :
    (b.ledger.Quiet input.loanId b'.ledger ∧ Records [] b b' ∧ ∃ f, r = .error f) ∨
    (∃ loan loan', b.ledger.loans.find? input.loanId = some loan ∧ loan.version = version ∧
      loan.accept result = .ok loan' ∧
      b'.ledger.loans = b.ledger.loans.insert input.loanId loan' ∧
      Records result.postings b { b' with events := b'.events ++ result.events input.loanId } ∧
      r = .ok loan'.version) := by
  have hid : ∀ p ∈ result.postings, p.transaction.loanId = input.loanId :=
    fun p hp => AccrualInput.accrue_loanId haccrue hp
  have hentries := AccrualInput.accrue_entries haccrue
  have hentriesId : ∀ e ∈ result.entries, e.loanId = input.loanId :=
    fun e he => AccrualInput.loanId_of_mem_entries haccrue he
  unfold commit at h
  split at h
  · next ledger journal r hcommit =>
    cases h
    rcases Ledger.commit_spec hcommit hentriesId with ⟨hquiet, rfl, hr⟩ |
      ⟨loan, loan', hloan, hversion, haccept, rfl, rfl, hr⟩
    · exact .inl ⟨hquiet, .silent hquiet.transactions hquiet.payments rfl rfl, hr⟩
    · have hevents := RunTerms.events_records hid (AccrualInput.accrue_eq_ok haccrue).2.2.2
      exact .inr ⟨loan, loan', hloan, hversion, haccept, rfl,
        ⟨rfl, rfl, ⟨_, rfl, hentries⟩, ⟨_, rfl, hevents⟩⟩, hr⟩

namespace RunTerms

variable {t : RunTerms} {id : LoanId} {rows : List ScheduleRow} {st st' : Books}
  {r : Except Failure LoanSummary}

/-- An attempt either leaves the loan waiting or alone, or everything takes its postings. -/
theorem accrueOnce_spec (h : t.accrueOnce id rows st = (st', r)) :
    (st.ledger.Quiet id st'.ledger ∧ Books.Records [] st st' ∧
      (st' = st ∨
        ∃ loan, st.ledger.loans.find? id = some loan ∧ t.Owes id loan rows) ∧
      ∀ s, r = .ok s → s.loanId = id ∧ st' = st ∧
        ∃ loan, st.ledger.loans.find? id = some loan ∧ t.Idle id loan rows) ∨
    (∃ loan loan' result, st.ledger.loans.find? id = some loan ∧
      t.Posts id rows loan loan' result ∧
      st'.ledger.loans = st.ledger.loans.insert id loan' ∧
      Books.Records result.postings st st' ∧ (∀ s, r = .ok s → s.loanId = id) ∧
      ∀ f, r ≠ .error (.refusal f)) := by
  cases accrueOnce_attempted h with
  | missing => exact .inl ⟨.refl _ _, .refl _, .inl rfl, fun s hs => nomatch hs⟩
  | fails => exact .inl ⟨.refl _ _, .refl _, .inl rfl, fun s hs => nomatch hs⟩
  | inactive hloan hinactive =>
    refine .inl ⟨.refl _ _, .refl _, .inl rfl, ?_⟩
    rintro s hs
    cases hs
    exact ⟨rfl, rfl, _, hloan, .inl hinactive⟩
  | idles hloan hactive haccrue hnil =>
    refine .inl ⟨.refl _ _, .refl _, .inl rfl, ?_⟩
    rintro s hs
    cases hs
    exact ⟨rfl, rfl, _, hloan, .inr ⟨_, ⟨_, haccrue⟩, hnil⟩⟩
  | refused hloan hactive haccrue hne hcommit =>
    rcases Books.commit_spec haccrue hcommit with ⟨hquiet, hrecords, -⟩ | ⟨_, _, _, _, _, _, _, hr⟩
    · exact .inl ⟨hquiet, hrecords.of_drawn, .inr ⟨_, hloan, hactive, _, ⟨_, haccrue⟩, hne⟩,
        fun s hs => nomatch hs⟩
    · cases hr
  | @commits loan result b v hloan hactive haccrue hne hcommit =>
    rcases Books.commit_spec haccrue hcommit with ⟨-, -, f, hf⟩ |
      ⟨stored, loan', hstored, -, haccept, hloans, hrecords, -⟩
    · cases hf
    · obtain rfl : loan = stored := Option.some.inj (hloan.symm.trans hstored)
      refine .inr ⟨loan, loan', result, hloan, ⟨hactive, ⟨_, haccrue⟩, hne, haccept⟩, hloans,
        hrecords.of_drawn, fun s hs => (summed_eq_ok hs).1, fun f hf => ?_⟩
      obtain ⟨g, hg⟩ := summed_eq_error hf
      cases hg

theorem Waits.refl (loan : Loan) : t.Waits id loan loan := ⟨.refl loan, .inl rfl⟩

theorem Waits.trans {loan loan' loan'' : Loan} (h : t.Waits id loan loan')
    (h' : t.Waits id loan' loan'') : t.Waits id loan loan'' where
  reversioned := h.reversioned.trans h'.reversioned
  keeps := by
    rcases h.keeps with rfl | howes
    · exact h'.keeps
    · exact .inr howes

end RunTerms

/-- A turn may be preceded by attempts that came to nothing. -/
theorem Loan.Turn.after_waits {t : RunTerms} {id : LoanId} {loan mid loan' : Loan} {ok : Bool}
    {log : List Posting} (hwaits : t.Waits id loan mid) (h : mid.Turn t id loan' ok log) :
    loan.Turn t id loan' ok log := by
  cases h with
  | fails h => exact .fails (hwaits.trans h)
  | idles h hidle => exact .idles (hwaits.trans h) hidle
  | posts h hposts => exact .posts (hwaits.trans h) hposts

/-- The turn of a loan, as the books see it. -/
structure Books.Turn (t : RunTerms) (id : LoanId) (ok : Bool) (log : List Posting)
    (b b' : Books) : Prop where
  loan : ∀ loan, b.ledger.loans.find? id = some loan →
    ∃ loan', b'.ledger.loans.find? id = some loan' ∧ loan.Turn t id loan' ok log
  noLoan : b.ledger.loans.find? id = none →
    b'.ledger.loans.find? id = none ∧ log = [] ∧ ok = false
  others : ∀ k, k ≠ id → b'.ledger.loans.find? k = b.ledger.loans.find? k
  records : Books.Records log b b'

namespace RunTerms

variable {t : RunTerms} {id : LoanId} {rows : List ScheduleRow} {st st' : Books}
  {r : Except Failure LoanSummary}

/-- A loan that took postings has had its turn. -/
private theorem turn_of_posts {b b' : Books} {loan loan' : Loan} {result : AccrualResult}
    (hloan : b.ledger.loans.find? id = some loan)
    (hposts : t.Posts id (t.fresh loan) loan loan' result)
    (hloans : b'.ledger.loans = b.ledger.loans.insert id loan')
    (hrecords : Books.Records result.postings b b') :
    Books.Turn t id true result.postings b b' where
  loan := by
    intro found hfound
    obtain rfl : loan = found := Option.some.inj (hloan.symm.trans hfound)
    exact ⟨loan', hloans ▸ Table.find?_insert_self _ _ _, .posts (.refl loan) hposts⟩
  noLoan := by
    intro hnone
    rw [hloan] at hnone
    cases hnone
  others := by
    intro k hk
    rw [hloans]
    exact Table.find?_insert_of_ne _ hk _
  records := hrecords

/-- A loan that has nothing to accrue has had its turn. -/
private theorem turn_of_idle {b b' : Books} {loan : Loan}
    (hloan : b.ledger.loans.find? id = some loan) (hidle : t.Idle id loan (t.fresh loan))
    (hsame : b' = b) : Books.Turn t id true [] b b' where
  loan := by
    intro found hfound
    obtain rfl : loan = found := Option.some.inj (hloan.symm.trans hfound)
    exact ⟨loan, hsame ▸ hloan, .idles (.refl loan) hidle⟩
  noLoan := by
    intro hnone
    rw [hloan] at hnone
    cases hnone
  others := fun k _ => by rw [hsame]
  records := hsame ▸ .refl b

/-- An attempt on the rows as they are stored. If it is refused, nothing was posted. -/
theorem accrueOnce_turn (h : t.accrueOnce id rows st = (st', r))
    (hrows : ∀ loan, st.ledger.loans.find? id = some loan → rows = t.fresh loan) :
    ∃ ok log, Books.Turn t id ok log st st' ∧
      (∀ s, r = .ok s → s.loanId = id ∧ ok = true) ∧
      ∀ f, r = .error (.refusal f) → st.ledger.Quiet id st'.ledger ∧
        Books.Records [] st st' ∧
        ∀ loan loan', st.ledger.loans.find? id = some loan →
          st'.ledger.loans.find? id = some loan' → t.Waits id loan loan' := by
  rcases accrueOnce_spec h with ⟨hquiet, hrecords, hkeeps, hok⟩ |
    ⟨loan, loan', result, hloan, hposts, hloans, hrecords, hok, hrefusal⟩
  · -- Nothing was posted: the loan is the same, or it still owes what it was tried for.
    have hwaits : ∀ loan loan', st.ledger.loans.find? id = some loan →
        st'.ledger.loans.find? id = some loan' → t.Waits id loan loan' := by
      intro loan loan' hloan hloan'
      obtain ⟨found, hfound, hreversioned⟩ := hquiet.loan loan hloan
      obtain rfl : found = loan' := Option.some.inj (hfound.symm.trans hloan')
      refine ⟨hreversioned, ?_⟩
      rcases hkeeps with heq | ⟨owing, howing, howes⟩
      · rw [heq, hloan] at hloan'
        exact .inl (Option.some.inj hloan').symm
      · obtain rfl : owing = loan := Option.some.inj (howing.symm.trans hloan)
        rw [hrows owing hloan] at howes
        exact .inr howes
    cases r with
    | ok s =>
      obtain ⟨hid, heq, loan, hloan, hidle⟩ := hok s rfl
      rw [hrows loan hloan] at hidle
      refine ⟨true, [], turn_of_idle hloan hidle heq, ?_, fun f hf => nomatch hf⟩
      rintro s' hs'
      cases hs'
      exact ⟨hid, rfl⟩
    | error f =>
      refine ⟨false, [], ⟨?_, ?_, hquiet.others, hrecords⟩, fun s hs => (nomatch hs),
        fun _ _ => ⟨hquiet, hrecords, hwaits⟩⟩
      · intro loan hloan
        obtain ⟨loan', hloan', -⟩ := hquiet.loan loan hloan
        exact ⟨loan', hloan', .fails (hwaits loan loan' hloan hloan')⟩
      · exact fun hnone => ⟨hquiet.noLoan hnone, rfl, rfl⟩
  · rw [hrows loan hloan] at hposts
    exact ⟨true, result.postings, turn_of_posts hloan hposts hloans hrecords,
      fun s hs => ⟨hok s hs, rfl⟩, fun f hf => absurd hf (hrefusal f)⟩

end RunTerms

/-- A loan of the ledger afterwards was there before, at a version that is not higher. -/
theorem Ledger.Quiet.before {id k : LoanId} {g g' : Ledger} {loan' : Loan} (h : g.Quiet id g')
    (hloan' : g'.loans.find? k = some loan') :
    ∃ loan, g.loans.find? k = some loan ∧ loan.Reversioned loan' := by
  by_cases hk : k = id
  · subst hk
    cases hloan : g.loans.find? k with
    | none =>
      rw [h.noLoan hloan] at hloan'
      cases hloan'
    | some loan =>
      obtain ⟨found, hfound, hreversioned⟩ := h.loan loan hloan
      have hsame : found = loan' := Option.some.inj (hfound.symm.trans hloan')
      exact ⟨loan, rfl, hsame ▸ hreversioned⟩
  · rw [h.others k hk] at hloan'
    exact ⟨loan', hloan', .refl loan'⟩

theorem Loan.Reversioned.sound {id : LoanId} {loan loan' : Loan} (h : loan.Reversioned loan')
    (hs : loan.Sound id) : loan'.Sound id := by
  rw [h.same]
  exact ⟨hs.id_eq, hs.rows, hs.rowIds⟩

theorem Loan.Reversioned.filed {id : LoanId} {loan loan' : Loan} (h : loan.Reversioned loan')
    (hs : loan.Filed id) : loan'.Filed id := by
  rw [h.same]
  exact ⟨hs.id_eq, hs.rows⟩

theorem Ledger.Quiet.filed {id : LoanId} {g g' : Ledger} (hg : g.Filed) (h : g.Quiet id g') :
    g'.Filed := by
  intro k loan' hloan'
  obtain ⟨loan, hloan, hreversioned⟩ := h.before hloan'
  exact hreversioned.filed (hg k loan hloan)

namespace RunTerms

variable {t : RunTerms} {id : LoanId}

/-- After an attempt a turn is over, unless the attempt was refused and there are tries left. -/
theorem accrueLoan_cases {tries attempt : Nat} {rows : List ScheduleRow} {st st' st₁ : Books}
    {r r₁ : Except Failure LoanSummary} (hattempt : t.accrueOnce id rows st = (st₁, r₁))
    (h : t.accrueLoan id tries attempt rows st = (st', r)) :
    (st' = st₁ ∧ ∀ s, r = .ok s → ∃ s₁, r₁ = .ok s₁ ∧ s = { s₁ with attempts := attempt }) ∨
    (∃ f k, r₁ = .error (.refusal f) ∧ f.isRetryable = true ∧ tries = k + 1 ∧
      t.accrueLoan id k (attempt + 1) (st₁.ledger.candidates (some id) t.mode t.today) st₁ =
        (st', r)) := by
  unfold accrueLoan at h
  rw [hattempt] at h
  cases r₁ with
  | ok s =>
    cases h
    refine .inl ⟨rfl, ?_⟩
    rintro s' hs'
    cases hs'
    exact ⟨s, rfl, rfl⟩
  | error f =>
    cases f with
    | fault f =>
      cases h
      exact .inl ⟨rfl, fun s hs => nomatch hs⟩
    | refusal f =>
      dsimp only at h
      split at h
      · next hretry =>
        cases tries with
        | zero =>
          cases h
          exact .inl ⟨rfl, fun s hs => nomatch hs⟩
        | succ k => exact .inr ⟨f, k, rfl, hretry, rfl, h⟩
      · cases h
        exact .inl ⟨rfl, fun s hs => nomatch hs⟩

/-- The attempts at a loan make one turn. -/
theorem accrueLoan_turn {tries attempt : Nat} {rows : List ScheduleRow} {st st' : Books}
    {r : Except Failure LoanSummary} (hg : st.ledger.Filed)
    (hrows : ∀ loan, st.ledger.loans.find? id = some loan → rows = t.fresh loan)
    (h : t.accrueLoan id tries attempt rows st = (st', r)) :
    ∃ ok log, Books.Turn t id ok log st st' ∧
      ∀ s, r = .ok s → s.loanId = id ∧ ok = true := by
  induction tries using Nat.strong_induction_on generalizing attempt rows st with
  | _ tries ih =>
    rcases hattempt : t.accrueOnce id rows st with ⟨st₁, r₁⟩
    obtain ⟨ok, log, hturn, hok, hrefusal⟩ := accrueOnce_turn hattempt hrows
    rcases accrueLoan_cases hattempt h with ⟨rfl, hr⟩ | ⟨f, k, hf, -, rfl, hrest⟩
    · refine ⟨ok, log, hturn, fun s hs => ?_⟩
      obtain ⟨s₁, hs₁, rfl⟩ := hr s hs
      exact hok s₁ hs₁
    · obtain ⟨hquiet, hrecords, hwaits⟩ := hrefusal f hf
      have hfiled := hquiet.filed hg
      have hfresh : ∀ loan, st₁.ledger.loans.find? id = some loan →
          st₁.ledger.candidates (some id) t.mode t.today = t.fresh loan := by
        intro loan hloan
        rw [Ledger.candidates_some hfiled, hloan, Option.toList_some, List.flatMap_singleton]
        rfl
      obtain ⟨ok', log', hturn', hok'⟩ := ih k (Nat.lt_succ_self k) hfiled hfresh hrest
      refine ⟨ok', log', ⟨?_, ?_, ?_, hrecords.trans hturn'.records⟩, hok'⟩
      · intro loan hloan
        obtain ⟨mid, hmid, -⟩ := hquiet.loan loan hloan
        obtain ⟨loan', hloan', hturn''⟩ := hturn'.loan mid hmid
        exact ⟨loan', hloan', hturn''.after_waits (hwaits loan mid hloan hmid)⟩
      · exact fun hnone => hturn'.noLoan (hquiet.noLoan hnone)
      · exact fun k hk => (hturn'.others k hk).trans (hquiet.others k hk)

end RunTerms
end LoanLedger
