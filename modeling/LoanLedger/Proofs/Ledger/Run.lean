import LoanLedger.Proofs.Ledger.Accept
import LoanLedger.Proofs.Ledger.Turn

/-!
What a run does. Every loan has one turn at most, on its rows as they are stored then, and all that
the run wrote is recorded alike in the ledger, the journal and the announcements.
-/

set_option autoImplicit false
set_option relaxedAutoImplicit false

namespace LoanLedger

/-- The date up to which a run accrues. -/
def RunMode.reach (today : Date) : RunMode → Date
  | asOfToday => today
  | tillDate till => till

/-- The postings of one loan. -/
def postingsOf (id : LoanId) (log : List Posting) : List Posting :=
  log.filter fun p => p.transaction.loanId = id

theorem postingsOf_append (id : LoanId) (ps qs : List Posting) :
    postingsOf id (ps ++ qs) = postingsOf id ps ++ postingsOf id qs :=
  List.filter_append ..

theorem postingsOf_eq_self {id : LoanId} {log : List Posting}
    (h : ∀ p ∈ log, p.transaction.loanId = id) : postingsOf id log = log :=
  List.filter_eq_self.mpr fun p hp => decide_eq_true (h p hp)

theorem postingsOf_eq_nil {id k : LoanId} {log : List Posting}
    (h : ∀ p ∈ log, p.transaction.loanId = id) (hk : k ≠ id) : postingsOf k log = [] := by
  apply List.filter_eq_nil_iff.mpr
  intro p hp hpk
  apply hk
  rw [← of_decide_eq_true hpk, h p hp]

variable {t : RunTerms} {id : LoanId} {loan loan' : Loan}

theorem RunTerms.nodup_fresh (hs : loan.Sound id) : ((t.fresh loan).map (·.rowId)).Nodup := by
  simp only [fresh, Ledger.candidatesOf]
  split
  · rw [List.map_map]
    exact (List.filter_sublist.map _).nodup hs.rowIds
  · exact List.nodup_nil

theorem RunTerms.accruedTill_fresh {row : ScheduleRow} (h : row ∈ t.fresh loan) :
    row.accruedTill = loan.accruedTill := by
  obtain ⟨-, stored, -, -, rfl⟩ := Ledger.mem_candidatesOf h
  rfl

/-- A candidate row of an active loan is read, with the date that the loan is accrued to. -/
theorem RunTerms.mem_fresh {row : ScheduleRow} (hactive : loan.status.isActive = true)
    (hrow : row ∈ loan.schedule) (hcandidate : Ledger.isCandidate t.mode t.today row = true) :
    { row with accruedTill := loan.accruedTill } ∈ t.fresh loan := by
  simp only [fresh, Ledger.candidatesOf]
  rw [if_pos hactive]
  exact List.mem_map_of_mem (f := fun row => { row with accruedTill := loan.accruedTill })
    (List.mem_filter.mpr ⟨hrow, hcandidate⟩)

theorem RunTerms.nodup_plan (hs : loan.Sound id) :
    ((plan t.mode (t.fresh loan)).map (·.1.rowId)).Nodup := by
  have hsub := (plan_sublist t.mode (t.fresh loan)).map (·.rowId)
  rw [List.map_map] at hsub
  exact hsub.nodup (nodup_fresh hs)

/-- A run brings the rows of its plan, which are rows of the loan, up to the date of the run. -/
theorem RunTerms.reaches_of_mem_plan {task : ScheduleRow × Extent}
    (h : task ∈ plan t.mode (t.fresh loan)) :
    task.2.Reaches (t.mode.reach t.today) task.1 ∧
      ∃ row ∈ loan.schedule, ∃ stamp, task.1 = { row with accruedTill := stamp } := by
  have hcandidate : task.1 ∈ Ledger.candidatesOf t.mode t.today loan :=
    (plan_sublist t.mode (t.fresh loan)).subset (List.mem_map_of_mem h)
  obtain ⟨-, row, hrow, his, heq⟩ := Ledger.mem_candidatesOf hcandidate
  refine ⟨?_, row, hrow, loan.accruedTill, heq⟩
  have hfits := plan_fits h
  cases hmode : t.mode with
  | asOfToday =>
    rw [hmode] at h his
    obtain ⟨row', -, rfl⟩ := List.mem_map.mp h
    have heq : row' = { row with accruedTill := loan.accruedTill } := heq
    have hdue : row.dueDate ≤ t.today := of_decide_eq_true his
    rw [heq]
    exact hdue
  | tillDate till =>
    rw [hmode] at h
    have htill := plan_till h
    obtain ⟨row', e⟩ := task
    cases e with
    | whole till' =>
      obtain rfl : till' = till := htill
      exact hfits
    | upTo till' =>
      obtain rfl : till' = till := htill
      exact ⟨rfl, Int.le_of_lt hfits⟩

/-- The postings of a result are for the stored rows, and the loan takes them over. -/
theorem RunTerms.Posts.accepted_eq {r : AccrualResult}
    (h : t.Posts id (t.fresh loan) loan loan' r) (hs : loan.Sound id) :
    loan' = { loan with
      schedule := loan.schedule.map (Loan.settledBy r.postings)
      charges := r.charges
      accruedTill := r.accruedTill.or loan.accruedTill
      version := loan'.version } ∧ loan'.version.toNat = loan.version.toNat + 1 := by
  obtain ⟨n, hresult⟩ := h.result
  exact Loan.accept_eq_ok h.accepted hs.rowIds (AccrualInput.accrue_nodup hresult (nodup_fresh hs))

theorem Loan.loanId_settledBy (ps : List Posting) (row : ScheduleRow) :
    (settledBy ps row).loanId = row.loanId := by
  simp only [settledBy]
  split <;> rfl

theorem Loan.dueDate_settledBy (ps : List Posting) (row : ScheduleRow) :
    (settledBy ps row).dueDate = row.dueDate := by
  simp only [settledBy]
  split <;> rfl

theorem Loan.fromDate_settledBy (ps : List Posting) (row : ScheduleRow) :
    (settledBy ps row).fromDate = row.fromDate := by
  simp only [settledBy]
  split <;> rfl

/-- A commit leaves the loan sound. -/
theorem Loan.Sound.accepted {ps : List Posting} (hs : loan.Sound id)
    (hid : loan'.id = loan.id) (hschedule : loan'.schedule = loan.schedule.map (settledBy ps)) :
    loan'.Sound id := by
  refine ⟨hid.trans hs.id_eq, ?_, ?_⟩
  · intro row hrow
    rw [hschedule] at hrow
    obtain ⟨stored, hstored, rfl⟩ := List.mem_map.mp hrow
    rw [loanId_settledBy]
    exact hs.rows stored hstored
  · rw [hschedule, List.map_map]
    convert hs.rowIds using 2
    funext row
    exact rowId_settledBy ps row

theorem RunTerms.Posts.sound {r : AccrualResult} (h : t.Posts id (t.fresh loan) loan loan' r)
    (hs : loan.Sound id) : loan'.Sound id := by
  have hloan' := (h.accepted_eq hs).1
  exact hs.accepted (by rw [hloan']) (by rw [hloan'])

namespace Loan.Turn

variable {ok : Bool} {log : List Posting}

theorem sound (h : loan.Turn t id loan' ok log) (hs : loan.Sound id) : loan'.Sound id := by
  cases h with
  | fails h => exact h.reversioned.sound hs
  | idles h _ => exact h.reversioned.sound hs
  | posts h hposts => exact hposts.sound (h.reversioned.sound hs)

theorem filed (h : loan.Turn t id loan' ok log) (hs : loan.Filed id) : loan'.Filed id := by
  cases h with
  | fails h => exact h.reversioned.filed hs
  | idles h _ => exact h.reversioned.filed hs
  | posts h hposts => exact (h.reversioned.filed hs).accept hposts.accepted

theorem loanId (h : loan.Turn t id loan' ok log) :
    ∀ p ∈ log, p.transaction.loanId = id := by
  cases h with
  | fails _ => exact fun p hp => nomatch hp
  | idles _ _ => exact fun p hp => nomatch hp
  | posts _ hposts =>
    obtain ⟨n, hresult⟩ := hposts.result
    exact fun p hp => AccrualInput.accrue_loanId hresult hp

theorem schedule_eq (h : loan.Turn t id loan' ok log) (hs : loan.Sound id) :
    loan'.schedule = loan.schedule.map (settledBy log) := by
  have hwaiting : ∀ {mid : Loan}, loan.Reversioned mid → mid.schedule = loan.schedule :=
    fun hmid => congrArg (·.schedule) hmid.same
  cases h with
  | fails h => exact (hwaiting h.reversioned).trans (List.map_id _).symm
  | idles h _ => exact (hwaiting h.reversioned).trans (List.map_id _).symm
  | posts h hposts =>
    rw [(hposts.accepted_eq (h.reversioned.sound hs)).1, hwaiting h.reversioned]

/-- What a turn posts is what an accrual of the loan as it was before it yields. -/
theorem yields (h : loan.Turn t id loan' ok log) :
    log = [] ∨ ∃ r, t.Yields id loan (t.fresh loan) r ∧ r.postings = log := by
  cases h with
  | fails _ => exact .inl rfl
  | idles _ _ => exact .inl rfl
  | @posts mid r _ h hposts =>
    obtain ⟨n, hresult⟩ := hposts.result
    rw [h.reversioned.same] at hresult
    exact .inr ⟨r, ⟨n, hresult⟩, rfl⟩

/-- A turn that succeeds posts what an accrual of the loan as it was before yields, if the loan is
active. -/
theorem yields_of_success (h : loan.Turn t id loan' true log)
    (hactive : loan.status.isActive = true) :
    ∃ r, t.Yields id loan (t.fresh loan) r ∧ r.postings = log := by
  cases h with
  | idles h hidle =>
    have hsame := h.reversioned.same
    rcases hidle with hinactive | ⟨r, ⟨n, hresult⟩, hnil⟩
    · rw [hsame, hactive] at hinactive
      cases hinactive
    · rw [hsame] at hresult
      exact ⟨r, ⟨n, hresult⟩, hnil⟩
  | @posts mid r _ h hposts =>
    obtain ⟨n, hresult⟩ := hposts.result
    rw [h.reversioned.same] at hresult
    exact ⟨r, ⟨n, hresult⟩, rfl⟩

end Loan.Turn

/-- What a run does to the books: every loan has a turn, if only an empty one, and what the turns
posted is recorded. The loans in `done` succeeded. -/
structure Books.Ran (t : RunTerms) (done : List LoanId) (log : List Posting)
    (b b' : Books) : Prop where
  loan : ∀ k loan, b.ledger.loans.find? k = some loan →
    ∃ loan' ok, b'.ledger.loans.find? k = some loan' ∧
      loan.Turn t k loan' ok (postingsOf k log) ∧ (k ∈ done → ok = true)
  noLoan : ∀ k, b.ledger.loans.find? k = none →
    b'.ledger.loans.find? k = none ∧ postingsOf k log = [] ∧ k ∉ done
  records : Books.Records log b b'

namespace Books

theorem Ran.refl (t : RunTerms) (b : Books) : Ran t [] [] b b where
  loan _ loan h := ⟨loan, false, h, .fails (.refl loan), fun h => nomatch h⟩
  noLoan _ h := ⟨h, rfl, List.not_mem_nil⟩
  records := .refl b

theorem Turn.loanId {ok : Bool} {log : List Posting} {b b' : Books}
    (h : Books.Turn t id ok log b b') : ∀ p ∈ log, p.transaction.loanId = id := by
  cases hloan : b.ledger.loans.find? id with
  | none =>
    rw [(h.noLoan hloan).2.1]
    exact fun p hp => nomatch hp
  | some loan =>
    obtain ⟨loan', -, hturn⟩ := h.loan loan hloan
    exact hturn.loanId

theorem Turn.filed {ok : Bool} {log : List Posting} {b b' : Books}
    (h : Books.Turn t id ok log b b') (hb : b.ledger.Filed) : b'.ledger.Filed := by
  intro k loan' hloan'
  by_cases hk : k = id
  · subst hk
    cases hloan : b.ledger.loans.find? k with
    | none =>
      rw [(h.noLoan hloan).1] at hloan'
      cases hloan'
    | some loan =>
      obtain ⟨found, hfound, hturn⟩ := h.loan loan hloan
      have hsame : found = loan' := Option.some.inj (hfound.symm.trans hloan')
      exact hsame ▸ hturn.filed (hb k loan hloan)
  · rw [h.others k hk] at hloan'
    exact hb k loan' hloan'

theorem Ran.before {done : List LoanId} {log : List Posting} {b b' : Books}
    (h : Ran t done log b b') {k : LoanId} (hloan' : b'.ledger.loans.find? k = some loan') :
    ∃ loan ok, b.ledger.loans.find? k = some loan ∧ loan.Turn t k loan' ok (postingsOf k log) := by
  cases hloan : b.ledger.loans.find? k with
  | none =>
    rw [(h.noLoan k hloan).1] at hloan'
    cases hloan'
  | some loan =>
    obtain ⟨found, ok, hfound, hturn, -⟩ := h.loan k loan hloan
    have hsame : found = loan' := Option.some.inj (hfound.symm.trans hloan')
    exact ⟨loan, ok, rfl, hsame ▸ hturn⟩

theorem Ran.sound {done : List LoanId} {log : List Posting} {b b' : Books}
    (h : Ran t done log b b') (hb : b.ledger.Sound) : b'.ledger.Sound := by
  intro k loan' hloan'
  obtain ⟨loan, ok, hloan, hturn⟩ := h.before hloan'
  exact hturn.sound (hb k loan hloan)

theorem Ran.filed {done : List LoanId} {log : List Posting} {b b' : Books}
    (h : Ran t done log b b') (hb : b.ledger.Filed) : b'.ledger.Filed := by
  intro k loan' hloan'
  obtain ⟨loan, ok, hloan, hturn⟩ := h.before hloan'
  exact hturn.filed (hb k loan hloan)

/-- A turn of one loan, and then turns of others. -/
theorem Ran.cons {ok : Bool} {log log' : List Posting} {done done' : List LoanId}
    {b b₁ b' : Books} (hturn : Books.Turn t id ok log b b₁) (h : Ran t done log' b₁ b')
    (hid : b'.ledger.loans.find? id = b₁.ledger.loans.find? id ∧ postingsOf id log' = [])
    (hdone : ∀ k ∈ done', (k = id ∧ ok = true) ∨ (k ≠ id ∧ k ∈ done)) :
    Ran t done' (log ++ log') b b' where
  loan k loan hloan := by
    rw [postingsOf_append]
    by_cases hk : k = id
    · subst hk
      obtain ⟨loan', hloan', hloanTurn⟩ := hturn.loan loan hloan
      rw [postingsOf_eq_self hturn.loanId, hid.2, List.append_nil]
      refine ⟨loan', ok, hid.1 ▸ hloan', hloanTurn, fun hmem => ?_⟩
      rcases hdone k hmem with ⟨-, hok⟩ | ⟨hne, -⟩
      · exact hok
      · exact absurd rfl hne
    · rw [← hturn.others k hk] at hloan
      obtain ⟨loan', ok', hloan', hloanTurn, hok⟩ := h.loan k loan hloan
      rw [postingsOf_eq_nil hturn.loanId hk, List.nil_append]
      refine ⟨loan', ok', hloan', hloanTurn, fun hmem => ?_⟩
      rcases hdone k hmem with ⟨heq, -⟩ | ⟨-, hmem⟩
      · exact absurd heq hk
      · exact hok hmem
  noLoan k hnone := by
    rw [postingsOf_append]
    by_cases hk : k = id
    · subst hk
      obtain ⟨hnone', rfl, rfl⟩ := hturn.noLoan hnone
      refine ⟨hid.1.trans hnone', hid.2, fun hmem => ?_⟩
      rcases hdone k hmem with ⟨-, hok⟩ | ⟨hne, -⟩
      · cases hok
      · exact hne rfl
    · rw [← hturn.others k hk] at hnone
      obtain ⟨hnone', hlog, hnot⟩ := h.noLoan k hnone
      rw [postingsOf_eq_nil hturn.loanId hk, hlog]
      refine ⟨hnone', rfl, fun hmem => ?_⟩
      rcases hdone k hmem with ⟨heq, -⟩ | ⟨-, hmem⟩
      · exact hk heq
      · exact hnot hmem
  records := hturn.records.trans h.records

/-- Turns in which only these loans have a part. -/
structure RanAmong (t : RunTerms) (ids done : List LoanId) (log : List Posting) (b b' : Books) :
    Prop where
  ran : Ran t done log b b'
  others : ∀ k, k ∉ ids → k ∉ done ∧ postingsOf k log = [] ∧
    b'.ledger.loans.find? k = b.ledger.loans.find? k

theorem RanAmong.refl (t : RunTerms) (ids : List LoanId) (b : Books) : RanAmong t ids [] [] b b :=
  ⟨.refl t b, fun _ _ => ⟨List.not_mem_nil, rfl, rfl⟩⟩

theorem RanAmong.skip {ids done : List LoanId} {log : List Posting} {b b' : Books}
    (h : RanAmong t ids done log b b') (id : LoanId) : RanAmong t (id :: ids) done log b b' :=
  ⟨h.ran, fun k hk => h.others k fun hmem => hk (List.mem_cons_of_mem _ hmem)⟩

/-- A turn of one loan, and then turns among others. -/
theorem RanAmong.cons {ok : Bool} {log log' : List Posting} {ids done done' : List LoanId}
    {b b₁ b' : Books} (hturn : Books.Turn t id ok log b b₁) (h : RanAmong t ids done log' b₁ b')
    (hid : id ∉ ids) (hdone : ∀ k ∈ done', (k = id ∧ ok = true) ∨ k ∈ done) :
    RanAmong t (id :: ids) done' (log ++ log') b b' := by
  obtain ⟨hidDone, hidLog, hidLoan⟩ := h.others id hid
  refine ⟨h.ran.cons hturn ⟨hidLoan, hidLog⟩ fun k hk => ?_, fun k hk => ?_⟩
  · rcases hdone k hk with hk | hk
    · exact .inl hk
    · exact .inr ⟨fun heq => hidDone (heq ▸ hk), hk⟩
  · obtain ⟨hkid, hk⟩ := not_or.mp (List.mem_cons.not.mp hk)
    obtain ⟨hkDone, hkLog, hkLoan⟩ := h.others k hk
    refine ⟨fun hmem => ?_, ?_, hkLoan.trans (hturn.others k hkid)⟩
    · rcases hdone k hmem with ⟨heq, -⟩ | hmem
      · exact hkid heq
      · exact hkDone hmem
    · rw [postingsOf_append, postingsOf_eq_nil hturn.loanId hkid, hkLog, List.nil_append]

/-- Of the loans that are counted as done some may be left out. -/
theorem RanAmong.mono {ids done done' : List LoanId} {log : List Posting} {b b' : Books}
    (h : RanAmong t ids done log b b') (hsub : done' ⊆ done) : RanAmong t ids done' log b b' where
  ran :=
    { loan k loan hloan := by
        obtain ⟨loan', ok, hloan', hturn, hok⟩ := h.ran.loan k loan hloan
        exact ⟨loan', ok, hloan', hturn, fun hk => hok (hsub hk)⟩
      noLoan k hnone := by
        obtain ⟨hnone', hlog, hk⟩ := h.ran.noLoan k hnone
        exact ⟨hnone', hlog, fun hmem => hk (hsub hmem)⟩
      records := h.ran.records }
  others k hk := (h.others k hk).imp_left fun hdone hmem => hdone (hsub hmem)

/-- In a turn of another loan groups stay as their loans are stored. -/
theorem Turn.fresh {ok : Bool} {log : List Posting} {b b' : Books}
    {groups : List (LoanId × List ScheduleRow)} (h : Books.Turn t id ok log b b')
    (hid : id ∉ groups.map Prod.fst)
    (hrows : ∀ group ∈ groups, ∀ loan, b.ledger.loans.find? group.1 = some loan →
      group.2 = t.fresh loan) :
    ∀ group ∈ groups, ∀ loan, b'.ledger.loans.find? group.1 = some loan →
      group.2 = t.fresh loan := by
  intro group hgroup loan hfound
  have hne : group.1 ≠ id := fun heq => hid (heq ▸ List.mem_map_of_mem hgroup)
  rw [h.others group.1 hne] at hfound
  exact hrows group hgroup loan hfound

end Books

namespace LoanOutcome

/-- The loan of an outcome. -/
def loanId : LoanOutcome → LoanId
  | .succeeded s => s.loanId
  | .failed loan _ => loan

/-- The outcome that the result of a turn counts as, unless it is a fault. -/
def ofResult (id : LoanId) : Except Failure LoanSummary → Except Fault LoanOutcome
  | .ok s => .ok (.succeeded s)
  | .error (.refusal r) => .ok (.failed id r)
  | .error (.fault f) => .error f

end LoanOutcome

namespace RunTerms

variable {c : Cancellation}

/-- A run takes the turn of its first loan, and goes on unless that ended in a fault. -/
theorem accrueGroups_cons (t : RunTerms) (id : LoanId) (rows : List ScheduleRow)
    (groups : List (LoanId × List ScheduleRow)) (summary : RunSummary) (st : Books)
    (h : c.requestedBefore id = false) :
    ∃ st₁ r, t.accrueLoan id (t.settings.retry.maxAttempts.toNat - 1) 1 rows st = (st₁, r) ∧
      t.accrueGroups c ((id, rows) :: groups) summary st =
        match LoanOutcome.ofResult id r with
        | .ok o => t.accrueGroups c groups (summary.record o) st₁
        | .error f => (st₁, .error f) := by
  rcases hloan : t.accrueLoan id (t.settings.retry.maxAttempts.toNat - 1) 1 rows st with ⟨st₁, r⟩
  refine ⟨st₁, r, rfl, ?_⟩
  rw [accrueGroups, h, hloan]
  rcases r with (r | f) | s <;> rfl

/-- A run passes by its first loan if the flag is raised. Else the loan has its turn, which ends the
run by a fault or gives an outcome with which the run goes on. -/
theorem accrueGroups_cons_cases {id : LoanId} {rows : List ScheduleRow}
    {groups : List (LoanId × List ScheduleRow)} {summary : RunSummary} {st st' : Books}
    {r : Except Fault RunSummary}
    (h : t.accrueGroups c ((id, rows) :: groups) summary st = (st', r)) :
    (c.requestedBefore id = true ∧ t.accrueGroups c groups (summary.skip id) st = (st', r)) ∨
    ∃ st₁ x, c.requestedBefore id = false ∧
      t.accrueLoan id (t.settings.retry.maxAttempts.toNat - 1) 1 rows st = (st₁, x) ∧
      ((∃ f, LoanOutcome.ofResult id x = .error f ∧ st' = st₁ ∧ r = .error f) ∨
        ∃ o, LoanOutcome.ofResult id x = .ok o ∧
          t.accrueGroups c groups (summary.record o) st₁ = (st', r)) := by
  cases hrequested : c.requestedBefore id with
  | true =>
    rw [accrueGroups, if_pos hrequested] at h
    exact .inl ⟨rfl, h⟩
  | false =>
    obtain ⟨st₁, x, hloan, hcons⟩ := t.accrueGroups_cons id rows groups summary st hrequested
    rw [hcons] at h
    refine .inr ⟨st₁, x, rfl, hloan, ?_⟩
    cases ho : LoanOutcome.ofResult id x with
    | error f =>
      rw [ho] at h
      cases h
      exact .inl ⟨f, rfl, rfl, rfl⟩
    | ok o =>
      rw [ho] at h
      exact .inr ⟨o, rfl, h⟩

/-- The loans of the groups have their turns one after the other, and no other loan has one. -/
theorem accrueGroups_ran {groups : List (LoanId × List ScheduleRow)} {summary : RunSummary}
    {st st' : Books} {r : Except Fault RunSummary} (hg : st.ledger.Filed)
    (hn : (groups.map Prod.fst).Nodup)
    (hrows : ∀ group ∈ groups, ∀ loan, st.ledger.loans.find? group.1 = some loan →
      group.2 = t.fresh loan)
    (h : t.accrueGroups c groups summary st = (st', r)) :
    ∃ done log, Books.RanAmong t (groups.map Prod.fst) done log st st' ∧
      ∀ summary', r = .ok summary' → summary'.succeeded.map (·.loanId) =
        summary.succeeded.map (·.loanId) ++ done := by
  induction groups generalizing summary st with
  | nil =>
    cases h
    refine ⟨[], [], .refl t [] _, ?_⟩
    rintro summary' hs
    cases hs
    rw [List.append_nil]
  | cons group groups ih =>
    obtain ⟨id, rows⟩ := group
    obtain ⟨hid, hn⟩ := List.nodup_cons.mp hn
    obtain ⟨hrow, hrows⟩ := List.forall_mem_cons.mp hrows
    -- The loan is skipped after a cancellation, or it has its turn, which may end the run.
    rcases accrueGroups_cons_cases h with ⟨-, h⟩ | ⟨st₁, x, -, hloan, hends⟩
    · obtain ⟨done, log, hran, hdone⟩ := ih hg hn hrows h
      exact ⟨done, log, hran.skip id, hdone⟩
    · obtain ⟨ok, log, hturn, hok⟩ := accrueLoan_turn hg hrow hloan
      rcases hends with ⟨f, -, rfl, rfl⟩ | ⟨o, ho, hrest⟩
      · exact ⟨[], log ++ [], (Books.RanAmong.refl t _ _).cons hturn hid fun k hk => .inr hk,
          fun _ hr => nomatch hr⟩
      · obtain ⟨done, log', hran, hdone⟩ := ih (hturn.filed hg) hn (hturn.fresh hid hrows) hrest
        rcases x with (r | f) | s
        · cases ho
          exact ⟨done, log ++ log', hran.cons hturn hid fun k hk => .inr hk, hdone⟩
        · cases ho
        · cases ho
          obtain ⟨hs, rfl⟩ := hok s rfl
          refine ⟨id :: done, log ++ log', hran.cons hturn hid fun k hk => ?_, ?_⟩
          · exact (List.mem_cons.mp hk).imp_left fun heq => ⟨heq, rfl⟩
          · intro summary' hr
            rw [hdone summary' hr]
            simp only [RunSummary.record, List.map_append, List.map_cons, List.map_nil, hs,
              List.append_assoc, List.singleton_append]

end RunTerms

namespace Batch

/-- The loans that succeed in a run over all candidate rows, whether or not others fail in it. -/
def succeeded (b : Batch) (mode : RunMode) (today : Date) (c : Cancellation) (st : Books) :
    List LoanId :=
  match b.settings with
  | .error _ => []
  | .ok settings =>
    let t : RunTerms := ⟨settings, mode, today⟩
    let groups := groupByLoan (st.ledger.candidates none mode today)
    match (t.accrueGroups c groups .empty st).2 with
    | .error _ => []
    | .ok summary => summary.succeeded.map (·.loanId)

variable {b : Batch} {mode : RunMode} {today : Date} {c : Cancellation} {st : Books}
  {s : Settings}

theorem freshGroups (hg : st.ledger.Filed) :
    ∀ group ∈ groupByLoan (st.ledger.candidates none mode today), ∀ loan,
      st.ledger.loans.find? group.1 = some loan →
        group.2 = (⟨s, mode, today⟩ : RunTerms).fresh loan := by
  intro group hgroup loan hloan
  rw [rows_of_mem_groupByLoan hg hgroup, hloan, Option.toList_some, List.flatMap_singleton]
  rfl

/-- With its settings in force a run takes the turns of its loans, over the given rows or over all
candidate rows. A fault in them ends it, and else it gives its summary or fails. -/
theorem run_eq (hs : b.settings = .ok s) (mode : RunMode) (today : Date)
    (rows : Option (List ScheduleRow)) (c : Cancellation) (st : Books) :
    (b.run mode today rows c st).books = ((⟨s, mode, today⟩ : RunTerms).accrueGroups c
        (groupByLoan (rows.getD (st.ledger.candidates none mode today))) .empty st).1 ∧
      (b.run mode today rows c st).result =
        match ((⟨s, mode, today⟩ : RunTerms).accrueGroups c
          (groupByLoan (rows.getD (st.ledger.candidates none mode today))) .empty st).2 with
        | .error f => .error (.fault f)
        | .ok summary => liftM summary.result := by
  simp only [run, hs, RunTerms.accrueRows]
  rcases (⟨s, mode, today⟩ : RunTerms).accrueGroups c
    (groupByLoan (rows.getD (st.ledger.candidates none mode today))) .empty st with
    ⟨st', f | summary⟩
  · exact ⟨rfl, rfl⟩
  · dsimp only
    cases summary.result <;> exact ⟨rfl, rfl⟩

theorem run_books (hs : b.settings = .ok s) (mode : RunMode) (today : Date) (c : Cancellation)
    (st : Books) :
    (b.run mode today none c st).books = ((⟨s, mode, today⟩ : RunTerms).accrueGroups c
      (groupByLoan (st.ledger.candidates none mode today)) .empty st).1 :=
  (run_eq hs mode today none c st).1

theorem succeeded_eq (hs : b.settings = .ok s) :
    b.succeeded mode today c st = match ((⟨s, mode, today⟩ : RunTerms).accrueGroups c
        (groupByLoan (st.ledger.candidates none mode today)) .empty st).2 with
      | .error _ => []
      | .ok summary => summary.succeeded.map (·.loanId) := by
  simp only [succeeded, hs]

/-- The loans that have candidate rows have their turns in a run over all of them. -/
theorem run_ranAmong (mode : RunMode) (today : Date) (c : Cancellation) (st : Books)
    (hs : b.settings = .ok s) (hg : st.ledger.Filed) :
    ∃ log, Books.RanAmong ⟨s, mode, today⟩
      ((groupByLoan (st.ledger.candidates none mode today)).map Prod.fst)
      (b.succeeded mode today c st) log st (b.run mode today none c st).books := by
  rw [run_books hs, succeeded_eq hs]
  rcases hrun : (⟨s, mode, today⟩ : RunTerms).accrueGroups c
    (groupByLoan (st.ledger.candidates none mode today)) .empty st with ⟨st', r⟩
  obtain ⟨done, log, hran, hdone⟩ :=
    RunTerms.accrueGroups_ran hg (grouped_groupByLoan _).nodup (freshGroups hg) hrun
  refine ⟨log, hran.mono ?_⟩
  cases r with
  | error f => exact List.nil_subset _
  | ok summary =>
    dsimp only
    rw [hdone summary rfl]
    exact List.Subset.refl _

/-- What a run over all candidate rows does to the books. -/
theorem run_ran_of_filed (mode : RunMode) (today : Date) (c : Cancellation) (st : Books)
    (hs : b.settings = .ok s) (hg : st.ledger.Filed) :
    ∃ log, Books.Ran ⟨s, mode, today⟩ (b.succeeded mode today c st) log st
      (b.run mode today none c st).books := by
  obtain ⟨log, hran⟩ := run_ranAmong mode today c st hs hg
  exact ⟨log, hran.ran⟩

theorem run_ran (mode : RunMode) (today : Date) (c : Cancellation) (st : Books)
    (hs : b.settings = .ok s) (hg : st.ledger.Sound) :
    ∃ log, Books.Ran ⟨s, mode, today⟩ (b.succeeded mode today c st) log st
      (b.run mode today none c st).books :=
  run_ran_of_filed mode today c st hs hg.filed

/-- A loan that succeeds has candidate rows, so it is active. -/
theorem active_of_mem_succeeded {id : LoanId} {loan : Loan} (hs : b.settings = .ok s)
    (hg : st.ledger.Filed) (hid : id ∈ b.succeeded mode today c st)
    (hloan : st.ledger.loans.find? id = some loan) : loan.status.isActive = true := by
  obtain ⟨log, hran⟩ := run_ranAmong mode today c st hs hg
  have hkey : id ∈ (groupByLoan (st.ledger.candidates none mode today)).map Prod.fst :=
    not_not.mp fun hnot => (hran.others id hnot).1 hid
  obtain ⟨row, hrow, rfl⟩ := List.mem_map.mp (((grouped_groupByLoan _).mem_keys id).mp hkey)
  obtain ⟨found, hfound, hcandidate⟩ := Ledger.mem_candidates hg hrow
  rw [Option.some.inj (hloan.symm.trans hfound)]
  exact (Ledger.mem_candidatesOf hcandidate).1

theorem run_of_error {r : Refusal} (hs : b.settings = .error r) :
    (b.run mode today none c st).books = st := by
  simp only [run]
  rw [hs]

/-- The loans that succeed are those that the summary of a successful run lists. -/
theorem succeeded_of_result {summary : RunSummary}
    (h : (b.run mode today none c st).result = .ok summary) :
    b.succeeded mode today c st = summary.succeeded.map (·.loanId) := by
  cases hs : b.settings with
  | error r =>
    simp only [run, hs] at h
    cases h
  | ok s =>
    rw [(run_eq hs mode today none c st).2] at h
    rw [succeeded_eq hs]
    split at h
    · cases h
    · next made hmade =>
      rw [Option.getD_none] at hmade
      rw [hmade]
      simp only [RunSummary.result] at h
      split at h
      · cases h
        rfl
      · cases h

end Batch
end LoanLedger
