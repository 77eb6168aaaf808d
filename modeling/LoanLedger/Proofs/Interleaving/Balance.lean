import LoanLedger.Proofs.Consistency
import LoanLedger.Proofs.Interleaving.Steps

/-!
What runs side by side keep. The version of a loan guards a commit against every change since the
loan was loaded, but not against changes since the rows were read. So the columns are balanced, at
all times and in any order of steps, as long as every commit that is accepted was computed from rows
that were current when the loan was loaded; and in the exact range only then.
-/

set_option autoImplicit false
set_option relaxedAutoImplicit false

namespace LoanLedger

/-- A property of every column can be checked. -/
instance (p : Column → Prop) [DecidablePred p] : Decidable (∀ c, p c) :=
  decidable_of_iff (p .interest ∧ p .fee ∧ p .penalty)
    ⟨fun h c => by cases c <;> simp [h], fun h => ⟨h _, h _, h _⟩⟩

namespace Attempt

/-- Where the attempt posts to a row, it was computed from columns that the loan still had when it
was loaded. -/
def Current (a : Attempt) : Prop :=
  ∀ p ∈ a.result.postings, ∀ row ∈ a.rows, row.rowId = p.totals.rowId →
    ∀ stored ∈ a.loan.schedule, stored.rowId = row.rowId →
      ∀ c, (Money.orZero (row.accrued c)).Agree (Money.orZero (stored.accrued c))

instance (a : Attempt) : Decidable a.Current :=
  inferInstanceAs (Decidable (∀ p ∈ a.result.postings, ∀ row ∈ a.rows, row.rowId = p.totals.rowId →
    ∀ stored ∈ a.loan.schedule, stored.rowId = row.rowId →
      ∀ c, (Money.orZero (row.accrued c)).Agree (Money.orZero (stored.accrued c))))

/-- An attempt that was computed from a loan of the ledger. If the version is still the same, so is
the loan. -/
structure Valid (g : Ledger) (a : Attempt) : Prop where
  sound : a.loan.Sound a.loanId
  nodup : (a.rows.map (·.rowId)).Nodup
  result : ∃ n, (a.loan.inputOn a.loanId a.rows).accrue a.terms.mode a.terms.settings a.terms.today
    n = .ok a.result
  version_le : ∀ loan, g.loans.find? a.loanId = some loan →
    a.loan.version.toNat ≤ loan.version.toNat
  unchanged : ∀ loan, g.loans.find? a.loanId = some loan → loan.version = a.loan.version →
    loan = a.loan

end Attempt

/-- A ledger with the loans of another, which are the same or have higher versions. -/
def Ledger.Follows (g g' : Ledger) : Prop :=
  ∀ id loan', g'.loans.find? id = some loan' → ∃ loan, g.loans.find? id = some loan ∧
    (loan' = loan ∨ loan.version.toNat < loan'.version.toNat)

namespace Attempt.Valid

variable {a : Attempt} {g g' : Ledger} {loan' : Loan}

theorem follows (h : a.Valid g) (hg : g.Follows g') : a.Valid g' := by
  refine ⟨h.sound, h.nodup, h.result, fun loan' hloan' => ?_, fun loan' hloan' hversion => ?_⟩
  · obtain ⟨loan, hloan, rfl | hlt⟩ := hg _ _ hloan'
    · exact h.version_le loan' hloan
    · exact Nat.le_of_lt (Nat.lt_of_le_of_lt (h.version_le loan hloan) hlt)
  · obtain ⟨loan, hloan, rfl | hlt⟩ := hg _ _ hloan'
    · exact h.unchanged loan' hloan hversion
    · rw [hversion] at hlt
      exact absurd (h.version_le loan hloan) (Nat.not_le_of_lt hlt)

theorem nodup_postings (h : a.Valid g) : (a.result.postings.map (·.totals.rowId)).Nodup := by
  obtain ⟨n, hresult⟩ := h.result
  exact AccrualInput.accrue_nodup hresult h.nodup

theorem loanId_postings (h : a.Valid g) : ∀ p ∈ a.result.postings, p.transaction.loanId = a.loanId := by
  obtain ⟨n, hresult⟩ := h.result
  exact fun p hp => AccrualInput.accrue_loanId hresult hp

theorem accepted_eq (h : a.Valid g) (haccept : a.loan.accept a.result = .ok loan') :
    loan' = { a.loan with
      schedule := a.loan.schedule.map (Loan.settledBy a.result.postings)
      charges := a.result.charges
      accruedTill := a.result.accruedTill.or a.loan.accruedTill
      version := loan'.version } ∧ loan'.version.toNat = a.loan.version.toNat + 1 :=
  Loan.accept_eq_ok haccept h.sound.rowIds h.nodup_postings

theorem advancedBy (h : a.Valid g) (hcurrent : a.Current) {row : ScheduleRow}
    (hrow : row ∈ a.loan.schedule) :
    row.AdvancedBy a.result.postings (Loan.settledBy a.result.postings row) := by
  obtain ⟨n, hresult⟩ := h.result
  apply Loan.settledBy_advancedBy (AccrualInput.accrue_isFor hresult) h.nodup_postings
  intro p hp r hr hpr hid c
  exact hcurrent p hp r hr hpr.symm row hrow hid.symm c

end Attempt.Valid

namespace World

variable {w w' : World} {step : Step} {a : Attempt}

/-- The step commits the attempt, and the commit is accepted. -/
def Accepts (w : World) (step : Step) (a : Attempt) : Prop :=
  ∃ i v, step = .commit i ∧ w.attempts[i]? = some a ∧ (w.books.commit a.toCommit).2 = .ok v

/-- A world of sound loans, sound readings and sound attempts. -/
structure Valid (w : World) : Prop where
  sound : w.books.ledger.Sound
  readings : ∀ r ∈ w.readings, ∀ id, ((r.rowsOf id).map (·.rowId)).Nodup
  attempts : ∀ a ∈ w.attempts, a.Valid w.books.ledger

/-- What a step does to the books: it writes nothing but, perhaps, a version, or an attempt is
accepted and everything takes its postings. -/
inductive Transition (w w' : World) : Option Attempt → Prop
  | quiet (id : LoanId) (hquiet : w.books.ledger.Quiet id w'.books.ledger)
      (hrecords : Books.Records [] w.books w'.books) (hcommitted : w'.committed = w.committed) :
      Transition w w' none
  | accepts {a : Attempt} {loan' : Loan} (ha : a ∈ w.attempts)
      (hloan : w.books.ledger.loans.find? a.loanId = some a.loan)
      (haccept : a.loan.accept a.result = .ok loan')
      (hloans : w'.books.ledger.loans = w.books.ledger.loans.insert a.loanId loan')
      (hrecords : Books.Records a.result.postings w.books w'.books)
      (hcommitted : w'.committed = w.committed ++ a.result.postings) :
      Transition w w' (some a)

private theorem transition_of_same (hloans : w'.books.ledger = w.books.ledger)
    (hjournal : w'.books.journal = w.books.journal) (hevents : w'.books.events = w.books.events)
    (hcommitted : w'.committed = w.committed) : w.Transition w' none := by
  refine .quiet default ?_ ⟨?_, ?_, ⟨[], ?_, .nil⟩, ⟨[], ?_, rfl, fun _ h => nomatch h⟩⟩ hcommitted
  · rw [hloans]
    exact .refl _ _
  · rw [hloans, List.map_nil, List.append_nil]
  · rw [hloans, List.flatMap_nil, List.append_nil]
  · rw [hjournal, List.append_nil]
  · rw [hevents, List.append_nil]

private theorem commit_transition (hw : w.Valid) (i : Nat) :
    ∃ o, w.Transition (w.commit i) o ∧ ∀ a, w.Accepts (.commit i) a ↔ o = some a := by
  have haccepts : ∀ a, w.Accepts (.commit i) a ↔
      w.attempts[i]? = some a ∧ ∃ v, (w.books.commit a.toCommit).2 = .ok v := by
    intro a
    constructor
    · rintro ⟨j, v, hstep, ha, hv⟩
      cases hstep
      exact ⟨ha, v, hv⟩
    · rintro ⟨ha, v, hv⟩
      exact ⟨i, v, rfl, ha, hv⟩
  simp only [commit]
  split
  · next hnone =>
    refine ⟨none, transition_of_same rfl rfl rfl rfl, fun a => ?_⟩
    rw [haccepts, hnone]
    simp
  · next a ha =>
    have hmem := List.mem_of_getElem? ha
    have hvalid := hw.attempts a hmem
    obtain ⟨n, hresult⟩ := hvalid.result
    have hsame : ∀ a', (w.attempts[i]? = some a' ∧ ∃ v, (w.books.commit a'.toCommit).2 = .ok v) ↔
        (a = a' ∧ ∃ v, (w.books.commit a.toCommit).2 = .ok v) := by
      intro a'
      rw [ha]
      constructor
      · rintro ⟨heq, hv⟩
        cases heq
        exact ⟨rfl, hv⟩
      · rintro ⟨rfl, hv⟩
        exact ⟨rfl, hv⟩
    split
    · next books f hcommit =>
      refine ⟨none, ?_, fun a' => ?_⟩
      · rcases Books.commit_spec hresult hcommit with ⟨hquiet, hrecords, -⟩ |
          ⟨_, _, _, _, _, _, _, hr⟩
        · exact .quiet a.loanId hquiet hrecords rfl
        · cases hr
      · rw [haccepts, hsame, hcommit]
        simp
    · next books v hcommit =>
      refine ⟨some a, ?_, fun a' => ?_⟩
      · rcases Books.commit_spec hresult hcommit with ⟨-, -, f, hf⟩ |
          ⟨loan, loan', hloan, hversion, haccept, hloans, hrecords, -⟩
        · cases hf
        · have hsame : loan = a.loan := hvalid.unchanged loan hloan hversion
          subst hsame
          exact .accepts hmem hloan haccept hloans hrecords rfl
      · rw [haccepts, hsame, hcommit]
        simp

private theorem accepts_of_ne_commit (h : ∀ i, step ≠ .commit i) (a : Attempt) :
    w.Accepts step a ↔ none = some a := by
  constructor
  · rintro ⟨i, -, hstep, -⟩
    exact absurd hstep (h i)
  · exact fun h => nomatch h

/-- Every step is a transition, and one that accepts exactly the attempt it commits. -/
theorem perform_transition (hw : w.Valid) (step : Step) :
    ∃ o, w.Transition (w.perform step) o ∧ ∀ a, w.Accepts step a ↔ o = some a := by
  cases step with
  | read terms only =>
    exact ⟨none, transition_of_same rfl rfl rfl rfl, accepts_of_ne_commit fun _ => nofun⟩
  | load reading id =>
    refine ⟨none, ?_, accepts_of_ne_commit fun _ => nofun⟩
    unfold perform load
    dsimp only
    split <;> exact transition_of_same rfl rfl rfl rfl
  | commit attempt => exact commit_transition hw attempt
  | expectConflicts id count =>
    refine ⟨none, .quiet default ?_ ?_ rfl, accepts_of_ne_commit fun _ => nofun⟩
    · exact .of_eq rfl rfl rfl
    · exact ⟨(List.append_nil _).symm, (List.append_nil _).symm, (Books.Records.refl _).entries,
        (Books.Records.refl _).events⟩
  | refuseEntries id =>
    refine ⟨none, .quiet default (.refl _ _) ?_ rfl, accepts_of_ne_commit fun _ => nofun⟩
    exact ⟨(List.append_nil _).symm, (List.append_nil _).symm, (Books.Records.refl _).entries,
      (Books.Records.refl _).events⟩

theorem mem_readings_perform {r : Reading} (h : r ∈ (w.perform step).readings) :
    r ∈ w.readings ∨ ((w.perform step).books = w.books ∧ ∃ terms only,
      r = ⟨terms, only, w.books.ledger.candidates only terms.mode terms.today⟩) := by
  cases step with
  | read terms only =>
    rcases List.mem_append.mp h with h | h
    · exact .inl h
    · exact .inr ⟨rfl, terms, only, List.mem_singleton.mp h⟩
  | load reading id =>
    left
    simp only [perform, load] at h
    split at h <;> exact h
  | commit attempt =>
    left
    simp only [perform, commit] at h
    split at h
    · exact h
    · split at h <;> exact h
  | expectConflicts id count => exact .inl h
  | refuseEntries id => exact .inl h

theorem mem_attempts_perform (h : a ∈ (w.perform step).attempts) :
    a ∈ w.attempts ∨ ((w.perform step).books.ledger = w.books.ledger ∧ ∃ r ∈ w.readings, ∃ id,
      w.attempt? r id = some a) := by
  cases step with
  | read terms only => exact .inl h
  | load reading id =>
    simp only [perform] at h ⊢
    simp only [load] at h ⊢
    cases hattempt : w.readings[reading]?.bind fun r => w.attempt? r id with
    | none =>
      rw [hattempt] at h
      exact .inl h
    | some found =>
      rw [hattempt] at h
      rcases List.mem_append.mp h with h | h
      · exact .inl h
      · obtain ⟨r, hr, hfound⟩ := Option.bind_eq_some_iff.mp hattempt
        rw [List.mem_singleton.mp h]
        exact .inr ⟨rfl, r, List.mem_of_getElem? hr, id, hfound⟩
  | commit attempt =>
    left
    simp only [perform, commit] at h
    split at h
    · exact h
    · split at h <;> exact h
  | expectConflicts id count => exact .inl h
  | refuseEntries id => exact .inl h

/-- What becomes of a loan in a step: it waits, or it takes the postings of the attempt that is
accepted. -/
theorem Transition.next {o : Option Attempt} (h : w.Transition w' o) (hw : w.Valid) {id : LoanId}
    {loan : Loan} (hloan : w.books.ledger.loans.find? id = some loan) :
    ∃ loan', w'.books.ledger.loans.find? id = some loan' ∧
      ((loan.Reversioned loan' ∧ postingsOf id w'.committed = postingsOf id w.committed) ∨
        ∃ a, o = some a ∧ a ∈ w.attempts ∧ a.loanId = id ∧ a.loan = loan ∧
          a.loan.accept a.result = .ok loan' ∧
          postingsOf id w'.committed = postingsOf id w.committed ++ a.result.postings) := by
  cases h with
  | quiet k hquiet _ hcommitted =>
    rw [hcommitted]
    by_cases hid : id = k
    · subst hid
      obtain ⟨loan', hloan', hreversioned⟩ := hquiet.loan loan hloan
      exact ⟨loan', hloan', .inl ⟨hreversioned, rfl⟩⟩
    · exact ⟨loan, (hquiet.others id hid).trans hloan, .inl ⟨.refl loan, rfl⟩⟩
  | @accepts a loan' ha hstored haccept hloans _ hcommitted =>
    have hvalid := hw.attempts a ha
    rw [hloans, hcommitted, postingsOf_append]
    by_cases hid : id = a.loanId
    · subst hid
      rw [postingsOf_eq_self hvalid.loanId_postings]
      exact ⟨loan', Table.find?_insert_self _ _ _, .inr ⟨a, rfl, ha, rfl,
        Option.some.inj (hstored.symm.trans hloan), haccept, rfl⟩⟩
    · rw [postingsOf_eq_nil hvalid.loanId_postings hid, List.append_nil]
      exact ⟨loan, (Table.find?_insert_of_ne _ hid _).trans hloan, .inl ⟨.refl loan, rfl⟩⟩

/-- A loan of the ledger after a step was there before. -/
theorem Transition.before {o : Option Attempt} (h : w.Transition w' o) (hw : w.Valid) {id : LoanId}
    {loan' : Loan} (hloan' : w'.books.ledger.loans.find? id = some loan') :
    ∃ loan, w.books.ledger.loans.find? id = some loan ∧ (loan.Reversioned loan' ∨
      ∃ a, o = some a ∧ a ∈ w.attempts ∧ a.loanId = id ∧ a.loan = loan ∧
        a.loan.accept a.result = .ok loan') := by
  have hsome : ∃ loan, w.books.ledger.loans.find? id = some loan := by
    cases h with
    | quiet k hquiet _ _ =>
      obtain ⟨loan, hloan, -⟩ := hquiet.before hloan'
      exact ⟨loan, hloan⟩
    | @accepts a _ _ hstored _ hloans _ _ =>
      by_cases hid : id = a.loanId
      · exact ⟨a.loan, hid ▸ hstored⟩
      · rw [hloans, Table.find?_insert_of_ne _ hid] at hloan'
        exact ⟨loan', hloan'⟩
  obtain ⟨loan, hloan⟩ := hsome
  obtain ⟨found, hfound, hcases⟩ := h.next hw hloan
  have hsame : found = loan' := Option.some.inj (hfound.symm.trans hloan')
  subst hsame
  rcases hcases with ⟨hreversioned, -⟩ | ⟨a, ho, ha, hid, hsame, haccept, -⟩
  · exact ⟨loan, hloan, .inl hreversioned⟩
  · exact ⟨loan, hloan, .inr ⟨a, ho, ha, hid, hsame, haccept⟩⟩

theorem Transition.follows {o : Option Attempt} (h : w.Transition w' o) (hw : w.Valid) :
    w.books.ledger.Follows w'.books.ledger := by
  intro id loan' hloan'
  obtain ⟨loan, hloan, hreversioned | ⟨a, -, ha, -, rfl, haccept⟩⟩ := h.before hw hloan'
  · refine ⟨loan, hloan, ?_⟩
    rcases Nat.eq_or_lt_of_le hreversioned.version_le with heq | hlt
    · left
      rw [hreversioned.same, ← UInt64.toNat_inj.mp heq]
    · exact .inr hlt
  · have hversion := ((hw.attempts a ha).accepted_eq haccept).2
    exact ⟨a.loan, hloan, .inr (by omega)⟩

theorem Transition.sound {o : Option Attempt} (h : w.Transition w' o) (hw : w.Valid) :
    w'.books.ledger.Sound := by
  intro id loan' hloan'
  obtain ⟨loan, hloan, hreversioned | ⟨a, -, ha, -, rfl, haccept⟩⟩ := h.before hw hloan'
  · exact hreversioned.sound (hw.sound id loan hloan)
  · have hsame := ((hw.attempts a ha).accepted_eq haccept).1
    exact (hw.sound id _ hloan).accepted (by rw [hsame]) (by rw [hsame])

private theorem nodup_candidates {g : Ledger} (hg : g.Sound) (terms : RunTerms)
    (only : Option LoanId) (id : LoanId) :
    (((⟨terms, only, g.candidates only terms.mode terms.today⟩ : Reading).rowsOf id).map
      (·.rowId)).Nodup := by
  have hloan : ∀ k, (((g.loans.find? k).toList.flatMap
      (Ledger.candidatesOf terms.mode terms.today)).map (·.rowId)).Nodup := by
    intro k
    cases hk : g.loans.find? k with
    | none => exact List.nodup_nil
    | some loan =>
      rw [Option.toList_some, List.flatMap_singleton]
      exact RunTerms.nodup_fresh (t := terms) (hg k loan hk)
  cases only with
  | none =>
    simp only [Reading.rowsOf]
    rw [Ledger.filter_candidates hg.filed]
    exact hloan id
  | some k =>
    simp only [Reading.rowsOf]
    rw [Ledger.candidates_some hg.filed]
    exact hloan k

theorem Valid.perform (hw : w.Valid) (step : Step) : (w.perform step).Valid := by
  obtain ⟨o, htransition, -⟩ := perform_transition hw step
  refine ⟨htransition.sound hw, fun r hr id => ?_, fun a ha => ?_⟩
  · rcases mem_readings_perform hr with hr | ⟨-, terms, only, rfl⟩
    · exact hw.readings r hr id
    · exact nodup_candidates hw.sound terms only id
  · rcases mem_attempts_perform ha with ha | ⟨hsame, r, hr, id, ha⟩
    · exact (hw.attempts a ha).follows (htransition.follows hw)
    · obtain ⟨hloan, -, hresult, -, hterms, rfl, hrows⟩ := attempt?_eq_some ha
      rw [← hrows, ← hterms] at hresult
      rw [hsame]
      refine ⟨hw.sound _ _ hloan, hrows ▸ hw.readings r hr _, ⟨_, hresult⟩, ?_, ?_⟩
      · intro loan hfound
        rw [hloan] at hfound
        rw [Option.some.inj hfound]
      · intro loan hfound _
        rw [hloan] at hfound
        exact (Option.some.inj hfound).symm

theorem valid_start {b : Books} (hb : b.ledger.Sound) : (start b).Valid where
  sound := hb
  readings _ h := nomatch h
  attempts _ h := nomatch h

/-- Every column holds what it held at the start and the portions that were committed for it. -/
def Balanced (g : Ledger) (w : World) : Prop :=
  ∀ id loan₀, g.loans.find? id = some loan₀ → ∃ loan, w.books.ledger.loans.find? id = some loan ∧
    List.Forall₂ (ScheduleRow.AdvancedBy (postingsOf id w.committed)) loan₀.schedule loan.schedule

theorem balanced_start (b : Books) : (start b).Balanced b.ledger :=
  fun _ loan₀ h => ⟨loan₀, h, List.forall₂_same.mpr fun row _ => .refl row⟩

/-- A step keeps the balance, if what it commits was computed from current rows. -/
theorem Transition.balanced {g : Ledger} {o : Option Attempt} (h : w.Transition w' o)
    (hw : w.Valid) (hcurrent : ∀ a, o = some a → a.Current) (hbalanced : w.Balanced g) :
    w'.Balanced g := by
  intro id loan₀ hloan₀
  obtain ⟨loan, hloan, hrows⟩ := hbalanced id loan₀ hloan₀
  obtain ⟨loan', hloan', ⟨hreversioned, hcommitted⟩ | ⟨a, ho, ha, -, rfl, haccept, hcommitted⟩⟩ :=
    h.next hw hloan
  · refine ⟨loan', hloan', ?_⟩
    rw [hcommitted, hreversioned.same]
    exact hrows
  · have hvalid := hw.attempts a ha
    have hadvanced : List.Forall₂ (ScheduleRow.AdvancedBy a.result.postings) a.loan.schedule
        (a.loan.schedule.map (Loan.settledBy a.result.postings)) :=
      List.forall₂_map_right_iff.mpr (List.forall₂_same.mpr fun row hrow =>
        hvalid.advancedBy (hcurrent a ho) hrow)
    refine ⟨loan', hloan', ?_⟩
    rw [hcommitted, (hvalid.accepted_eq haccept).1]
    exact forall₂_comp hrows hadvanced fun _ _ _ h h' => h.trans h'

theorem Transition.records {o : Option Attempt} {b : Books} (h : w.Transition w' o)
    (hrecords : Books.Records w.committed b w.books) :
    Books.Records w'.committed b w'.books := by
  cases h with
  | quiet id _ hquiet hcommitted =>
    rw [hcommitted, ← List.append_nil w.committed]
    exact hrecords.trans hquiet
  | accepts _ _ _ _ haccepted hcommitted =>
    rw [hcommitted]
    exact hrecords.trans haccepted

/-- What was committed is what the books hold: its transactions, its journal entries and its
announcements. -/
theorem records_after {b : Books} (hw : w.Valid)
    (hrecords : Books.Records w.committed b w.books) (steps : List Step) :
    Books.Records (w.after steps).committed b (w.after steps).books := by
  induction steps generalizing w with
  | nil => exact hrecords
  | cons step steps ih =>
    obtain ⟨o, htransition, -⟩ := perform_transition hw step
    exact ih (hw.perform step) (htransition.records hrecords)

/-- All that the steps get accepted was computed from current rows. -/
def CommitsCurrent (w : World) : List Step → Prop
  | [] => True
  | step :: steps => (∀ a, w.Accepts step a → a.Current) ∧ (w.perform step).CommitsCurrent steps

theorem commitsCurrent_of_attempts {steps : List Step}
    (h : ∀ a ∈ (w.after steps).attempts, a.Current) : w.CommitsCurrent steps := by
  induction steps generalizing w with
  | nil => trivial
  | cons step steps ih =>
    refine ⟨?_, ih h⟩
    rintro a ⟨i, v, rfl, ha, -⟩
    exact h a ((attempts_after w _).subset (List.mem_of_getElem? ha))

/-- As long as commits are computed from current rows, the columns are balanced. -/
theorem CommitsCurrent.balanced {g : Ledger} {steps : List Step} (h : w.CommitsCurrent steps)
    (hw : w.Valid) (hbalanced : w.Balanced g) (n : Nat) :
    (w.after (steps.take n)).Balanced g := by
  induction steps generalizing w n with
  | nil =>
    rw [List.take_nil]
    exact hbalanced
  | cons step steps ih =>
    cases n with
    | zero => exact hbalanced
    | succ n =>
      obtain ⟨hstep, hrest⟩ := h
      obtain ⟨o, htransition, haccepts⟩ := perform_transition hw step
      exact ih hrest (hw.perform step)
        (htransition.balanced hw (fun a ha => hstep a ((haccepts a).mpr ha)) hbalanced) n

end World
end LoanLedger
