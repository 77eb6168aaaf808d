import LoanLedger.Proofs.Ledger.Candidates
import LoanLedger.Proofs.Ledger.Commit

/-!
What a loan makes of a result that is committed to it, without assuming that row numbers differ:
when it accepts the result, and what it is then.
-/

set_option autoImplicit false
set_option relaxedAutoImplicit false

namespace LoanLedger

namespace Loan

/-- Rows after postings, whose numbers may repeat: of the rows with one number the first takes the
totals of the last posting for it, and the others stay. -/
def settled (ps : List Posting) : List ScheduleRow → List ScheduleRow
  | [] => []
  | row :: rows =>
    settledBy ps.reverse row :: settled (ps.filter fun p => p.totals.rowId ≠ row.rowId) rows

private theorem settledBy_reverse_cons {p : Posting} {row : ScheduleRow}
    (hp : p.totals.rowId = row.rowId) (ps : List Posting) :
    settledBy ps.reverse (settle p.totals row) = settledBy (p :: ps).reverse row := by
  simp only [settledBy, List.reverse_cons, List.find?_append, rowId_settle]
  cases ps.reverse.find? fun q => q.totals.rowId == row.rowId with
  | some q => rfl
  | none => simp [hp]

private theorem settledBy_reverse_cons_of_ne {p : Posting} {row : ScheduleRow}
    (hp : p.totals.rowId ≠ row.rowId) (ps : List Posting) :
    settledBy (p :: ps).reverse row = settledBy ps.reverse row := by
  simp only [settledBy, List.reverse_cons, List.find?_append]
  rw [List.find?_cons_of_neg (by simpa using hp), List.find?_nil, Option.or_none]

/-- Every row stays, or takes the totals of a posting for it. -/
theorem settled_or_same (ps : List Posting) (rows : List ScheduleRow) :
    List.Forall₂ (fun row row' => row' = row ∨
      ∃ p ∈ ps, p.totals.rowId = row.rowId ∧ row' = settle p.totals row)
      rows (settled ps rows) := by
  induction rows generalizing ps with
  | nil => exact .nil
  | cons row rows ih =>
    refine .cons ?_ ((ih _).imp ?_)
    · simp only [settledBy]
      split
      · next p hp =>
        exact .inr ⟨p, List.mem_reverse.mp (List.mem_of_find?_eq_some hp),
          by simpa using List.find?_some hp, rfl⟩
      · exact .inl rfl
    · rintro r r' (hsame | ⟨p, hp, hid, hr'⟩)
      · exact .inl hsame
      · exact .inr ⟨p, (List.mem_filter.mp hp).1, hid, hr'⟩

private theorem settled_of_settleRows {p : Posting} {rows rows' : List ScheduleRow}
    (h : settleRows p.totals rows = some rows') (ps : List Posting) :
    settled ps rows' = settled (p :: ps) rows := by
  induction rows generalizing rows' ps with
  | nil => cases h
  | cons row rows ih =>
    unfold settleRows at h
    split at h
    · next hid =>
      have hdrop : (p :: ps).filter (fun q => q.totals.rowId ≠ row.rowId) =
          ps.filter fun q => q.totals.rowId ≠ row.rowId :=
        List.filter_cons_of_neg (by simpa using hid.symm)
      rw [← Option.some.inj h, settled, settled, hdrop, rowId_settle,
        settledBy_reverse_cons hid.symm]
    · next hne =>
      have hne : p.totals.rowId ≠ row.rowId := fun h => hne h.symm
      have hkeep : (p :: ps).filter (fun q => q.totals.rowId ≠ row.rowId) =
          p :: ps.filter fun q => q.totals.rowId ≠ row.rowId :=
        List.filter_cons_of_pos (by simpa using hne)
      obtain ⟨rest, hrest, rfl⟩ := Option.map_eq_some_iff.mp h
      rw [settled, settled, hkeep, settledBy_reverse_cons_of_ne hne, ih hrest]

private theorem settleRows_of_mem {totals : RowTotals} {rows : List ScheduleRow}
    (h : totals.rowId ∈ rows.map (·.rowId)) :
    ∃ rows', settleRows totals rows = some rows' ∧
      rows'.map (·.rowId) = rows.map (·.rowId) := by
  induction rows with
  | nil => cases h
  | cons row rows ih =>
    unfold settleRows
    by_cases hid : row.rowId = totals.rowId
    · rw [if_pos hid]
      exact ⟨_, rfl, rfl⟩
    · have hmem : totals.rowId ∈ rows.map (·.rowId) :=
        (List.mem_cons.mp h).resolve_left fun heq => hid heq.symm
      obtain ⟨rest, hrest, hids⟩ := ih hmem
      rw [if_neg hid, hrest]
      exact ⟨_, rfl, congrArg (row.rowId :: ·) hids⟩

private theorem settleRows_of_not_mem {totals : RowTotals} {rows : List ScheduleRow}
    (h : totals.rowId ∉ rows.map (·.rowId)) : settleRows totals rows = none := by
  induction rows with
  | nil => rfl
  | cons row rows ih =>
    have hrow : row.rowId ≠ totals.rowId := fun heq => h (heq ▸ List.mem_cons_self)
    have hrows : totals.rowId ∉ rows.map (·.rowId) := fun hmem => h (List.mem_cons_of_mem _ hmem)
    rw [settleRows, if_neg hrow, ih hrows, Option.map_none]

/-- Whether every posting has a row of the schedule to go to. -/
def Holds (loan : Loan) (ps : List Posting) : Prop :=
  ∀ p ∈ ps, p.totals.rowId ∈ loan.schedule.map (·.rowId)

/-- Postings that all have a row settle the schedule. -/
theorem foldlM_post_of_holds {ps : List Posting} {loan : Loan} (h : loan.Holds ps) :
    ps.foldlM post loan = .ok { loan with schedule := settled ps loan.schedule } := by
  induction ps generalizing loan with
  | nil =>
    have hsame (rows : List ScheduleRow) : settled [] rows = rows := by
      induction rows with
      | nil => rfl
      | cons row rows ih => exact congrArg (row :: ·) ih
    rw [List.foldlM_nil, hsame]
    rfl
  | cons p ps ih =>
    obtain ⟨hp, hps⟩ := List.forall_mem_cons.mp h
    obtain ⟨rows, hrows, hids⟩ := settleRows_of_mem hp
    have hpost : loan.post p = .ok { loan with schedule := rows } := by rw [post, hrows]
    have hholds : Holds { loan with schedule := rows } ps := by
      intro q hq
      rw [show ({ loan with schedule := rows } : Loan).schedule = rows from rfl, hids]
      exact hps q hq
    rw [List.foldlM_cons, hpost, bind_ok, ih hholds, settled_of_settleRows hrows]

/-- A posting without a row is refused, and those with it. -/
theorem foldlM_post_of_not_holds {ps : List Posting} {loan : Loan} (h : ¬loan.Holds ps) :
    ∃ r, ps.foldlM post loan = .error r := by
  induction ps generalizing loan with
  | nil => exact absurd (fun p hp => nomatch hp) h
  | cons p ps ih =>
    rw [List.foldlM_cons]
    by_cases hp : p.totals.rowId ∈ loan.schedule.map (·.rowId)
    · obtain ⟨rows, hrows, hids⟩ := settleRows_of_mem hp
      have hpost : loan.post p = .ok { loan with schedule := rows } := by rw [post, hrows]
      rw [hpost, bind_ok]
      apply ih
      intro hholds
      refine h (List.forall_mem_cons.mpr ⟨hp, fun q hq => hids ▸ hholds q hq⟩)
    · have hpost : loan.post p =
          .error (.invalidSchedule loan.id s!"no schedule row {p.totals.rowId}") := by
        rw [post, settleRows_of_not_mem hp]
      rw [hpost]
      exact ⟨_, rfl⟩

/-- A loan after an admitted commit. -/
def taking (loan : Loan) (r : AccrualResult) : Loan :=
  { loan with
    schedule := settled r.postings loan.schedule
    charges := r.charges
    accruedTill := r.accruedTill.or loan.accruedTill
    version := loan.version + 1 }

theorem accept_of_holds {loan : Loan} {r : AccrualResult} (h : loan.Holds r.postings)
    (hroom : loan.version.toNat + 1 < UInt64.size) : loan.accept r = .ok (loan.taking r) := by
  have hversion : ({ loan with schedule := settled r.postings loan.schedule } : Loan).nextVersion =
      .ok (loan.version + 1) := if_pos hroom
  exact bind_eq_ok.mpr ⟨_, lift_refusal_eq_ok.mpr (foldlM_post_of_holds h),
    bind_eq_ok.mpr ⟨_, lift_fault_eq_ok.mpr hversion, rfl⟩⟩

theorem accept_of_not_holds {loan : Loan} {r : AccrualResult} (h : ¬loan.Holds r.postings) :
    ∃ refusal, loan.accept r = refuse refusal := by
  obtain ⟨refusal, hrefused⟩ := foldlM_post_of_not_holds h
  rw [accept, hrefused]
  exact ⟨refusal, rfl⟩

/-- An accepted result fits the loan, and the loan takes it. -/
theorem eq_taking_of_accept {loan loan' : Loan} {r : AccrualResult}
    (h : loan.accept r = .ok loan') :
    loan' = loan.taking r ∧ loan'.version.toNat = loan.version.toNat + 1 := by
  have hholds : loan.Holds r.postings := by
    by_contra hnot
    obtain ⟨refusal, hrefused⟩ := accept_of_not_holds hnot
    cases hrefused.symm.trans h
  obtain ⟨posted, hposted, hrest⟩ := bind_eq_ok.mp h
  obtain ⟨version, hversion, hloan⟩ := bind_eq_ok.mp hrest
  rw [foldlM_post_of_holds hholds, lift_refusal_eq_ok] at hposted
  cases hposted
  have hversion := lift_fault_eq_ok.mp hversion
  rw [← pure_eq_ok.mp hloan]
  refine ⟨?_, nextVersion_eq_ok hversion⟩
  simp only [nextVersion] at hversion
  split at hversion
  · cases hversion
    rfl
  · cases hversion

theorem Filed.accept {loan loan' : Loan} {r : AccrualResult} {id : LoanId} (hs : loan.Filed id)
    (h : loan.accept r = .ok loan') : loan'.Filed id := by
  rw [(eq_taking_of_accept h).1]
  refine ⟨hs.id_eq, fun row hrow => ?_⟩
  obtain ⟨stored, hstored, hrow⟩ :=
    exists_mem_of_forall₂ (settled_or_same r.postings loan.schedule).flip hrow
  rcases hrow with rfl | ⟨p, -, -, rfl⟩
  · exact hs.rows _ hstored
  · exact hs.rows stored hstored

end Loan
end LoanLedger
