import LoanLedger.Proofs.Arrears.Overdue
import LoanLedger.Proofs.Ledger.Candidates

/-!
The issued schedules of several loans are read at once and handed out loan by loan. What a loan gets
is its own schedule in the order of the due dates, whatever other loans were read with it and served
before it.
-/

set_option autoImplicit false
set_option relaxedAutoImplicit false

namespace LoanLedger

/-- A loan under its own number, with issued periods that carry the number. -/
structure Loan.Issued (id : LoanId) (loan : Loan) : Prop where
  id_eq : loan.id = id
  periods : ∀ p ∈ loan.issuedSchedule, p.loanId = id

/-- A ledger of loans under their own numbers, whose issued periods carry them. -/
def Ledger.Issued (g : Ledger) : Prop :=
  ∀ id loan, g.loans.find? id = some loan → loan.Issued id

/-- A ledger of loans under their own numbers, where the issued periods of these loans carry them. -/
structure Ledger.IssuedAmong (g : Ledger) (ids : List LoanId) : Prop where
  id_eq : ∀ id loan, g.loans.find? id = some loan → loan.id = id
  periods : ∀ id ∈ ids, ∀ loan, g.loans.find? id = some loan →
    ∀ p ∈ loan.issuedSchedule, p.loanId = id

theorem Ledger.Issued.among {g : Ledger} (hg : g.Issued) (ids : List LoanId) :
    g.IssuedAmong ids where
  id_eq id loan hloan := (hg id loan hloan).id_eq
  periods id _ loan hloan := (hg id loan hloan).periods

namespace IssuedPeriod

theorem groupRuns_cons (p : IssuedPeriod) (ps : List IssuedPeriod) :
    groupRuns (p :: ps) = match groupRuns ps with
      | (loan, qs) :: rest =>
        if loan = p.loanId then (loan, p :: qs) :: rest
        else (p.loanId, [p]) :: (loan, qs) :: rest
      | [] => [(p.loanId, [p])] := by
  rw [groupRuns, List.foldr_cons, ← groupRuns]
  cases groupRuns ps <;> rfl

private theorem loanId_of_groupRuns {p : IssuedPeriod} {ps : List IssuedPeriod}
    {group : LoanId × List IssuedPeriod} {rest : List (LoanId × List IssuedPeriod)}
    (h : groupRuns (p :: ps) = group :: rest) : group.1 = p.loanId := by
  rw [groupRuns_cons] at h
  split at h
  · split at h
    · next heq =>
      rw [← (List.cons.inj h).1]
      exact heq
    · rw [← (List.cons.inj h).1]
  · rw [← (List.cons.inj h).1]

end IssuedPeriod

namespace Ledger

variable {g : Ledger} {id other : LoanId}

@[simp] theorem takeGroup_cons (group : LoanId × List IssuedPeriod)
    (groups : List (LoanId × List IssuedPeriod)) : (takeGroup id (group :: groups)).1 =
      if group.1 = id then group.2 else (takeGroup id groups).1 := by
  rw [takeGroup]
  split <;> rfl

/-- Taking the periods of one loan leaves those of another where they are. -/
theorem takeGroup_after (hne : other ≠ id) (groups : List (LoanId × List IssuedPeriod)) :
    (takeGroup other (takeGroup id groups).2).1 = (takeGroup other groups).1 := by
  induction groups with
  | nil => rfl
  | cons group groups ih =>
    obtain ⟨k, ps⟩ := group
    rw [takeGroup]
    by_cases hk : k = id
    · have hother : k ≠ other := fun heq => hne (heq.symm.trans hk)
      rw [if_pos hk, takeGroup_cons, takeGroup_cons, if_neg hother, if_neg hother]
    · rw [if_neg hk]
      dsimp only
      rw [takeGroup_cons, takeGroup_cons, ih]

/-- In the order of the loans the group of a loan holds all its periods. -/
theorem takeGroup_groupRuns {ps : List IssuedPeriod}
    (h : ps.Pairwise fun a b => a.loanId ≤ b.loanId) :
    (takeGroup id (IssuedPeriod.groupRuns ps)).1 = ps.filter fun p => p.loanId = id := by
  induction ps with
  | nil => rfl
  | cons p ps ih =>
    obtain ⟨hp, hps⟩ := List.pairwise_cons.mp h
    have ih := ih hps
    rw [IssuedPeriod.groupRuns_cons, List.filter_cons, ← ih]
    split
    · next k qs rest hgroups =>
      rw [hgroups, takeGroup_cons] at ih
      by_cases hk : k = p.loanId
      · rw [if_pos hk, hgroups, takeGroup_cons, takeGroup_cons, hk]
        by_cases hid : p.loanId = id
        · rw [if_pos hid, if_pos (decide_eq_true hid), if_pos hid]
        · rw [if_neg hid, if_neg (by simpa using hid), if_neg hid]
      · rw [if_neg hk, takeGroup_cons, hgroups]
        by_cases hid : p.loanId = id
        · -- a later loan has begun, so no period of this one follows
          have hnone : ps.filter (fun q => q.loanId = id) = [] := by
            cases ps with
            | nil => rfl
            | cons q ps =>
              have hq : k = q.loanId := IssuedPeriod.loanId_of_groupRuns hgroups
              have hlt : p.loanId < q.loanId :=
                Int64.lt_of_le_of_ne (hp q List.mem_cons_self) fun heq => hk (hq.trans heq.symm)
              refine List.filter_eq_nil_iff.mpr fun r hr hrid => ?_
              have hle : q.loanId ≤ r.loanId := by
                rcases List.mem_cons.mp hr with rfl | hr
                · exact Int64.le_refl _
                · exact (List.pairwise_cons.mp hps).1 r hr
              rw [of_decide_eq_true hrid, ← hid] at hle
              exact Int64.not_lt.mpr hle hlt
          rw [if_pos hid, if_pos (decide_eq_true hid), takeGroup_cons, ih, hnone]
        · rw [if_neg hid, if_neg (by simpa using hid)]
    · next hgroups =>
      rw [hgroups, takeGroup_cons]
      by_cases hid : p.loanId = id
      · rw [if_pos hid, if_pos (decide_eq_true hid)]
        rfl
      · rw [if_neg hid, if_neg (by simpa using hid)]

/-! The order in which periods are read. -/

private theorem periodLe_iff {a b : IssuedPeriod} : periodLe a b = true ↔
    a.loanId < b.loanId ∨ a.loanId = b.loanId ∧ a.dueDate ≤ b.dueDate := by
  simp [periodLe]

private theorem loanId_le_of_periodLe {a b : IssuedPeriod} (h : periodLe a b = true) :
    a.loanId ≤ b.loanId := by
  rcases periodLe_iff.mp h with hlt | ⟨heq, -⟩
  · exact Int64.le_of_lt hlt
  · exact heq ▸ Int64.le_refl _

private theorem periodLe_trans (a b c : IssuedPeriod) (hab : periodLe a b = true)
    (hbc : periodLe b c = true) : periodLe a c = true := by
  refine periodLe_iff.mpr ?_
  rcases periodLe_iff.mp hab with hab' | ⟨hab', hdue⟩
  · exact .inl (Int64.lt_of_lt_of_le hab' (loanId_le_of_periodLe hbc))
  · rw [hab']
    rcases periodLe_iff.mp hbc with hbc | ⟨hbc, hdue'⟩
    · exact .inl hbc
    · exact .inr ⟨hbc, Int.le_trans hdue hdue'⟩

private theorem periodLe_total (a b : IssuedPeriod) : (periodLe a b || periodLe b a) = true := by
  rw [Bool.or_eq_true, periodLe_iff, periodLe_iff]
  by_cases hlt : a.loanId < b.loanId
  · exact .inl (.inl hlt)
  · by_cases hgt : b.loanId < a.loanId
    · exact .inr (.inl hgt)
    · have heq : a.loanId = b.loanId := Int64.le_antisymm (Int64.not_lt.mp hgt) (Int64.not_lt.mp hlt)
      rcases Int.le_total a.dueDate.day b.dueDate.day with hle | hle
      · exact .inl (.inr ⟨heq, hle⟩)
      · exact .inr (.inr ⟨heq.symm, hle⟩)

/-- What is read of one loan together with others is its issued schedule, in order. -/
theorem filter_issuedPeriods {ids : List LoanId} (hg : g.IssuedAmong ids) {loan : Loan}
    (hloan : g.loans.find? id = some loan) (hid : id ∈ ids) :
    (g.issuedPeriods ids).filter (fun p => p.loanId = id) = loan.issuedInOrder := by
  have hread : ((g.loans.values.filter fun loan => ids.contains loan.id).flatMap
      (·.issuedSchedule)).filter (fun p => p.loanId = id) = loan.issuedSchedule := by
    have hwanted : ids.contains loan.id = true := by
      rw [hg.id_eq id loan hloan]
      exact List.contains_iff_mem.mpr hid
    have hread : ∀ id loan, g.loans.find? id = some loan → loan.id = id ∧
        (ids.contains loan.id = true → ∀ p ∈ loan.issuedSchedule, p.loanId = id) := by
      intro id loan hloan
      have hown := hg.id_eq id loan hloan
      refine ⟨hown, fun hmem => hg.periods id ?_ loan hloan⟩
      rwa [hown, List.contains_iff_mem] at hmem
    rw [filter_flatMap_values hread, hloan, Option.toList_some, List.filter_singleton, hwanted,
      cond_true, List.flatMap_singleton]
  simp only [issuedPeriods]
  rw [filter_mergeSort periodLe_trans periodLe_total, hread, Loan.issuedInOrder]
  -- periods of one loan are in order when their due dates are
  have hle : ∀ a ∈ loan.issuedSchedule, ∀ b ∈ loan.issuedSchedule,
      periodLe a b = decide (a.dueDate ≤ b.dueDate) := by
    intro a ha b hb
    have hcarry := hg.periods id hid loan hloan
    have heq := (hcarry a ha).trans (hcarry b hb).symm
    rw [Bool.eq_iff_iff, periodLe_iff, decide_eq_true_iff, heq]
    exact ⟨fun h => (h.resolve_left (Int64.lt_irrefl)).2, fun h => .inr ⟨rfl, h⟩⟩
  simpa using List.map_mergeSort (f := fun p : IssuedPeriod => p) hle

theorem takeGroup_issuedPeriods {ids : List LoanId} (hg : g.IssuedAmong ids) {loan : Loan}
    (hloan : g.loans.find? id = some loan) (hid : id ∈ ids) :
    (takeGroup id (IssuedPeriod.groupRuns (g.issuedPeriods ids))).1 = loan.issuedInOrder := by
  rw [takeGroup_groupRuns, filter_issuedPeriods hg hloan hid]
  exact (List.pairwise_mergeSort periodLe_trans periodLe_total _).imp loanId_le_of_periodLe

end Ledger
end LoanLedger
