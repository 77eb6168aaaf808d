import LoanLedger.Proofs.ArrearsHistory

/-!
Loans that are named more than once when arrears are brought up to date. By the live schedule a loan
is computed again to the same row. By the issued schedule it is not: its periods are taken out of the
groups at the first look, and the second look, which finds none, clears its row.
-/

set_option autoImplicit false
set_option relaxedAutoImplicit false

namespace LoanLedger

theorem Table.put_find? {α : Type} (t : Table α) (id : LoanId) : t.put id (t.find? id) = t := by
  refine Table.ext_find? fun k => ?_
  by_cases hk : k = id
  · rw [hk, Table.find?_put_self]
  · exact Table.find?_put_of_ne t hk _

theorem Arrears.loanId_of_ofInstallments {id : LoanId} {is : List Installment} {today : Date}
    {row? : Option Arrears} (h : Arrears.ofInstallments id is today = .ok row?) :
    ∀ row ∈ row?, row.loanId = id := by
  intro row hrow
  obtain ⟨t, -, h⟩ := bind_eq_ok.mp h
  rw [(OverdueTotals.leaves_toArrears h).eq row hrow]

theorem Arrears.loanId_of_ofCovered {id : LoanId} {cs : List CoveredPeriod} {today : Date}
    {row? : Option Arrears} (h : Arrears.ofCovered id cs today = .ok row?) :
    ∀ row ∈ row?, row.loanId = id := by
  intro row hrow
  obtain ⟨t, -, h⟩ := bind_eq_ok.mp h
  rw [(OverdueTotals.leaves_toArrears h).eq row hrow]

namespace Ledger

variable {g g' g₁ : Ledger} {s : Settings} {today : Date} {id : LoanId} {ids : List LoanId}

/-- What a computation leaves behind: the ledger, and how it ended. -/
def written {α : Type} (x : Ledger × Except Failure α) : Ledger × Except Failure Unit :=
  (x.1, x.2.map fun _ => ())

theorem written_eq_ok {α : Type} {x : Ledger × Except Failure α} :
    written x = (g', .ok ()) ↔ ∃ a, x = (g', .ok a) := by
  rcases x with ⟨g, f | a⟩ <;> simp [written, Except.map]

/-! Loans that follow their live schedules. -/

theorem liveArrears_of_loans (h : g'.loans = g.loans) :
    g'.liveArrears id today = g.liveArrears id today := by
  rw [liveArrears, liveArrears, installments, installments, Ledger.loan, Ledger.loan, h]

theorem loanId_of_liveArrears {row? : Option Arrears} (h : g.liveArrears id today = .ok row?) :
    ∀ row ∈ row?, row.loanId = id := by
  obtain ⟨installments, -, h⟩ := bind_eq_ok.mp h
  exact Arrears.loanId_of_ofInstallments (lift_fault_eq_ok.mp h)

theorem written_updateLives_cons : written (g.updateLives today (id :: ids)) =
    match g.liveArrears id today with
    | .error f => (g, .error f)
    | .ok row? => written ({ g with arrears := g.arrears.put id row? }.updateLives today ids) := by
  rw [updateLives, updateLive]
  cases hrow : g.liveArrears id today with
  | error f => rfl
  | ok row? =>
    dsimp only
    rw [settleArrears_eq (loanId_of_liveArrears hrow)]
    dsimp only
    rcases Ledger.updateLives _ today ids with ⟨g', f | changes⟩ <;> rfl

/-- A loan whose row is up to date may be left out. -/
theorem written_updateLives_filter (h : g.liveArrears id today = .ok (g.arrears.find? id))
    (ids : List LoanId) : written (g.updateLives today ids) =
      written (g.updateLives today (ids.filter fun k => !k == id)) := by
  induction ids generalizing g with
  | nil => rfl
  | cons k ids ih =>
    rw [written_updateLives_cons]
    by_cases hk : k = id
    · rw [hk, h, List.filter_cons_of_neg (by simp)]
      dsimp only
      rw [Table.put_find?]
      exact ih h
    · rw [List.filter_cons_of_pos (by simpa using hk), written_updateLives_cons]
      cases g.liveArrears k today with
      | error f => rfl
      | ok row? =>
        refine ih ?_
        rw [Table.find?_put_of_ne _ (Ne.symm hk), ← h]
        exact liveArrears_of_loans rfl

/-- By their live schedules, loans that are named more than once come to the same. -/
theorem written_updateLives_eraseDups (ids : List LoanId) (g : Ledger) :
    written (g.updateLives today ids) = written (g.updateLives today ids.eraseDups) := by
  induction ids using eraseDups_induction generalizing g with
  | nil => rfl
  | cons id ids ih =>
    rw [List.eraseDups_cons, written_updateLives_cons, written_updateLives_cons]
    cases hrow : g.liveArrears id today with
    | error f => rfl
    | ok row? =>
      dsimp only
      rw [← ih]
      refine written_updateLives_filter ?_ ids
      rw [Table.find?_put_self, ← hrow]
      exact liveArrears_of_loans rfl

/-! Loans that follow their issued schedules. -/

theorem issuedArrears_of_loans (h : g'.loans = g.loans) (periods : List IssuedPeriod) :
    g'.issuedArrears s id periods today = g.issuedArrears s id periods today := by
  rw [issuedArrears, issuedArrears, profile, profile, repayments, repayments, Ledger.loan,
    Ledger.loan, h]

theorem loanId_of_issuedArrears {periods : List IssuedPeriod} {row? : Option Arrears}
    (h : g.issuedArrears s id periods today = .ok row?) : ∀ row ∈ row?, row.loanId = id := by
  obtain ⟨profile, -, h⟩ := bind_eq_ok.mp h
  obtain ⟨cutoff, -, h⟩ := bind_eq_ok.mp h
  dsimp only at h
  split at h
  · rw [← pure_eq_ok.mp h]
    exact fun _ hrow => (nomatch hrow)
  · obtain ⟨repayments, -, h⟩ := bind_eq_ok.mp h
    obtain ⟨covered, -, h⟩ := bind_eq_ok.mp h
    exact Arrears.loanId_of_ofCovered (lift_fault_eq_ok.mp h)

theorem issuedArrears_nil {row? : Option Arrears}
    (h : g.issuedArrears s id [] today = .ok row?) : row? = none := by
  obtain ⟨profile, -, h⟩ := bind_eq_ok.mp h
  obtain ⟨cutoff, -, h⟩ := bind_eq_ok.mp h
  exact (pure_eq_ok.mp h).symm

/-- A second look finds no periods. -/
theorem takeGroup_again (groups : List (LoanId × List IssuedPeriod)) :
    (takeGroup id (takeGroup id groups).2).1 = [] := by
  induction groups with
  | nil => rfl
  | cons group groups ih =>
    obtain ⟨k, ps⟩ := group
    rw [takeGroup]
    by_cases hk : k = id
    · rw [if_pos hk, takeGroup_cons, if_pos hk]
    · rw [if_neg hk, takeGroup_cons, if_neg hk, ih]

variable {groups : List (LoanId × List IssuedPeriod)}

theorem updateIssuedFrom_cons : g.updateIssuedFrom s today groups (id :: ids) =
    match g.issuedArrears s id (takeGroup id groups).1 today with
    | .error f => (g, .error f)
    | .ok row? =>
      match { g with arrears := g.arrears.put id row? }.updateIssuedFrom s today
          (takeGroup id groups).2 ids with
      | (g', .error f) => (g', .error f)
      | (g', .ok changes) => (g', .ok (.plan id (g.arrears.find? id) row? :: changes)) := by
  rcases htaken : takeGroup id groups with ⟨periods, left⟩
  rw [updateIssuedFrom, htaken]
  dsimp only
  cases hrow : g.issuedArrears s id periods today with
  | error f => rfl
  | ok row? =>
    dsimp only
    exact settleArrears_eq (loanId_of_issuedArrears hrow) ▸ rfl

/-- By their issued schedules, loans that are named once get the row of their periods, those that are
named again get none, and those that are not named keep theirs. -/
theorem find?_updateIssuedFrom {changes : List ArrearsChange}
    (h : g.updateIssuedFrom s today groups ids = (g', .ok changes)) :
    g' = { g with arrears := g'.arrears } ∧
    (∀ id, id ∉ ids → g'.arrears.find? id = g.arrears.find? id) ∧
    ∀ id ∈ ids, ∃ row?, g.issuedArrears s id (takeGroup id groups).1 today = .ok row? ∧
      g'.arrears.find? id = if 1 < ids.count id then none else row? := by
  induction ids generalizing g groups changes with
  | nil =>
    obtain rfl : g = g' := congrArg Prod.fst h
    exact ⟨rfl, fun _ _ => rfl, fun _ hid => (nomatch hid)⟩
  | cons k ids ih =>
    rw [updateIssuedFrom_cons] at h
    split at h
    · cases h
    next row? hrow =>
    split at h
    · cases h
    next g₂ more hrest =>
    obtain rfl : g₂ = g' := congrArg Prod.fst h
    obtain ⟨hothers, hkept, hrows⟩ := ih hrest
    refine ⟨hothers, fun id hid => ?_, fun id hid => ?_⟩
    · obtain ⟨hk, hid⟩ := not_or.mp (List.mem_cons.not.mp hid)
      rw [hkept id hid, Table.find?_put_of_ne _ hk]
    by_cases hk : id = k
    · subst hk
      refine ⟨row?, hrow, ?_⟩
      rw [List.count_cons_self]
      by_cases hmem : id ∈ ids
      · -- whatever comes of the later looks, they find no periods
        obtain ⟨later?, hlater, hfind⟩ := hrows id hmem
        rw [takeGroup_again] at hlater
        rw [if_pos (Nat.succ_lt_succ (List.count_pos_iff.mpr hmem)), hfind,
          issuedArrears_nil hlater, ite_self]
      · rw [List.count_eq_zero.mpr hmem, if_neg (Nat.lt_irrefl 1), hkept id hmem,
          Table.find?_put_self]
    · obtain ⟨own?, hown, hfind⟩ := hrows id ((List.mem_cons.mp hid).resolve_left hk)
      rw [takeGroup_after hk, issuedArrears_of_loans rfl] at hown
      refine ⟨own?, hown, ?_⟩
      rw [hfind, List.count_cons_of_ne (Ne.symm hk)]

/-- Where the row of each loan can be computed, distinct loans are brought up to date. -/
theorem exists_updateIssuedFrom (hn : ids.Nodup) (h : ∀ id ∈ ids, ∃ row?,
      g.issuedArrears s id (takeGroup id groups).1 today = .ok row?) :
    ∃ g' changes, g.updateIssuedFrom s today groups ids = (g', .ok changes) := by
  induction ids generalizing g groups with
  | nil => exact ⟨g, [], rfl⟩
  | cons k ids ih =>
    obtain ⟨hk, hn⟩ := List.nodup_cons.mp hn
    obtain ⟨⟨row?, hrow⟩, h⟩ := List.forall_mem_cons.mp h
    obtain ⟨g', changes, hrest⟩ := @ih { g with arrears := g.arrears.put k row? }
      (takeGroup k groups).2 hn fun id hid => by
        have hne : id ≠ k := fun heq => hk (heq ▸ hid)
        obtain ⟨own?, hown⟩ := h id hid
        exact ⟨own?, by rw [takeGroup_after hne, ← hown]; exact issuedArrears_of_loans rfl _⟩
    rw [updateIssuedFrom_cons, hrow]
    dsimp only
    rw [hrest]
    exact ⟨_, _, rfl⟩

/-- Which schedules are read does not depend on how often a loan is named. -/
theorem issuedPeriods_eraseDups (g : Ledger) (ids : List LoanId) :
    g.issuedPeriods ids.eraseDups = g.issuedPeriods ids := by
  have hwanted : (fun loan : Loan => ids.eraseDups.contains loan.id) =
      fun loan : Loan => ids.contains loan.id := by
    funext loan
    rw [Bool.eq_iff_iff, List.contains_iff_mem, List.contains_iff_mem, List.mem_eraseDups]
  rw [issuedPeriods, issuedPeriods, hwanted]

/-- By their issued schedules, naming loans once succeeds where naming them again does, and all rows
are the same but for those of loans that are named again. -/
theorem updateIssued_eraseDups {changes : List ArrearsChange}
    (h : g.updateIssued s today ids = (g', .ok changes)) : ∃ g₁ changes₁,
      g.updateIssued s today ids.eraseDups = (g₁, .ok changes₁) ∧
      ∀ id, g'.arrears.find? id = if 1 < ids.count id then none else g₁.arrears.find? id := by
  obtain ⟨-, hothers, hrows⟩ := find?_updateIssuedFrom h
  have honce : ∃ g₁ changes₁, g.updateIssued s today ids.eraseDups = (g₁, .ok changes₁) := by
    rw [updateIssued, readIssued, issuedPeriods_eraseDups]
    refine exists_updateIssuedFrom (nodup_eraseDups ids) fun id hid => ?_
    obtain ⟨row?, hrow, -⟩ := hrows id (List.mem_eraseDups.mp hid)
    exact ⟨row?, hrow⟩
  obtain ⟨g₁, changes₁, honce⟩ := honce
  refine ⟨g₁, changes₁, honce, fun id => ?_⟩
  rw [updateIssued, readIssued, issuedPeriods_eraseDups] at honce
  obtain ⟨-, hothers₁, hrows₁⟩ := find?_updateIssuedFrom honce
  by_cases hid : id ∈ ids
  · obtain ⟨row?, hrow, hfind⟩ := hrows id hid
    obtain ⟨row₁?, hrow₁, hfind₁⟩ := hrows₁ id (List.mem_eraseDups.mpr hid)
    rw [hrow] at hrow₁
    rw [hfind, hfind₁, Except.ok.inj hrow₁,
      if_neg (Nat.not_lt.mpr (List.nodup_iff_count_le_one.mp (nodup_eraseDups ids) id))]
  · rw [hothers id hid, hothers₁ id (List.mem_eraseDups.not.mpr hid),
      if_neg (by rw [List.count_eq_zero.mpr hid]; exact Nat.not_lt_zero 1)]

/-! Loans of both kinds. -/

/-- Whether the arrears of a known loan follow its issued schedule. -/
def followsIssued (g : Ledger) (s : Settings) (id : LoanId) : Bool :=
  (g.loans.find? id).any fun loan => loan.usesIssuedSchedule s

/-- A loan that follows its issued schedule is named more than once. -/
def NamedAgain (g : Ledger) (s : Settings) (ids : List LoanId) (id : LoanId) : Prop :=
  g.followsIssued s id = true ∧ 1 < ids.count id

theorem usesIssuedSchedule_of_contains (h : g.loans.contains id = true) :
    g.usesIssuedSchedule s id = .ok (g.followsIssued s id) := by
  obtain ⟨loan, hloan⟩ := Option.isSome_iff_exists.mp h
  rw [usesIssuedSchedule_of_find? hloan, followsIssued, hloan]
  rfl

/-- Known loans are brought up to date, those that follow their live schedules first. -/
theorem written_updateArrears (h : ∀ id ∈ ids, g.loans.contains id = true) :
    written (g.updateArrears s today ids) =
      match written (g.updateLives today (ids.filter fun id => !g.followsIssued s id)) with
      | (g₁, .error f) => (g₁, .error f)
      | (g₁, .ok ()) =>
        if (ids.filter fun id => g.followsIssued s id).isEmpty then (g₁, .ok ())
        else written (g₁.updateIssued s today (ids.filter fun id => g.followsIssued s id)) := by
  have hmarks : ids.mapM (fun id => (g.usesIssuedSchedule s id).map fun issued => (id, issued)) =
      .ok (ids.map fun id => (id, g.followsIssued s id)) := by
    refine mapM_eq_ok_iff.mpr (List.forall₂_map_right_iff.mpr (List.forall₂_same.mpr ?_))
    intro id hid
    rw [usesIssuedSchedule_of_contains (h id hid)]
    rfl
  rw [updateArrears, hmarks]
  simp only [List.filter_map, List.map_map, Function.comp_def, List.map_id']
  rcases g.updateLives today (ids.filter fun id => !g.followsIssued s id) with ⟨g₁, f | changes⟩
  · rfl
  · dsimp only [written, Except.map]
    split
    · rfl
    · rcases g₁.updateIssued s today (ids.filter fun id => g.followsIssued s id) with ⟨g₂, f | more⟩ <;>
        rfl

/-- Where no loan that follows its issued schedule is named more than once, naming loans more than once
makes no difference. -/
theorem written_updateArrears_eraseDups (hknown : ∀ id ∈ ids, g.loans.contains id = true)
    (honce : ∀ id, ¬g.NamedAgain s ids id) :
    written (g.updateArrears s today ids) = written (g.updateArrears s today ids.eraseDups) := by
  have hissued : (ids.filter fun id => g.followsIssued s id).Nodup := by
    refine List.nodup_iff_count_le_one.mpr fun id => Nat.not_lt.mp fun hcount => ?_
    have hmem := List.count_pos_iff.mp (Nat.zero_lt_of_lt hcount)
    obtain ⟨-, hfollows⟩ := List.mem_filter.mp hmem
    rw [List.count_filter hfollows] at hcount
    exact honce id ⟨hfollows, hcount⟩
  rw [written_updateArrears hknown,
    written_updateArrears fun id hid => hknown id (List.mem_eraseDups.mp hid),
    filter_eraseDups, filter_eraseDups, eraseDups_of_nodup hissued, written_updateLives_eraseDups]

/-- Naming known loans once succeeds where naming them again does, and all rows are the same but for
those of loans that follow their issued schedules and are named again: these are gone. -/
theorem find?_updateArrears_eraseDups (hknown : ∀ id ∈ ids, g.loans.contains id = true)
    {changes : List ArrearsChange} (h : g.updateArrears s today ids = (g', .ok changes)) :
    ∃ g₁ changes₁, g.updateArrears s today ids.eraseDups = (g₁, .ok changes₁) ∧
      (∀ id, ¬g.NamedAgain s ids id → g'.arrears.find? id = g₁.arrears.find? id) ∧
      ∀ id, g.NamedAgain s ids id → g'.arrears.find? id = none := by
  have hboth := written_eq_ok.mpr ⟨changes, h⟩
  rw [written_updateArrears hknown] at hboth
  have honce : written (g.updateArrears s today ids.eraseDups) = _ :=
    written_updateArrears fun id hid => hknown id (List.mem_eraseDups.mp hid)
  rw [filter_eraseDups, filter_eraseDups, ← written_updateLives_eraseDups] at honce
  rcases hlives : written (g.updateLives today (ids.filter fun id => !g.followsIssued s id)) with
    ⟨g₁, f | ⟨⟩⟩
  · rw [hlives] at hboth
    cases hboth
  rw [hlives] at hboth honce
  dsimp only at hboth honce
  have hnamed : ∀ id, g.NamedAgain s ids id ↔
      1 < (ids.filter fun id => g.followsIssued s id).count id := by
    intro id
    by_cases hfollows : g.followsIssued s id = true
    · rw [NamedAgain, List.count_filter hfollows, and_iff_right hfollows]
    · have hmem : id ∉ ids.filter fun id => g.followsIssued s id :=
        fun hmem => hfollows (List.mem_filter.mp hmem).2
      rw [List.count_eq_zero.mpr hmem]
      exact iff_of_false (fun h => hfollows h.1) (Nat.not_lt_zero 1)
  by_cases hnone : ids.filter (fun id => g.followsIssued s id) = []
  · rw [hnone] at hboth honce hnamed
    obtain rfl : g₁ = g' := congrArg Prod.fst hboth
    obtain ⟨changes₁, honce⟩ := written_eq_ok.mp honce
    exact ⟨g₁, changes₁, honce, fun _ _ => rfl,
      fun id hid => absurd ((hnamed id).mp hid) (Nat.not_lt_zero 1)⟩
  · rw [if_neg (by rwa [List.isEmpty_iff])] at hboth
    rw [if_neg (by rwa [List.isEmpty_iff, eraseDups_eq_nil])] at honce
    obtain ⟨more, hissued⟩ := written_eq_ok.mp hboth
    obtain ⟨g₂, more₂, hissued₂, hrows⟩ := updateIssued_eraseDups hissued
    rw [hissued₂] at honce
    obtain ⟨changes₁, honce⟩ := written_eq_ok.mp honce
    refine ⟨g₂, changes₁, honce, fun id hid => ?_, fun id hid => ?_⟩
    · rw [hrows, if_neg (mt (hnamed id).mpr hid)]
    · rw [hrows, if_pos ((hnamed id).mp hid)]

/-- How often loans are named matters only for loans that follow their issued schedules. Where none of
them is named more than once, the ledger and how the update ends are the same as if every loan had been
named once. Where some are, and the update succeeds, naming every loan once succeeds too; all other rows
are the same, those of the loans that were named again are gone, and so the table is the same only if
these loans have no row either way. -/
theorem updateArrears_eraseDups (g : Ledger) (s : Settings) (today : Date) (ids : List LoanId) :
    ((∀ id, ¬g.NamedAgain s ids id) →
      written (g.updateArrears s today ids) = written (g.updateArrears s today ids.eraseDups)) ∧
    ∀ g' changes, g.updateArrears s today ids = (g', .ok changes) →
      ∃ g₁ changes₁, g.updateArrears s today ids.eraseDups = (g₁, .ok changes₁) ∧
        (∀ id, ¬g.NamedAgain s ids id → g'.arrears.find? id = g₁.arrears.find? id) ∧
        (∀ id, g.NamedAgain s ids id → g'.arrears.find? id = none) ∧
        (g'.arrears = g₁.arrears ↔ ∀ id, g.NamedAgain s ids id → g₁.arrears.find? id = none) := by
  cases hunknown : ids.find? fun id => !g.loans.contains id with
  | some id =>
    have hunknown' := hunknown
    rw [← find?_eraseDups] at hunknown'
    rw [updateArrears_of_unknown hunknown, updateArrears_of_unknown hunknown']
    exact ⟨fun _ => rfl, fun g' changes h => by cases h⟩
  | none =>
    have hknown : ∀ id ∈ ids, g.loans.contains id = true := by
      simpa using List.find?_eq_none.mp hunknown
    refine ⟨written_updateArrears_eraseDups hknown, fun g' changes h => ?_⟩
    obtain ⟨g₁, changes₁, honce, hothers, hagain⟩ := find?_updateArrears_eraseDups hknown h
    refine ⟨g₁, changes₁, honce, hothers, hagain, fun heq id hid => ?_, fun hnone => ?_⟩
    · rw [← heq, hagain id hid]
    · refine Table.ext_find? fun id => ?_
      by_cases hid : g.NamedAgain s ids id
      · rw [hagain id hid, hnone id hid]
      · exact hothers id hid

end Ledger

/-- Of the two loans only the second follows its issued schedule. -/
theorem followsIssued_twoLoans {paid : Money} {id : LoanId}
    (h : (twoLoanBooks paid).ledger.followsIssued .standard id = true) : id = 2 := by
  by_contra hsecond
  have hfirst : (twoLoanBooks paid).ledger.loans.find? id =
      (Ledger.empty.putLoan (januaryDueLoan paid)).loans.find? id :=
    Table.find?_insert_of_ne _ hsecond _
  rw [Ledger.followsIssued, hfirst] at h
  by_cases hid : id = 1
  · subst hid
    exact Bool.false_ne_true h
  · have hnone : (Ledger.empty.putLoan (januaryDueLoan paid)).loans.find? id = none :=
      Table.find?_insert_of_ne _ hid _
    rw [hnone] at h
    exact Bool.false_ne_true h

/-- The loan that follows its live schedule may be named twice. When the other is, its row is gone. -/
theorem updateArrears_eraseDups_twoLoans :
    (∀ id, ¬(twoLoanBooks .zero).ledger.NamedAgain .standard [1, 2, 1] id) ∧
    Ledger.written ((twoLoanBooks .zero).ledger.updateArrears .standard firstOfMarch [1, 2, 1]) =
      Ledger.written ((twoLoanBooks .zero).ledger.updateArrears .standard firstOfMarch [1, 2]) ∧
    ∃ g' changes g₁ changes₁,
      (twoLoanBooks .zero).ledger.updateArrears .standard firstOfMarch [2, 1, 2] =
        (g', .ok changes) ∧
      (twoLoanBooks .zero).ledger.updateArrears .standard firstOfMarch [2, 1] =
        (g₁, .ok changes₁) ∧
      g'.arrears.find? 1 = g₁.arrears.find? 1 ∧ g'.arrears.find? 2 = none := by
  have honce : ∀ id, ¬(twoLoanBooks .zero).ledger.NamedAgain .standard [1, 2, 1] id := by
    rintro id ⟨hid, hcount⟩
    obtain rfl := followsIssued_twoLoans hid
    exact absurd hcount (by decide)
  refine ⟨honce, (Ledger.updateArrears_eraseDups _ _ _ _).1 honce, ?_⟩
  rcases htwice : (twoLoanBooks .zero).ledger.updateArrears .standard firstOfMarch [2, 1, 2] with
    ⟨g', f | changes⟩
  · have hends : ((twoLoanBooks .zero).ledger.updateArrears .standard firstOfMarch [2, 1, 2]).2.isOk =
        true := by decide +kernel
    rw [htwice] at hends
    cases hends
  · obtain ⟨g₁, changes₁, honce, hothers, hagain, -⟩ :=
      (Ledger.updateArrears_eraseDups _ _ _ _).2 g' changes htwice
    refine ⟨g', changes, g₁, changes₁, rfl, honce, hothers 1 fun h => ?_, hagain 2 ⟨rfl, by decide⟩⟩
    exact absurd (followsIssued_twoLoans h.1) (by decide)

/-- Named twice, a loan that follows its issued schedule loses the row that it has when named once. -/
theorem arrears_of_namedAgain :
    ¬∀ (g : Ledger) (s : Settings) (today : Date) (ids : List LoanId),
      (∀ id ∈ ids, g.loans.contains id = true) →
      (g.updateArrears s today ids).1.arrears =
        (g.updateArrears s today ids.eraseDups).1.arrears := by
  intro h
  have hknown : (twoLoanBooks .zero).ledger.loans.contains 2 = true := by decide
  have hsame := h (twoLoanBooks .zero).ledger .standard firstOfMarch [2, 2]
    (List.forall_mem_cons.mpr ⟨hknown, List.forall_mem_singleton.mpr hknown⟩)
  have hrow := congrArg (fun t : Table Arrears => (t.find? 2).isSome) hsame
  exact absurd hrow (by decide +kernel)

end LoanLedger
