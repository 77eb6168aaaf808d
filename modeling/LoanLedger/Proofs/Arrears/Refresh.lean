import LoanLedger.Proofs.Arrears.Reading

/-!
Bringing the rows of loans up to date. Each row is written as it is computed from its loan alone, in
the way that its loan asks for, and no other row changes. The write that is planned is never refused:
it is planned from the row that it meets.
-/

set_option autoImplicit false
set_option relaxedAutoImplicit false

namespace LoanLedger

namespace Table

universe u

variable {α : Type u}

/-- Let a loan have this entry, or none. -/
def put (t : Table α) (loan : LoanId) : Option α → Table α
  | some a => t.insert loan a
  | none => t.erase loan

@[simp] theorem find?_put_self (t : Table α) (loan : LoanId) (o : Option α) :
    (t.put loan o).find? loan = o := by
  cases o with
  | none => exact find?_erase_self t loan
  | some a => exact find?_insert_self t loan a

theorem find?_put_of_ne (t : Table α) {loan other : LoanId} (h : other ≠ loan) (o : Option α) :
    (t.put loan o).find? other = t.find? other := by
  cases o with
  | none => exact find?_erase_of_ne t h
  | some a => exact find?_insert_of_ne t h a

end Table

namespace Ledger

variable {g g' g₁ g₂ : Ledger} {s : Settings} {today : Date} {live : Bool} {id : LoanId} {loan : Loan}

theorem liveArrears_eq (hloan : g.loans.find? id = some loan) (hid : loan.id = id)
    (hlive : loan.overdue s today live = loan.overdueLive today) :
    g.liveArrears id today = liftM (loan.freshArrears s today live) := by
  rw [liveArrears, installments, loan_of_find? hloan, Loan.freshArrears, hlive, Loan.overdueLive,
    hid]
  change (liftM (Arrears.ofInstallments id loan.installments today) : Except Failure _) = _
  simp only [Arrears.ofInstallments, bind_assoc, pure_bind]

/-- The issued schedule of a loan is read up to the days of grace of the loan. -/
theorem issuedArrears_of_find? (hloan : g.loans.find? id = some loan) :
    g.issuedArrears s id loan.issuedInOrder today =
      liftM (today.minusDays (loan.profile.grace s).toNat) >>= fun cutoff =>
        if (loan.issuedBefore cutoff).isEmpty then pure none
        else liftM (CoveredPeriod.ofRepayments (loan.issuedBefore cutoff) loan.repayments) >>=
          fun covered => liftM (Arrears.ofCovered id covered today) := by
  rw [issuedArrears, profile, repayments, loan_of_find? hloan]
  rfl

theorem issuedArrears_eq (hloan : g.loans.find? id = some loan) (hid : loan.id = id)
    (hissued : loan.overdue s today live = loan.overdueIssued s today) :
    g.issuedArrears s id loan.issuedInOrder today = liftM (loan.freshArrears s today live) := by
  rw [issuedArrears_of_find? hloan, Loan.freshArrears, hissued, Loan.overdueIssued, hid, bind_assoc,
    lift_fault_bind]
  refine bind_congr fun cutoff => ?_
  by_cases hnone : (loan.issuedBefore cutoff).isEmpty = true
  · rw [if_pos hnone, if_pos hnone]
    rfl
  · rw [if_neg hnone, if_neg hnone, bind_assoc, lift_fault_bind]
    refine bind_congr fun covered => ?_
    simp only [Arrears.ofCovered, bind_assoc, pure_bind]

/-- The rows of these loans are brought up to date, each as it is computed from its loan, by the
changes in their order. All else stays, but for the count of reads. -/
structure Refreshes (s : Settings) (today : Date) (live : Bool) (ids : List LoanId) (g g' : Ledger)
    (changes : List ArrearsChange) : Prop where
  rest : g' = { g with arrears := g'.arrears, issuedReads := g'.issuedReads }
  row : ∀ id ∈ ids, ∃ loan, g.loans.find? id = some loan ∧
    loan.freshArrears s today live = .ok (g'.arrears.find? id)
  others : ∀ id, id ∉ ids → g'.arrears.find? id = g.arrears.find? id
  changes_eq : changes =
    ids.map fun id => .plan id (g.arrears.find? id) (g'.arrears.find? id)

theorem Refreshes.loans {ids : List LoanId} {changes : List ArrearsChange}
    (h : g.Refreshes s today live ids g' changes) : g'.loans = g.loans := by
  rw [h.rest]

theorem Refreshes.nil (g : Ledger) : g.Refreshes s today live [] g [] where
  rest := rfl
  row _ hid := nomatch hid
  others _ _ := rfl
  changes_eq := rfl

/-- Loans that are brought up to date after others do not disturb them. -/
theorem Refreshes.append {ids ids' : List LoanId} {changes changes' : List ArrearsChange}
    (h : g.Refreshes s today live ids g₁ changes)
    (h' : g₁.Refreshes s today live ids' g₂ changes') (hdisjoint : ids.Disjoint ids') :
    g.Refreshes s today live (ids ++ ids') g₂ (changes ++ changes') where
  rest := by
    rw [h'.rest, h.rest]
  row id hid := by
    rcases List.mem_append.mp hid with hid | hid
    · rw [h'.others id (hdisjoint hid)]
      exact h.row id hid
    · rw [← h.loans]
      exact h'.row id hid
  others id hid := by
    obtain ⟨hids, hids'⟩ := not_or.mp (List.mem_append.not.mp hid)
    rw [h'.others id hids', h.others id hids]
  changes_eq := by
    rw [List.map_append, h.changes_eq, h'.changes_eq]
    congr 1
    · refine List.map_congr_left fun id hid => ?_
      rw [h'.others id (hdisjoint hid)]
    · refine List.map_congr_left fun id hid => ?_
      rw [h.others id fun hmem => hdisjoint hmem hid]

/-- A row is written without refusal: the write is planned from the row that it meets. -/
theorem settleArrears_eq {row? : Option Arrears} (h : ∀ row ∈ row?, row.loanId = id) :
    g.settleArrears id row? =
      ({ g with arrears := g.arrears.put id row? }, .ok (.plan id (g.arrears.find? id) row?)) := by
  rw [settleArrears, arrearsOf?]
  cases hstored : g.arrears.find? id with
  | none =>
    cases row? with
    | none => rfl
    | some row =>
      obtain rfl := h row rfl
      have habsent : g.arrears.contains row.loanId = false := by rw [Table.contains, hstored]; rfl
      simp only [ArrearsChange.plan, applyArrears, habsent, Bool.false_eq_true, if_false, Table.put]
  | some stored =>
    cases row? with
    | none => rfl
    | some row =>
      obtain rfl := h row rfl
      have hpresent : g.arrears.contains row.loanId = true := by rw [Table.contains, hstored]; rfl
      simp only [ArrearsChange.plan, applyArrears, hpresent, if_true, Table.put]

/-- The row that is computed from a loan is written without refusal. -/
theorem settleArrears_refreshes {row? : Option Arrears} (hloan : g.loans.find? id = some loan)
    (hid : loan.id = id) (hrow : loan.freshArrears s today live = .ok row?) :
    ∃ g' change, g.settleArrears id row? = (g', .ok change) ∧
      g.Refreshes s today live [id] g' [change] := by
  have hcarries : ∀ row ∈ row?, row.loanId = id := by
    intro row hmem
    obtain ⟨totals, since, -, hleaves⟩ := Loan.leaves_freshArrears hrow
    rw [hleaves.eq row hmem, hid]
  refine ⟨_, _, settleArrears_eq hcarries, rfl, ?_, ?_, ?_⟩
  · intro k hk
    obtain rfl := List.mem_singleton.mp hk
    exact ⟨loan, hloan, by rw [hrow, Table.find?_put_self]⟩
  · intro k hk
    exact Table.find?_put_of_ne _ (List.mem_singleton.not.mp hk) _
  · rw [List.map_singleton, Table.find?_put_self]

/-- A computation that brings the rows of loans up to date, unless a fault ends it. -/
def Refreshing (g : Ledger) (s : Settings) (today : Date) (live : Bool) (ids : List LoanId)
    (x : Ledger × Except Failure (List ArrearsChange)) : Prop :=
  (∃ g' f, x = (g', .error (.fault f))) ∨
    ∃ g' changes, x = (g', .ok changes) ∧ g.Refreshes s today live ids g' changes

theorem Refreshing.cons {ids : List LoanId} {change : ArrearsChange}
    {x : Ledger × Except Failure (List ArrearsChange)}
    (hstep : g.Refreshes s today live [id] g₁ [change]) (hid : id ∉ ids) :
    g₁.Refreshing s today live ids x → g.Refreshing s today live (id :: ids)
      (match x with
        | (g, .error f) => (g, .error f)
        | (g, .ok changes) => (g, .ok (change :: changes))) := by
  rintro (⟨g₂, f, rfl⟩ | ⟨g₂, changes, rfl, hrest⟩)
  · exact .inl ⟨g₂, f, rfl⟩
  · exact .inr ⟨g₂, _, rfl, hstep.append hrest (List.singleton_disjoint.mpr hid)⟩

/-- Loans that follow their live schedules are brought up to date one after the other. -/
theorem updateLives_refreshing {ids : List LoanId} (hn : ids.Nodup)
    (h : ∀ id ∈ ids, ∃ loan, g.loans.find? id = some loan ∧ loan.id = id ∧
      loan.overdue s today live = loan.overdueLive today) :
    g.Refreshing s today live ids (g.updateLives today ids) := by
  induction ids generalizing g with
  | nil => exact .inr ⟨g, [], rfl, .nil g⟩
  | cons id ids ih =>
    obtain ⟨hid, hn⟩ := List.nodup_cons.mp hn
    obtain ⟨⟨loan, hloan, hloanId, hlive⟩, h⟩ := List.forall_mem_cons.mp h
    rw [updateLives, updateLive, liveArrears_eq hloan hloanId hlive]
    cases hrow : loan.freshArrears s today live with
    | error f => exact .inl ⟨g, f, rfl⟩
    | ok row? =>
      obtain ⟨g₁, change, hsettle, hstep⟩ := settleArrears_refreshes hloan hloanId hrow
      have hrest : g₁.Refreshing s today live ids (g₁.updateLives today ids) :=
        ih hn fun k hk => by rw [hstep.loans]; exact h k hk
      rw [lift_fault_ok]
      dsimp only
      rw [hsettle]
      exact Refreshing.cons hstep hid hrest

/-- Loans that follow their issued schedules are brought up to date one after the other, each with
the group of its own periods. -/
theorem updateIssuedFrom_refreshing {ids : List LoanId} {groups : List (LoanId × List IssuedPeriod)}
    (hn : ids.Nodup) (h : ∀ id ∈ ids, ∃ loan, g.loans.find? id = some loan ∧ loan.id = id ∧
      loan.overdue s today live = loan.overdueIssued s today ∧
      (takeGroup id groups).1 = loan.issuedInOrder) :
    g.Refreshing s today live ids (g.updateIssuedFrom s today groups ids) := by
  induction ids generalizing g groups with
  | nil => exact .inr ⟨g, [], rfl, .nil g⟩
  | cons id ids ih =>
    obtain ⟨hid, hn⟩ := List.nodup_cons.mp hn
    obtain ⟨⟨loan, hloan, hloanId, hissued, hgroup⟩, h⟩ := List.forall_mem_cons.mp h
    rcases htaken : takeGroup id groups with ⟨periods, left⟩
    obtain rfl : periods = loan.issuedInOrder := by rw [← hgroup, htaken]
    rw [updateIssuedFrom, htaken]
    dsimp only
    rw [issuedArrears_eq hloan hloanId hissued]
    cases hrow : loan.freshArrears s today live with
    | error f => exact .inl ⟨g, f, rfl⟩
    | ok row? =>
      obtain ⟨g₁, change, hsettle, hstep⟩ := settleArrears_refreshes hloan hloanId hrow
      have hrest : g₁.Refreshing s today live ids
          (g₁.updateIssuedFrom s today left ids) := by
        refine ih hn fun k hk => ?_
        have hne : k ≠ id := fun heq => hid (heq ▸ hk)
        have hleft : (takeGroup k left).1 = (takeGroup k groups).1 := by
          rw [← takeGroup_after hne groups, htaken]
        rw [hstep.loans, hleft]
        exact h k hk
      rw [lift_fault_ok]
      dsimp only
      rw [hsettle]
      exact Refreshing.cons hstep hid hrest

theorem Refreshing.of_reads {ids : List LoanId} {n : Nat}
    {x : Ledger × Except Failure (List ArrearsChange)}
    (h : { g with issuedReads := n }.Refreshing s today live ids x) :
    g.Refreshing s today live ids x := by
  rcases h with hfault | ⟨g', changes, hx, hrefreshes⟩
  · exact .inl hfault
  · exact .inr ⟨g', changes, hx, hrefreshes.rest, hrefreshes.row, hrefreshes.others,
      hrefreshes.changes_eq⟩

/-- Loans that follow their issued schedules are brought up to date from one read. -/
theorem updateIssued_refreshing (hg : g.Issued) {ids : List LoanId} (hn : ids.Nodup)
    (h : ∀ id ∈ ids, ∃ loan, g.loans.find? id = some loan ∧
      loan.overdue s today live = loan.overdueIssued s today) :
    g.Refreshing s today live ids (g.updateIssued s today ids) := by
  refine .of_reads (updateIssuedFrom_refreshing hn fun id hid => ?_)
  obtain ⟨loan, hloan, hissued⟩ := h id hid
  exact ⟨loan, hloan, (hg id loan hloan).id_eq, hissued,
    takeGroup_issuedPeriods (hg.among ids) hloan hid⟩

theorem usesIssuedSchedule_of_find? (h : g.loans.find? id = some loan) :
    g.usesIssuedSchedule s id = .ok (loan.usesIssuedSchedule s) := by
  rw [usesIssuedSchedule, profile, loan_of_find? h]
  rfl

theorem usesIssuedSchedule_of_not_found (h : g.loans.find? id = none) :
    g.usesIssuedSchedule s id = .error (.loanNotFound id) := by
  rw [usesIssuedSchedule, profile, Ledger.loan, h]
  rfl

theorem Issued.of_loans (hg : g.Issued) (h : g'.loans = g.loans) : g'.Issued :=
  fun id loan hloan => hg id loan (h ▸ hloan)

/-- Marking loans with the schedule that they follow. -/
private theorem mapM_marks {ids : List LoanId} {marked : List (LoanId × Bool)}
    (h : ids.mapM (fun id => (g.usesIssuedSchedule s id).map fun issued => (id, issued)) =
      .ok marked) :
    marked.map Prod.fst = ids ∧ ∀ m ∈ marked, g.usesIssuedSchedule s m.1 = .ok m.2 := by
  have hmarks : List.Forall₂ (fun id m => id = m.1 ∧ g.usesIssuedSchedule s m.1 = .ok m.2)
      ids marked := by
    refine (mapM_eq_ok_iff.mp h).imp fun id m hm => ?_
    obtain ⟨issued, hissued, rfl⟩ := map_eq_ok.mp hm
    exact ⟨rfl, hissued⟩
  refine ⟨?_, fun m hm => ?_⟩
  · have hids := map_eq_of_forall₂ (f := fun id => id) (g := Prod.fst) hmarks fun id m hm => hm.1
    rw [← hids, List.map_id']
  · obtain ⟨id, -, hid⟩ := exists_mem_of_forall₂ (R := fun m id => id = m.1 ∧
      g.usesIssuedSchedule s m.1 = .ok m.2) hmarks.flip hm
    exact hid.2

/-- The loans marked as following their live schedules. -/
private def livesOf (marked : List (LoanId × Bool)) : List LoanId :=
  (marked.filter fun m => !m.2).map (·.1)

/-- The loans marked as following their issued schedules. -/
private def issuedOf (marked : List (LoanId × Bool)) : List LoanId :=
  (marked.filter fun m => m.2).map (·.1)

/-- Known loans are marked, each once and with the schedule that it follows. -/
private theorem exists_marks (s : Settings) (today : Date) {ids : List LoanId}
    (hknown : ∀ id ∈ ids, ∃ loan, g.loans.find? id = some loan) : ∃ marked,
      ids.mapM (fun id => (g.usesIssuedSchedule s id).map fun issued => (id, issued)) =
        .ok marked ∧
      (livesOf marked ++ issuedOf marked).Perm ids ∧
      (∀ id ∈ livesOf marked, ∃ loan, g.loans.find? id = some loan ∧
        loan.overdue s today false = loan.overdueLive today) ∧
      ∀ id ∈ issuedOf marked, ∃ loan, g.loans.find? id = some loan ∧
        loan.overdue s today false = loan.overdueIssued s today := by
  obtain ⟨marked, hmarked⟩ : ∃ marked, ids.mapM (fun id =>
      (g.usesIssuedSchedule s id).map fun issued => (id, issued)) = .ok marked := by
    refine exists_mapM fun id hid => ?_
    obtain ⟨loan, hloan⟩ := hknown id hid
    rw [usesIssuedSchedule_of_find? hloan]
    exact ⟨_, rfl⟩
  obtain ⟨hids, hmarks⟩ := mapM_marks hmarked
  have hmark : ∀ m ∈ marked, ∃ loan, g.loans.find? m.1 = some loan ∧
      loan.overdue s today false =
        if m.2 then loan.overdueIssued s today else loan.overdueLive today := by
    intro m hm
    obtain ⟨loan, hloan⟩ := hknown m.1 (hids ▸ List.mem_map_of_mem hm)
    have hmark := hmarks m hm
    rw [usesIssuedSchedule_of_find? hloan] at hmark
    refine ⟨loan, hloan, ?_⟩
    rw [Loan.overdue, if_neg Bool.false_ne_true, Except.ok.inj hmark]
  refine ⟨marked, hmarked, ?_, fun id hid => ?_, fun id hid => ?_⟩
  · rw [livesOf, issuedOf, ← List.map_append, ← hids]
    exact (List.perm_append_comm.trans (List.filter_append_perm _ marked)).map _
  · obtain ⟨m, hm, rfl⟩ := List.mem_map.mp hid
    obtain ⟨hmem, hlive⟩ := List.mem_filter.mp hm
    obtain ⟨loan, hloan, hoverdue⟩ := hmark m hmem
    exact ⟨loan, hloan, hoverdue.trans (if_neg (by simpa using hlive))⟩
  · obtain ⟨m, hm, rfl⟩ := List.mem_map.mp hid
    obtain ⟨hmem, hissued⟩ := List.mem_filter.mp hm
    obtain ⟨loan, hloan, hoverdue⟩ := hmark m hmem
    exact ⟨loan, hloan, hoverdue.trans (if_pos hissued)⟩

/-- Known loans are brought up to date, in some order, each by the schedule that it follows. -/
theorem updateArrears_refreshing (hg : g.Issued) {ids : List LoanId} (hn : ids.Nodup)
    (hknown : ∀ id ∈ ids, ∃ loan, g.loans.find? id = some loan) :
    ∃ order : List LoanId, order.Perm ids ∧
      g.Refreshing s today false order (g.updateArrears s today ids) := by
  obtain ⟨marked, hmarked, hperm, hlives, hissued⟩ := exists_marks s today hknown
  obtain ⟨hnLives, hnIssued, hdisjoint⟩ := List.nodup_append'.mp (hperm.nodup_iff.mpr hn)
  refine ⟨livesOf marked ++ issuedOf marked, hperm, ?_⟩
  have hfirst : g.Refreshing s today false (livesOf marked)
      (g.updateLives today (livesOf marked)) := by
    refine updateLives_refreshing hnLives fun id hid => ?_
    obtain ⟨loan, hloan, hlive⟩ := hlives id hid
    exact ⟨loan, hloan, (hg id loan hloan).id_eq, hlive⟩
  rw [updateArrears, hmarked]
  change g.Refreshing s today false _ (match g.updateLives today (livesOf marked) with
    | (g, .error f) => (g, .error f)
    | (g, .ok changes) => if (issuedOf marked).isEmpty then _ else _)
  rcases hfirst with ⟨g₁, f, hupdate⟩ | ⟨g₁, changes, hupdate, hstep⟩
  · rw [hupdate]
    exact .inl ⟨g₁, f, rfl⟩
  rw [hupdate]
  dsimp only
  split
  · next hnone =>
    rw [List.isEmpty_iff.mp hnone, List.append_nil]
    exact .inr ⟨g₁, changes, rfl, hstep⟩
  · have hlater : g₁.Refreshing s today false (issuedOf marked)
        (g₁.updateIssued s today (issuedOf marked)) := by
      refine updateIssued_refreshing (hg.of_loans hstep.loans) hnIssued fun id hid => ?_
      rw [hstep.loans]
      exact hissued id hid
    change g.Refreshing s today false _ (match g₁.updateIssued s today (issuedOf marked) with
      | (g, .error f) => (g, .error f)
      | (g, .ok more) => (g, .ok (changes ++ more)))
    rcases hlater with ⟨g₂, f, hupdate⟩ | ⟨g₂, more, hupdate, hrest⟩
    · rw [hupdate]
      exact .inl ⟨g₂, f, rfl⟩
    · rw [hupdate]
      exact .inr ⟨g₂, changes ++ more, rfl, hstep.append hrest hdisjoint⟩

/-- With an unknown loan among those asked for nothing is done; the first of them is named. -/
theorem updateArrears_of_unknown {ids : List LoanId}
    (h : ids.find? (fun id => !g.loans.contains id) = some id) :
    g.updateArrears s today ids = (g, refuse (.loanNotFound id)) := by
  have hmarks : ids.mapM (fun id => (g.usesIssuedSchedule s id).map fun issued => (id, issued)) =
      .error (.loanNotFound id) := by
    induction ids with
    | nil => cases h
    | cons k ids ih =>
      rw [List.mapM_cons]
      rw [List.find?_cons, Table.contains] at h
      cases hk : g.loans.find? k with
      | none =>
        rw [hk] at h
        obtain rfl : k = id := Option.some.inj h
        rw [usesIssuedSchedule_of_not_found hk]
        rfl
      | some loan =>
        rw [hk] at h
        rw [usesIssuedSchedule_of_find? hk, ih h]
        rfl
  rw [updateArrears, hmarks]

/-! After an activity on a loan. -/

variable {a : Activity}

/-- A change of one loan, as a list. -/
def single (x : Ledger × Except Failure ArrearsChange) :
    Ledger × Except Failure (List ArrearsChange) :=
  (x.1, x.2.map fun change => [change])

private theorem updateLive_refreshing (hg : g.Issued) (hloan : g.loans.find? id = some loan)
    (hlive : loan.overdue s today live = loan.overdueLive today) :
    g.Refreshing s today live [id] (single (g.updateLive id today)) := by
  have hsingle : g.updateLives today [id] = single (g.updateLive id today) := by
    rw [updateLives]
    rcases g.updateLive id today with ⟨g', f | change⟩ <;> rfl
  rw [← hsingle]
  refine updateLives_refreshing (List.nodup_singleton _) (List.forall_mem_singleton.mpr ?_)
  exact ⟨loan, hloan, (hg _ _ hloan).id_eq, hlive⟩

/-- A known loan is brought up to date after an activity on it, by its live schedule where the
activity forces that. -/
theorem updateAfter_refreshing (hg : g.Issued) (hloan : g.loans.find? a.loanId = some loan) :
    g.Refreshing s today a.forcesLiveSchedule [a.loanId] (single (g.updateAfter s today a)) := by
  rw [updateAfter, usesIssuedSchedule_of_find? hloan]
  generalize a.forcesLiveSchedule = live
  generalize a.loanId = id at hloan ⊢
  cases live with
  | true => exact updateLive_refreshing hg hloan rfl
  | false =>
    cases hissued : loan.usesIssuedSchedule s with
    | false =>
      refine updateLive_refreshing hg hloan ?_
      rw [Loan.overdue, hissued]
      rfl
    | true =>
      have hupdate : g.Refreshing s today false [id] (g.updateIssued s today [id]) := by
        refine updateIssued_refreshing hg (List.nodup_singleton _) (List.forall_mem_singleton.mpr ?_)
        exact ⟨loan, hloan, by rw [Loan.overdue, hissued]; rfl⟩
      change g.Refreshing s today false [id] (single (match g.updateIssued s today [id] with
        | (g, .error f) => (g, .error f)
        | (g, .ok changes) => (g, .ok (changes.getLastD (.delete id)))))
      rcases hupdate with ⟨g₁, f, hread⟩ | ⟨g₁, changes, hread, hrefreshes⟩
      · rw [hread]
        exact .inl ⟨g₁, f, rfl⟩
      · rw [hread]
        refine .inr ⟨g₁, changes, ?_, hrefreshes⟩
        rw [hrefreshes.changes_eq]
        rfl

theorem updateAfter_of_unknown (h : g.loans.find? a.loanId = none) :
    g.updateAfter s today a = (g, refuse (.loanNotFound a.loanId)) := by
  rw [updateAfter, usesIssuedSchedule_of_not_found h]
  cases a.forcesLiveSchedule with
  | true =>
    change g.updateLive a.loanId today = _
    rw [updateLive, liveArrears, installments, Ledger.loan, h]
    rfl
  | false => rfl

end Ledger
end LoanLedger
