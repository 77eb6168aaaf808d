import LoanLedger.Arrears.Issued
import LoanLedger.Proofs.Arrears.Reading
import LoanLedger.Proofs.Ledger.Candidates

/-!
Grouping by loan. However the loans are mixed, every loan gets one group, in the order in which loans
are first seen, and the group holds all that is of that loan in its own order (`byLoan`). Grouping rows
one by one gives these groups, also when the place of a group is kept in an index; cutting a list into
runs gives them where what is of one loan stands together.
-/

set_option autoImplicit false
set_option relaxedAutoImplicit false

namespace LoanLedger

section ByLoan

variable {α : Type} (loanId : α → LoanId)

/-- The loans of a list, in the order in which they are first seen. -/
def loansOf (xs : List α) : List LoanId := (xs.map loanId).eraseDups

/-- A list by loan: loans in the order in which they are first seen, and what is of each in order. -/
def byLoan (xs : List α) : List (LoanId × List α) :=
  (loansOf loanId xs).map fun id => (id, xs.filter fun x => loanId x = id)

/-- What is of one loan stands together: nothing of another loan comes between. -/
def Contiguous (xs : List α) : Prop :=
  ∀ a b c, [a, b, c].Sublist xs → loanId a = loanId c → loanId b = loanId a

theorem nodup_loansOf (xs : List α) : (loansOf loanId xs).Nodup := nodup_eraseDups _

theorem mem_loansOf {xs : List α} {id : LoanId} :
    id ∈ loansOf loanId xs ↔ ∃ x ∈ xs, loanId x = id := by
  rw [loansOf, List.mem_eraseDups, List.mem_map]

@[simp] theorem keys_byLoan (xs : List α) : (byLoan loanId xs).map Prod.fst = loansOf loanId xs := by
  rw [byLoan, List.map_map]
  exact List.map_id _

/-- The loan of the first element comes first, and the others are grouped without it. -/
theorem byLoan_cons (x : α) (xs : List α) :
    byLoan loanId (x :: xs) = (loanId x, x :: xs.filter fun y => loanId y = loanId x) ::
      byLoan loanId (xs.filter fun y => !(loanId y == loanId x)) := by
  have hloans : loansOf loanId (x :: xs) =
      loanId x :: loansOf loanId (xs.filter fun y => !(loanId y == loanId x)) := by
    rw [loansOf, List.map_cons, List.eraseDups_cons, loansOf, List.filter_map]
    rfl
  rw [byLoan, hloans, List.map_cons, List.filter_cons_of_pos (by simp)]
  congr 1
  refine List.map_congr_left fun id hid => ?_
  obtain ⟨y, hy, rfl⟩ := (mem_loansOf loanId).mp hid
  have hne : loanId y ≠ loanId x := by simpa using (List.mem_filter.mp hy).2
  rw [List.filter_cons_of_neg (by simpa using hne.symm), List.filter_filter]
  congr 1
  refine List.filter_congr fun z _ => ?_
  by_cases hz : loanId z = loanId y
  · rw [hz, beq_false_of_ne hne, Bool.not_false, Bool.and_true]
  · rw [decide_eq_false hz, Bool.false_and]

/-- Nothing is lost and nothing is doubled. -/
theorem flatMap_byLoan_perm (xs : List α) : ((byLoan loanId xs).flatMap Prod.snd).Perm xs := by
  match xs with
  | [] => exact .refl _
  | x :: xs =>
    have hshorter : (xs.filter fun y => !(loanId y == loanId x)).length < (x :: xs).length :=
      Nat.lt_succ_of_le (List.length_filter_le _ _)
    have hrest := flatMap_byLoan_perm (xs.filter fun y => !(loanId y == loanId x))
    rw [byLoan_cons, List.flatMap_cons, List.cons_append]
    refine List.Perm.cons x ((hrest.append_left _).trans ?_)
    exact List.filter_append_perm (fun y => loanId y == loanId x) xs
termination_by xs.length
decreasing_by exact hshorter

theorem Contiguous.tail {x : α} {xs : List α} (h : Contiguous loanId (x :: xs)) :
    Contiguous loanId xs :=
  fun a b c hsub => h a b c (hsub.cons x)

theorem Contiguous.not_mem_loansOf {x y : α} {xs : List α} (h : Contiguous loanId (x :: y :: xs))
    (hne : loanId y ≠ loanId x) : loanId x ∉ loansOf loanId (y :: xs) := by
  intro hmem
  obtain ⟨z, hz, hzx⟩ := (mem_loansOf loanId).mp hmem
  rcases List.mem_cons.mp hz with rfl | hz
  · exact hne hzx
  · have hsub : [x, y, z].Sublist (x :: y :: xs) :=
      .cons_cons x (.cons_cons y (List.singleton_sublist.mpr hz))
    exact hne (h x y z hsub hzx.symm)

end ByLoan

/-- A row goes to the group at the place of its loan, or to a new one at the end. -/
private theorem addToGroup_eq (row : ScheduleRow) (groups : List (LoanId × List ScheduleRow)) :
    addToGroup row groups =
      match (groups.map Prod.fst).idxOf? row.loanId with
      | some i => groups.modify i fun g => (g.1, g.2 ++ [row])
      | none => groups ++ [(row.loanId, [row])] := by
  induction groups with
  | nil => rfl
  | cons g groups ih =>
    obtain ⟨id, rows⟩ := g
    rw [addToGroup, List.map_cons, List.idxOf?_cons]
    by_cases hid : id = row.loanId
    · rw [if_pos hid, if_pos (beq_iff_eq.mpr hid)]
      rfl
    · rw [if_neg hid, if_neg (by simpa using hid), ih]
      cases (groups.map Prod.fst).idxOf? row.loanId <;> rfl

private theorem keys_modify (groups : List (LoanId × List ScheduleRow)) (i : Nat)
    (row : ScheduleRow) :
    (groups.modify i fun g => (g.1, g.2 ++ [row])).map Prod.fst = groups.map Prod.fst := by
  induction groups generalizing i with
  | nil => cases i <;> rfl
  | cons g groups ih =>
    cases i with
    | zero => rfl
    | succ i =>
      rw [List.modify_succ_cons, List.map_cons, List.map_cons, ih]

/-- The loans after a row: the same as before, unless the row begins a new one. -/
private theorem keys_addToGroup (row : ScheduleRow) (groups : List (LoanId × List ScheduleRow)) :
    (addToGroup row groups).map Prod.fst =
      if row.loanId ∈ groups.map Prod.fst then groups.map Prod.fst
      else groups.map Prod.fst ++ [row.loanId] := by
  rw [addToGroup_eq]
  cases hplace : (groups.map Prod.fst).idxOf? row.loanId with
  | none =>
    rw [if_neg (List.idxOf?_eq_none_iff.mp hplace), List.map_append]
    rfl
  | some i =>
    have hmem : row.loanId ∈ groups.map Prod.fst := by
      by_contra hnot
      rw [List.idxOf?_eq_none_iff.mpr hnot] at hplace
      cases hplace
    rw [if_pos hmem]
    exact keys_modify groups i row

private theorem removeAll_singleton (a : LoanId) (l : List LoanId) :
    [a].removeAll l = if a ∈ l then [] else [a] := by
  by_cases ha : a ∈ l
  · simp [List.removeAll, ha]
  · simp [List.removeAll, ha]

private theorem keys_groupByLoan (rows : List ScheduleRow) :
    (groupByLoan rows).map Prod.fst = loansOf ScheduleRow.loanId rows := by
  induction rows using List.reverseRecOn with
  | nil => rfl
  | append_singleton rows row ih =>
    have hadd : groupByLoan (rows ++ [row]) = addToGroup row (groupByLoan rows) := by
      rw [groupByLoan, List.foldl_append]
      rfl
    rw [hadd, keys_addToGroup, ih, loansOf, loansOf, List.map_append, List.eraseDups_append,
      List.map_singleton]
    by_cases hmem : row.loanId ∈ rows.map (·.loanId)
    · rw [if_pos (List.mem_eraseDups.mpr hmem)]
      rw [removeAll_singleton, if_pos hmem, List.eraseDups_nil, List.append_nil]
    · rw [if_neg fun h => hmem (List.mem_eraseDups.mp h)]
      rw [removeAll_singleton, if_neg hmem]
      rfl

theorem groupByLoan_eq (rows : List ScheduleRow) : groupByLoan rows = byLoan ScheduleRow.loanId rows := by
  have hgrouped := grouped_groupByLoan rows
  rw [byLoan, ← keys_groupByLoan, List.map_map]
  conv_lhs => rw [← List.map_id (groupByLoan rows)]
  refine List.map_congr_left fun g hg => ?_
  exact Prod.ext rfl (hgrouped.rows_eq g hg)

/-- Where periods of one loan stand together, their runs are their groups. -/
theorem IssuedPeriod.groupRuns_eq {periods : List IssuedPeriod}
    (h : Contiguous IssuedPeriod.loanId periods) :
    groupRuns periods = byLoan IssuedPeriod.loanId periods := by
  induction periods with
  | nil => rfl
  | cons p ps ih =>
    rw [groupRuns_cons, ih (h.tail IssuedPeriod.loanId)]
    cases ps with
    | nil =>
      rw [byLoan_cons]
      rfl
    | cons q ps =>
      rw [byLoan_cons]
      dsimp only
      by_cases hloan : q.loanId = p.loanId
      · -- the run of the period that follows goes on
        rw [if_pos hloan, byLoan_cons, List.filter_cons_of_pos (by simpa using hloan),
          List.filter_cons_of_neg (by simpa using hloan), hloan]
      · rw [if_neg hloan, ← byLoan_cons, byLoan_cons IssuedPeriod.loanId p]
        have hnot := h.not_mem_loansOf IssuedPeriod.loanId hloan
        have hothers : ∀ r ∈ q :: ps, r.loanId ≠ p.loanId :=
          fun r hr heq => hnot ((mem_loansOf _).mpr ⟨r, hr, heq⟩)
        have hnone : (q :: ps).filter (fun r => r.loanId = p.loanId) = [] :=
          List.filter_eq_nil_iff.mpr fun r hr heq => hothers r hr (of_decide_eq_true heq)
        have hall : (q :: ps).filter (fun r => !(r.loanId == p.loanId)) = q :: ps :=
          List.filter_eq_self.mpr fun r hr => by simpa using hothers r hr
        rw [hnone, hall]

/-- Groups with an index: the place of the group of every loan. -/
structure GroupIndex where
  places : Table Nat
  groups : List (LoanId × List ScheduleRow)

namespace GroupIndex

def empty : GroupIndex := ⟨.empty, []⟩

/-- Add a row to the group at the place of its loan, which is opened at the end when there is none. -/
def add (x : GroupIndex) (row : ScheduleRow) : GroupIndex :=
  match x.places.find? row.loanId with
  | some i => { x with groups := x.groups.modify i fun g => (g.1, g.2 ++ [row]) }
  | none => ⟨x.places.insert row.loanId x.groups.length, x.groups ++ [(row.loanId, [row])]⟩

/-- Rows grouped through an index. -/
def ofRows (rows : List ScheduleRow) : GroupIndex := rows.foldl add empty

/-- The index has the place of every group. -/
def Indexed (x : GroupIndex) : Prop :=
  ∀ id, x.places.find? id = (x.groups.map Prod.fst).idxOf? id

theorem groups_add {x : GroupIndex} (h : x.Indexed) (row : ScheduleRow) :
    (x.add row).groups = addToGroup row x.groups := by
  rw [add, addToGroup_eq, h row.loanId]
  cases (x.groups.map Prod.fst).idxOf? row.loanId <;> rfl

private theorem idxOf?_concat (l : List LoanId) (a id : LoanId) (ha : l.idxOf? a = none) :
    (l ++ [a]).idxOf? id = if id = a then some l.length else l.idxOf? id := by
  induction l with
  | nil =>
    by_cases hid : id = a
    · simp [List.idxOf?_cons, hid]
    · simp [List.idxOf?_cons, hid, Ne.symm hid]
  | cons b l ih =>
    have hb : b ≠ a := by
      rintro rfl
      simp [List.idxOf?_cons] at ha
    have hl : l.idxOf? a = none := by simpa [List.idxOf?_cons, hb] using ha
    rw [List.cons_append, List.idxOf?_cons, List.idxOf?_cons, ih hl]
    by_cases hid : b = id
    · rw [if_pos (beq_iff_eq.mpr hid), if_pos (beq_iff_eq.mpr hid), if_neg (hid ▸ hb)]
    · have hbeq : ¬(b == id) = true := by simpa using hid
      rw [if_neg hbeq, if_neg hbeq]
      split <;> rfl

theorem Indexed.add {x : GroupIndex} (h : x.Indexed) (row : ScheduleRow) : (x.add row).Indexed := by
  intro id
  have hplace := h row.loanId
  rw [GroupIndex.add]
  cases hfound : x.places.find? row.loanId with
  | some i =>
    dsimp only
    rw [keys_modify, h id]
  | none =>
    rw [hfound] at hplace
    dsimp only
    rw [List.map_append, List.map_singleton, idxOf?_concat _ _ _ hplace.symm, List.length_map]
    by_cases hid : id = row.loanId
    · rw [hid, Table.find?_insert_self, if_pos rfl]
    · rw [Table.find?_insert_of_ne _ hid, if_neg hid, h id]

/-- Through the index every row comes to the group of its loan. -/
theorem groups_ofRows (rows : List ScheduleRow) : (ofRows rows).groups = groupByLoan rows := by
  have hfold : ∀ x : GroupIndex, x.Indexed → (rows.foldl GroupIndex.add x).groups =
      rows.foldl (fun groups row => addToGroup row groups) x.groups := by
    induction rows with
    | nil => exact fun _ _ => rfl
    | cons row rows ih =>
      intro x hx
      rw [List.foldl_cons, List.foldl_cons, ih _ (hx.add row), groups_add hx]
  exact hfold empty fun _ => rfl

end GroupIndex
end LoanLedger
