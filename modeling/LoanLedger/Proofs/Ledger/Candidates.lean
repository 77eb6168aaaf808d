import LoanLedger.Ledger.Run
import LoanLedger.Proofs.Lists

/-!
The rows that a run reads. Where loans are filed under their numbers, the group of a loan consists of
the candidate rows of that loan, and every loan has one group at most.
-/

set_option autoImplicit false
set_option relaxedAutoImplicit false

namespace LoanLedger

/-- A loan under its own number, with schedule rows that carry the number. -/
structure Loan.Filed (id : LoanId) (loan : Loan) : Prop where
  id_eq : loan.id = id
  rows : ∀ row ∈ loan.schedule, row.loanId = id

/-- A ledger of loans filed under their numbers. -/
def Ledger.Filed (g : Ledger) : Prop :=
  ∀ id loan, g.loans.find? id = some loan → loan.Filed id

/-- A ledger of loans under their own numbers, which is how it takes them. -/
def Ledger.Keyed (g : Ledger) : Prop := ∀ id loan, g.loans.find? id = some loan → loan.id = id

/-- A loan under its own number, with schedule rows that carry the number and differ in theirs. -/
structure Loan.Sound (id : LoanId) (loan : Loan) : Prop where
  id_eq : loan.id = id
  rows : ∀ row ∈ loan.schedule, row.loanId = id
  rowIds : (loan.schedule.map (·.rowId)).Nodup

/-- A ledger of sound loans. -/
def Ledger.Sound (g : Ledger) : Prop :=
  ∀ id loan, g.loans.find? id = some loan → loan.Sound id

theorem Loan.Sound.filed {id : LoanId} {loan : Loan} (h : loan.Sound id) : loan.Filed id :=
  ⟨h.id_eq, h.rows⟩

theorem Ledger.Sound.filed {g : Ledger} (h : g.Sound) : g.Filed :=
  fun id loan hloan => (h id loan hloan).filed

namespace Ledger

variable {g : Ledger} {mode : RunMode} {today : Date} {id : LoanId} {loan : Loan}

theorem loan_of_find? (h : g.loans.find? id = some loan) : g.loan id = .ok loan := by
  rw [Ledger.loan, h]

theorem mem_candidatesOf {row : ScheduleRow} (h : row ∈ candidatesOf mode today loan) :
    loan.status.isActive = true ∧ ∃ stored ∈ loan.schedule, isCandidate mode today stored = true ∧
      row = { stored with accruedTill := loan.accruedTill } := by
  simp only [candidatesOf] at h
  split at h
  · next hactive =>
    obtain ⟨stored, hstored, rfl⟩ := List.mem_map.mp h
    exact ⟨hactive, stored, List.mem_of_mem_filter hstored, (List.mem_filter.mp hstored).2, rfl⟩
  · cases h

private theorem filter_values {es : List (LoanId × Loan)}
    (hes : es.Pairwise fun a b => a.1 < b.1) (hid : ∀ e ∈ es, e.2.id = e.1) :
    (es.map (·.2)).filter (fun loan => id == loan.id) = (es.lookup id).toList := by
  induction es with
  | nil => rfl
  | cons e es ih =>
    obtain ⟨k, loan⟩ := e
    obtain ⟨hk, hes⟩ := List.pairwise_cons.mp hes
    obtain ⟨hloan, hrest⟩ := List.forall_mem_cons.mp hid
    dsimp only at hk hloan
    have ih := ih hes hrest
    rw [List.map_cons]
    by_cases heq : id = k
    · have hnone : (es.map (·.2)).filter (fun loan => id == loan.id) = [] := by
        apply List.filter_eq_nil_iff.mpr
        intro l hl hlid
        obtain ⟨e, he, rfl⟩ := List.mem_map.mp hl
        rw [hrest e he, beq_iff_eq, heq] at hlid
        exact Int64.lt_irrefl (hlid ▸ hk e he)
      rw [List.filter_cons_of_pos (by rw [hloan, heq, beq_self_eq_true]), hnone, heq,
        List.lookup_cons_self]
      rfl
    · rw [List.filter_cons_of_neg (by rw [hloan, beq_iff_eq]; exact heq), ih, List.lookup_cons,
        beq_false_of_ne heq]

private theorem mem_entries {α : Type} {es : List (LoanId × α)}
    (hes : es.Pairwise fun a b => a.1 < b.1) {e : LoanId × α} (he : e ∈ es) :
    es.lookup e.1 = some e.2 := by
  induction es with
  | nil => cases he
  | cons d es ih =>
    obtain ⟨hd, hes⟩ := List.pairwise_cons.mp hes
    rcases List.mem_cons.mp he with rfl | he
    · exact List.lookup_cons_self
    · rw [List.lookup_cons, beq_false_of_ne]
      · exact ih hes he
      · exact Ne.symm (Int64.ne_of_lt (hd e he))

/-- Among what is read from all loans that pass a test, what carries the number of one loan was read
from that loan. -/
theorem filter_flatMap_values {α : Type} {f : Loan → List α} {key : α → LoanId} {p : Loan → Bool}
    (hf : ∀ id loan, g.loans.find? id = some loan →
      loan.id = id ∧ (p loan = true → ∀ x ∈ f loan, key x = id)) :
    ((g.loans.values.filter p).flatMap f).filter (fun x => key x = id) =
      ((g.loans.find? id).toList.filter p).flatMap f := by
  have hentry : ∀ e ∈ g.loans.entries,
      e.2.id = e.1 ∧ (p e.2 = true → ∀ x ∈ f e.2, key x = e.1) :=
    fun e he => hf e.1 e.2 (mem_entries g.loans.ascending he)
  rw [Table.find?, ← filter_values g.loans.ascending fun e he => (hentry e he).1, List.filter_comm,
    List.filter_flatMap]
  have hkey : ∀ loan ∈ g.loans.values.filter p, ∀ x ∈ f loan, key x = loan.id := by
    intro loan hloan x hx
    obtain ⟨hvalue, hpasses⟩ := List.mem_filter.mp hloan
    obtain ⟨e, he, rfl⟩ := List.mem_map.mp hvalue
    exact ((hentry e he).2 hpasses x hx).trans (hentry e he).1.symm
  change _ = ((g.loans.values.filter p).filter _).flatMap f
  generalize g.loans.values.filter p = loans at hkey
  induction loans with
  | nil => rfl
  | cons loan loans ih =>
    obtain ⟨hloan, hrest⟩ := List.forall_mem_cons.mp hkey
    rw [List.flatMap_cons, ih hrest]
    by_cases heq : id = loan.id
    · rw [List.filter_cons_of_pos (by rw [heq, beq_self_eq_true]), List.flatMap_cons]
      congr 1
      exact List.filter_eq_self.mpr fun x hx => decide_eq_true ((hloan x hx).trans heq.symm)
    · rw [List.filter_cons_of_neg (by rw [beq_iff_eq]; exact heq)]
      have hnone : (f loan).filter (fun x => key x = id) = [] :=
        List.filter_eq_nil_iff.mpr fun x hx hid =>
          heq ((of_decide_eq_true hid).symm.trans (hloan x hx))
      rw [hnone, List.nil_append]

theorem keyed_empty : Ledger.empty.Keyed := fun _ _ h => nomatch h

theorem Keyed.putLoan (h : g.Keyed) (loan : Loan) : (g.putLoan loan).Keyed := by
  intro id found hfound
  by_cases hid : id = loan.id
  · subst hid
    obtain rfl := Option.some.inj ((Table.find?_insert_self _ _ _).symm.trans hfound)
    rfl
  · exact h id found ((Table.find?_insert_of_ne _ hid _).symm.trans hfound)

theorem Keyed.candidates (h : g.Keyed) : g.candidates (some id) mode today =
    (g.loans.find? id).toList.flatMap (candidatesOf mode today) := by
  simp only [Ledger.candidates, Table.values, Table.find?]
  rw [← filter_values g.loans.ascending]
  intro e he
  exact h e.1 e.2 (mem_entries g.loans.ascending he)

theorem candidates_some (hg : g.Filed) : g.candidates (some id) mode today =
    (g.loans.find? id).toList.flatMap (candidatesOf mode today) :=
  Keyed.candidates fun id loan hloan => (hg id loan hloan).id_eq

/-- Among all candidates, those of one loan are the ones read for it alone. -/
theorem filter_candidates (hg : g.Filed) :
    (g.candidates none mode today).filter (fun row => row.loanId = id) =
      (g.loans.find? id).toList.flatMap (candidatesOf mode today) := by
  have hf : ∀ id loan, g.loans.find? id = some loan →
      loan.id = id ∧ ∀ row ∈ candidatesOf mode today loan, row.loanId = id := by
    intro id loan hloan
    refine ⟨(hg id loan hloan).id_eq, fun row hrow => ?_⟩
    obtain ⟨-, stored, hstored, -, rfl⟩ := mem_candidatesOf hrow
    exact (hg id loan hloan).rows stored hstored
  simp only [candidates]
  rw [filter_flatMap_values fun id loan hloan => (hf id loan hloan).imp_right fun h _ => h,
    List.filter_true]

end Ledger

/-- A candidate row was read from the loan whose number it carries. -/
theorem Ledger.mem_candidates {g : Ledger} (hg : g.Filed) {only : Option LoanId} {mode : RunMode}
    {today : Date} {row : ScheduleRow} (h : row ∈ g.candidates only mode today) :
    ∃ loan, g.loans.find? row.loanId = some loan ∧ row ∈ candidatesOf mode today loan := by
  have hfrom : ∀ {id}, row ∈ (g.loans.find? id).toList.flatMap (candidatesOf mode today) →
      ∃ loan, g.loans.find? id = some loan ∧ row ∈ candidatesOf mode today loan := by
    intro id hrow
    obtain ⟨loan, hloan, hrow⟩ := List.mem_flatMap.mp hrow
    exact ⟨loan, Option.mem_toList.mp hloan, hrow⟩
  cases only with
  | none =>
    apply hfrom
    rw [← filter_candidates hg]
    exact List.mem_filter.mpr ⟨h, decide_eq_true rfl⟩
  | some id =>
    rw [candidates_some hg] at h
    obtain ⟨loan, hloan, hrow⟩ := hfrom h
    obtain ⟨-, stored, hstored, -, heq⟩ := mem_candidatesOf hrow
    have hid : row.loanId = id := by
      rw [heq]
      exact (hg id loan hloan).rows stored hstored
    exact ⟨loan, hid ▸ hloan, hrow⟩

/-- Groups of rows: one for each loan that has rows, with all the rows of that loan in their order. -/
structure Grouped (rows : List ScheduleRow) (groups : List (LoanId × List ScheduleRow)) : Prop where
  nodup : (groups.map Prod.fst).Nodup
  rows_eq : ∀ g ∈ groups, g.2 = rows.filter fun row => row.loanId = g.1
  mem_keys : ∀ id, id ∈ groups.map Prod.fst ↔ id ∈ rows.map (·.loanId)

private theorem mem_keys_addToGroup {row : ScheduleRow} {groups : List (LoanId × List ScheduleRow)}
    {id : LoanId} : id ∈ (addToGroup row groups).map Prod.fst ↔
      id = row.loanId ∨ id ∈ groups.map Prod.fst := by
  induction groups with
  | nil => simp [addToGroup]
  | cons g groups ih =>
    obtain ⟨k, rows⟩ := g
    unfold addToGroup
    split
    · next heq => simp [heq]
    · rw [List.map_cons, List.mem_cons, ih, List.map_cons, List.mem_cons]
      tauto

private theorem nodup_addToGroup {row : ScheduleRow} {groups : List (LoanId × List ScheduleRow)}
    (h : (groups.map Prod.fst).Nodup) : ((addToGroup row groups).map Prod.fst).Nodup := by
  induction groups with
  | nil => simp [addToGroup]
  | cons g groups ih =>
    obtain ⟨k, rows⟩ := g
    obtain ⟨hk, hrest⟩ := List.nodup_cons.mp h
    unfold addToGroup
    split
    · exact h
    · next hne =>
      refine List.nodup_cons.mpr ⟨fun hmem => ?_, ih hrest⟩
      rcases mem_keys_addToGroup.mp hmem with heq | hmem
      · exact hne heq
      · exact hk hmem

private theorem mem_addToGroup {row : ScheduleRow} {groups : List (LoanId × List ScheduleRow)}
    (hn : (groups.map Prod.fst).Nodup) {g : LoanId × List ScheduleRow}
    (hg : g ∈ addToGroup row groups) :
    (g ∈ groups ∧ g.1 ≠ row.loanId) ∨ (∃ rows, (row.loanId, rows) ∈ groups ∧
      g = (row.loanId, rows ++ [row])) ∨
    (row.loanId ∉ groups.map Prod.fst ∧ g = (row.loanId, [row])) := by
  induction groups with
  | nil =>
    rw [addToGroup, List.mem_singleton] at hg
    exact .inr (.inr ⟨List.not_mem_nil, hg⟩)
  | cons d groups ih =>
    obtain ⟨k, rows⟩ := d
    obtain ⟨hk, hrest⟩ := List.nodup_cons.mp hn
    unfold addToGroup at hg
    split at hg
    · next heq =>
      rcases List.mem_cons.mp hg with rfl | hg
      · exact .inr (.inl ⟨rows, heq ▸ List.mem_cons_self, by rw [heq]⟩)
      · refine .inl ⟨List.mem_cons_of_mem _ hg, fun hid => hk ?_⟩
        dsimp only
        rw [heq, ← hid]
        exact List.mem_map_of_mem hg
    · next hne =>
      rcases List.mem_cons.mp hg with rfl | hg
      · exact .inl ⟨List.mem_cons_self, hne⟩
      · rcases ih hrest hg with ⟨hmem, hid⟩ | ⟨rows', hmem, heq⟩ | ⟨hnot, heq⟩
        · exact .inl ⟨List.mem_cons_of_mem _ hmem, hid⟩
        · exact .inr (.inl ⟨rows', List.mem_cons_of_mem _ hmem, heq⟩)
        · refine .inr (.inr ⟨fun hmem => ?_, heq⟩)
          rcases List.mem_cons.mp hmem with h | h
          · exact hne h.symm
          · exact hnot h

private theorem Grouped.add {rows : List ScheduleRow} {groups : List (LoanId × List ScheduleRow)}
    (h : Grouped rows groups) (row : ScheduleRow) :
    Grouped (rows ++ [row]) (addToGroup row groups) where
  nodup := nodup_addToGroup h.nodup
  rows_eq g hg := by
    rw [List.filter_append]
    rcases mem_addToGroup h.nodup hg with ⟨hmem, hid⟩ | ⟨rows', hmem, rfl⟩ | ⟨hnot, rfl⟩
    · rw [h.rows_eq g hmem, List.filter_cons_of_neg (by simpa using hid.symm), List.filter_nil,
        List.append_nil]
    · have hrows : rows' = _ := h.rows_eq _ hmem
      rw [List.filter_cons_of_pos (by simp), List.filter_nil]
      exact congrArg (· ++ [row]) hrows
    · have hnone : rows.filter (fun r => r.loanId = row.loanId) = [] := by
        apply List.filter_eq_nil_iff.mpr
        intro r hr hid
        apply hnot
        rw [← of_decide_eq_true hid]
        exact (h.mem_keys _).mpr (List.mem_map_of_mem hr)
      rw [hnone, List.filter_cons_of_pos (by simp), List.filter_nil, List.nil_append]
  mem_keys id := by
    rw [mem_keys_addToGroup, h.mem_keys, List.map_append, List.mem_append, List.map_singleton,
      List.mem_singleton, or_comm]

private theorem Grouped.foldl {rows more : List ScheduleRow}
    {groups : List (LoanId × List ScheduleRow)} (h : Grouped rows groups) :
    Grouped (rows ++ more) (more.foldl (fun groups row => addToGroup row groups) groups) := by
  induction more generalizing rows groups with
  | nil => exact (List.append_nil rows).symm ▸ h
  | cons row more ih =>
    have hstep := ih (h.add row)
    rw [List.append_assoc, List.singleton_append] at hstep
    exact hstep

theorem grouped_groupByLoan (rows : List ScheduleRow) : Grouped rows (groupByLoan rows) := by
  have hnil : Grouped [] [] :=
    ⟨List.nodup_nil, fun _ h => (nomatch h), fun _ => Iff.rfl⟩
  exact hnil.foldl

/-- In the groups of a run, the rows of a loan are its candidate rows as they are stored. -/
theorem rows_of_mem_groupByLoan {g : Ledger} (hg : g.Filed) {mode : RunMode} {today : Date}
    {group : LoanId × List ScheduleRow}
    (h : group ∈ groupByLoan (g.candidates none mode today)) :
    group.2 = (g.loans.find? group.1).toList.flatMap (Ledger.candidatesOf mode today) :=
  ((grouped_groupByLoan _).rows_eq group h).trans (Ledger.filter_candidates hg)

end LoanLedger
