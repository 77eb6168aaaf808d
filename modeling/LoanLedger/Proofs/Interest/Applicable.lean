import LoanLedger.Interest
import LoanLedger.Proofs.Lists
import LoanLedger.Proofs.Range

/-!
The waivers that count for a row. By an earlier date fewer of them count, and those come first.
-/

set_option autoImplicit false
set_option relaxedAutoImplicit false

namespace LoanLedger

namespace ReconciledInterest

/-! The waivers that count by an earlier date come first among those that count by a later one. -/

private def earlier (a b : InterestWaiver) : Bool := a.date ≤ b.date

private theorem earlier_trans (a b c : InterestWaiver) (hab : earlier a b = true)
    (hbc : earlier b c = true) : earlier a c = true :=
  decide_eq_true (Date.le_trans (of_decide_eq_true hab) (of_decide_eq_true hbc))

private theorem earlier_total (a b : InterestWaiver) : (earlier a b || earlier b a) = true := by
  rw [Bool.or_eq_true]
  rcases Date.le_total a.date b.date with h | h
  · exact .inl (decide_eq_true h)
  · exact .inr (decide_eq_true h)

private theorem filter_isPrefix {p : InterestWaiver → Bool} {l : List InterestWaiver}
    (hl : l.Pairwise fun a b => earlier a b = true)
    (hp : ∀ a b, earlier a b = true → p b = true → p a = true) : l.filter p <+: l := by
  induction l with
  | nil => exact List.prefix_rfl
  | cons a l ih =>
    obtain ⟨ha, hl⟩ := List.pairwise_cons.mp hl
    by_cases hpa : p a = true
    · rw [List.filter_cons_of_pos hpa]
      exact List.prefix_cons_inj a |>.mpr (ih hl)
    · have hnil : (a :: l).filter p = [] := by
        apply List.filter_eq_nil_iff.mpr
        intro b hb hpb
        rcases List.mem_cons.mp hb with rfl | hb
        · exact hpa hpb
        · exact hpa (hp a b (ha b hb) hpb)
      rw [hnil]
      exact List.nil_prefix

/-- Fewer waivers count by an earlier date, and they are the first of those that count later. -/
theorem applicable_isPrefix {row : ScheduleRow} {till till' : Date} (h : till ≤ till')
    (ws : List InterestWaiver) : applicable row till ws <+: applicable row till' ws := by
  obtain ⟨p, hp⟩ : ∃ p : InterestWaiver → Bool,
      p = fun w => decide (w.date ≤ row.fromDate) || decide (w.date ≤ till) := ⟨_, rfl⟩
  have hfilter : ws.filter (counts row till) = (ws.filter (counts row till')).filter p := by
    rw [List.filter_filter]
    apply List.filter_congr
    intro w _
    rw [hp]
    simp only [counts]
    have htill : w.date ≤ till → w.date ≤ till' := fun hw => Date.le_trans hw h
    by_cases h₁ : w.date ≤ row.fromDate <;> by_cases h₂ : w.date ≤ till <;>
      simp [h₁, h₂, htill]
  have happlicable : applicable row till ws = (applicable row till' ws).filter p := by
    show (ws.filter (counts row till)).mergeSort earlier = _
    rw [hfilter, ← filter_mergeSort earlier_trans earlier_total]
    rfl
  rw [happlicable]
  apply filter_isPrefix (List.pairwise_mergeSort earlier_trans earlier_total _)
  intro a b hab hb
  rw [hp] at hb ⊢
  have hab : a.date ≤ b.date := of_decide_eq_true hab
  rw [Bool.or_eq_true, decide_eq_true_eq, decide_eq_true_eq] at hb ⊢
  rcases hb with hb | hb
  · exact .inl (Date.le_trans hab hb)
  · exact .inr (Date.le_trans hab hb)

theorem applicable_subperm (row : ScheduleRow) (till : Date) (ws : List InterestWaiver) :
    (applicable row till ws).Subperm ws :=
  ⟨_, (List.mergeSort_perm _ _).symm, List.filter_sublist⟩

/-- Waivers of different dates count alike in whatever order they are given. -/
theorem applicable_perm {row : ScheduleRow} {till : Date} {ws ws' : List InterestWaiver}
    (h : ws'.Perm ws) (hdates : (ws.map (·.date)).Nodup) :
    applicable row till ws' = applicable row till ws := by
  refine List.Perm.eq_of_pairwise (fun a b ha hb hab hba => ?_)
    (List.pairwise_mergeSort earlier_trans earlier_total _)
    (List.pairwise_mergeSort earlier_trans earlier_total _)
    ((List.mergeSort_perm _ _).trans ((h.filter _).trans (List.mergeSort_perm _ _).symm))
  have ha : a ∈ ws := h.subset ((applicable_subperm row till ws').subset ha)
  have hb : b ∈ ws := (applicable_subperm row till ws).subset hb
  exact List.inj_on_of_nodup_map hdates ha hb
    (Date.ext_day (Int.le_antisymm (of_decide_eq_true hab) (of_decide_eq_true hba)))

/-- Once the due date is reached, no later date lets another waiver count. -/
theorem applicable_of_dueDate_le {row : ScheduleRow} {till : Date} (h : row.dueDate ≤ till)
    (ws : List InterestWaiver) : applicable row till ws = applicable row row.dueDate ws := by
  simp only [applicable]
  congr 1
  apply List.filter_congr
  intro w _
  simp only [counts]
  have htill : w.date ≤ row.dueDate → w.date ≤ till := fun hw => Date.le_trans hw h
  by_cases hw : w.date ≤ row.dueDate
  · simp [hw, htill hw]
  · simp [hw]

end ReconciledInterest
end LoanLedger
