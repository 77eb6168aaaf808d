import LoanLedger.Proofs.Charge.Attribution
import LoanLedger.Proofs.Column

/-!
Charges on a schedule without gaps. The rows divide the charges among themselves, so that what
accrues in a window of one row is nothing to the others, and what has accrued by a date lies in
every window that reaches the date.
-/

set_option autoImplicit false
set_option relaxedAutoImplicit false

namespace LoanLedger

namespace ScheduleRow

/-- Rows of different installments that no charge with a due date can belong to at once. -/
structure Apart (row row' : ScheduleRow) : Prop where
  installment : row.installment ≠ row'.installment
  selected : ∀ (policy : ChargePolicy) (c : Charge) (due : Date),
    ¬(c.selected policy due row row.period = true ∧ c.selected policy due row' row'.period = true)

theorem Apart.symm {row row' : ScheduleRow} (h : row.Apart row') : row'.Apart row :=
  ⟨h.installment.symm, fun policy c due hboth => h.selected policy c due hboth.symm⟩

/-- Rows that follow each other without gaps. -/
structure Consecutive (rows : List ScheduleRow) : Prop where
  follows : rows.IsChain fun row next => next.fromDate = row.dueDate
  forward : ∀ row ∈ rows, row.fromDate ≤ row.dueDate

/-- Rows that follow each other without gaps, of which no other than the first is installment 1. -/
structure GapFree (rows : List ScheduleRow) : Prop where
  follows : rows.IsChain fun row next => next.fromDate = row.dueDate
  forward : ∀ row ∈ rows, row.fromDate ≤ row.dueDate
  first : ∀ row ∈ rows.tail, row.installment ≠ 1
  installments : (rows.map (·.installment)).Nodup

/-- A charge of a row is due by its end, and after its start unless the row is the first. -/
theorem due_of_selected {policy : ChargePolicy} {c : Charge} {due : Date} {row : ScheduleRow}
    (h : c.selected policy due row row.period = true) :
    due ≤ row.dueDate ∧ (row.fromDate < due ∨ row.installment = 1) := by
  have h : c.selected policy due row ⟨row.fromDate, row.dueDate⟩ = true := h
  cases policy with
  | dueDate =>
    simp only [Charge.selected, Charge.dueWithin, Bool.and_eq_true, Bool.or_eq_true,
      decide_eq_true_eq] at h
    exact ⟨h.2, h.1.symm.imp_right And.left⟩
  | submittedDate =>
    simp only [Charge.selected, Charge.submittedWithin, Bool.and_eq_true, Bool.or_eq_true,
      decide_eq_true_eq] at h
    exact ⟨h.2, h.1.1.symm.imp_right fun hfirst => hfirst.1.1⟩

/-- Of consecutive rows, each ends before the later ones start. -/
theorem Consecutive.ends_before {rows : List ScheduleRow} (h : Consecutive rows) :
    rows.Pairwise fun row later => row.dueDate ≤ later.fromDate := by
  induction rows with
  | nil => exact .nil
  | cons row rows ih =>
    obtain ⟨-, hforward⟩ := List.forall_mem_cons.mp h.forward
    have hrest := ih ⟨h.follows.tail, hforward⟩
    refine List.pairwise_cons.mpr ⟨?_, hrest⟩
    cases rows with
    | nil => exact fun _ h => nomatch h
    | cons next rows =>
      have hnext : next.fromDate = row.dueDate := (List.isChain_cons_cons.mp h.follows).1
      intro later hlater
      rcases List.mem_cons.mp hlater with rfl | hlater
      · exact hnext ▸ Int.le_refl _
      · have hthrough : next.fromDate ≤ next.dueDate := hforward next List.mem_cons_self
        exact Date.le_trans (hnext ▸ hthrough) ((List.pairwise_cons.mp hrest).1 later hlater)

theorem Consecutive.eq_of_between {rows : List ScheduleRow} (h : Consecutive rows)
    {row other : ScheduleRow} {date : Date} (hrow : row ∈ rows) (hother : other ∈ rows)
    (hfrom : row.fromDate < date) (hdue : date < row.dueDate) (hotherFrom : other.fromDate ≤ date)
    (hotherDue : date ≤ other.dueDate) : row = other := by
  let disjoint (row row' : ScheduleRow) : Prop :=
    row.dueDate ≤ row'.fromDate ∨ row'.dueDate ≤ row.fromDate
  have hsymm : Std.Symm disjoint := ⟨fun _ _ => Or.symm⟩
  have hdisjoint : rows.Pairwise disjoint := h.ends_before.imp .inl
  by_contra hne
  rcases hdisjoint.forall hrow hother hne with hends | hends
  · exact Date.not_le_iff.mpr hdue (Date.le_trans hends hotherFrom)
  · exact Date.not_le_iff.mpr hfrom (Date.le_trans hotherDue hends)

/-- Rows are consecutive by their terms. -/
theorem Consecutive.of_sameTerms {rows rows' : List ScheduleRow} (h : Consecutive rows)
    (hterms : List.Forall₂ SameTerms rows rows') : Consecutive rows' where
  follows := by
    have hdates : rows.map (fun row => (row.fromDate, row.dueDate)) =
        rows'.map fun row => (row.fromDate, row.dueDate) :=
      map_eq_of_forall₂ hterms fun row row' hrow => by rw [hrow]
    have hchain : (rows.map fun row => (row.fromDate, row.dueDate)).IsChain
        fun dates next => next.1 = dates.2 := (List.isChain_map _).mpr h.follows
    rw [hdates] at hchain
    exact (List.isChain_map _).mp hchain
  forward row' hrow' := by
    obtain ⟨row, hrow, hrowTerms⟩ := exists_mem_of_forall₂ hterms.flip hrow'
    have hfrom : row'.fromDate = row.fromDate := congrArg (·.fromDate) hrowTerms
    have hdue : row'.dueDate = row.dueDate := congrArg (·.dueDate) hrowTerms
    rw [hfrom, hdue]
    exact h.forward row hrow

theorem GapFree.consecutive {rows : List ScheduleRow} (h : GapFree rows) : Consecutive rows :=
  ⟨h.follows, h.forward⟩

instance : Std.Symm Apart := ⟨fun _ _ => Apart.symm⟩

/-- Different rows of a schedule without gaps are apart. -/
theorem GapFree.apart {rows : List ScheduleRow} (h : GapFree rows) {row row' : ScheduleRow}
    (hrow : row ∈ rows) (hrow' : row' ∈ rows) (hne : row ≠ row') : row.Apart row' := by
  have hends := h.consecutive.ends_before
  have hinstallments : rows.Pairwise fun row later => row.installment ≠ later.installment :=
    List.pairwise_map.mp h.installments
  have hfirst : rows.Pairwise fun _ later => later.installment ≠ 1 := by
    have htail := h.first
    cases rows with
    | nil => exact .nil
    | cons row rows =>
      exact List.pairwise_cons.mpr
        ⟨htail, List.pairwise_of_forall_mem_list fun _ _ later hlater => htail later hlater⟩
  have hall : rows.Pairwise Apart := by
    refine (hends.and (hinstallments.and hfirst)).imp ?_
    rintro row later ⟨hend, hn, hone⟩
    refine ⟨hn, fun policy c due hboth => ?_⟩
    obtain ⟨hdue, -⟩ := due_of_selected hboth.1
    obtain ⟨-, hstart⟩ := due_of_selected hboth.2
    exact Date.not_le_iff.mpr (hstart.resolve_right hone) (Date.le_trans hdue hend)
  exact hall.forall hrow hrow' hne

/-- What accrues on the rows of a schedule does not open gaps. -/
theorem GapFree.map {rows : List ScheduleRow} (h : GapFree rows) {f : ScheduleRow → ScheduleRow}
    (hf : ∀ row : ScheduleRow, row.SameTerms (f row)) : GapFree (rows.map f) := by
  have hfrom : ∀ row, (f row).fromDate = row.fromDate := fun row => congrArg (·.fromDate) (hf row)
  have hdue : ∀ row, (f row).dueDate = row.dueDate := fun row => congrArg (·.dueDate) (hf row)
  have hn : ∀ row, (f row).installment = row.installment :=
    fun row => congrArg (·.installment) (hf row)
  refine ⟨?_, ?_, ?_, ?_⟩
  · refine (List.isChain_map f).mpr (h.follows.imp fun row next hnext => ?_)
    rw [hfrom, hdue, hnext]
  · intro row' hrow'
    obtain ⟨row, hrow, rfl⟩ := List.mem_map.mp hrow'
    rw [hfrom, hdue]
    exact h.forward row hrow
  · intro row' hrow'
    rw [← List.map_tail] at hrow'
    obtain ⟨row, hrow, rfl⟩ := List.mem_map.mp hrow'
    rw [hn]
    exact h.first row hrow
  · rw [List.map_map]
    convert h.installments using 2
    funext row
    exact hn row

end ScheduleRow

variable {places : Nat} {policy : ChargePolicy} {row row' : ScheduleRow} {w : Window}
  {c d : Charge} {now till : Date}

namespace Charge

/-- What has accrued on a charge by a date was accrued in windows of its row up to that date: the
windows that reach the date take it in. -/
def Timely (policy : ChargePolicy) (now : Date) (row : ScheduleRow) (c : Charge) : Prop :=
  ∀ x, c.brought policy row row.period = some x → x.accrued.value ≠ 0 →
    ∀ till, now ≤ till → till ≤ row.dueDate → c.falls policy row ⟨row.fromDate, till⟩ = true

theorem Timely.later (h : c.Timely policy now row) (hlater : now ≤ till) :
    c.Timely policy till row :=
  fun x hx hne t ht => h x hx hne t (Date.le_trans hlater ht)

/-- A window that is not behind takes in all that has accrued on its row. -/
theorem Timely.worth_accrued (h : c.Timely policy now row) (hdue : till ≤ row.dueDate)
    (hnow : now ≤ till ∨ till = row.dueDate) :
    worth (·.accrued.value) (c.brought policy row ⟨row.fromDate, till⟩) =
      worth (·.accrued.value) (c.brought policy row row.period) := by
  rcases hnow with hnow | rfl
  · cases hpart : c.brought policy row ⟨row.fromDate, till⟩ with
    | some x => rw [brought_period hdue hpart]
    | none =>
      cases hwhole : c.brought policy row row.period with
      | none => rfl
      | some x =>
        by_contra hne
        have hne : x.accrued.value ≠ 0 := fun hzero => hne hzero.symm
        have hfalls := h x hwhole hne till hnow hdue
        have hfound := brought_eq_some.mpr ⟨hfalls, (brought_eq_some.mp hwhole).2⟩
        rw [hpart] at hfound
        cases hfound
  · rfl

/-- A charge on which nothing has accrued yet. -/
def Unaccrued (c : Charge) : Prop := ∀ x ∈ c.parts, x.accrued.value = 0

theorem Unaccrued.worth_accrued (h : c.Unaccrued) :
    worth (·.accrued.value) (c.brought policy row w) = 0 := by
  cases hx : c.brought policy row w with
  | none => rfl
  | some x => exact h x (mem_parts_of_brought hx)

theorem Unaccrued.timely (h : c.Unaccrued) : c.Timely policy now row :=
  fun x hx hne => absurd (h x (mem_parts_of_brought hx)) hne

theorem dueOn_proper {amount : Money} (h : amount.Plain places) (id : ChargeId) (kind : ChargeKind)
    (due submittedOn : Date) (isPenalty : Bool) :
    (dueOn id kind due submittedOn amount isPenalty).Proper places ∧
      (dueOn id kind due submittedOn amount isPenalty).Unaccrued := by
  have hparts : (dueOn id kind due submittedOn amount isPenalty).parts =
      [⟨amount, .zero, .zero, .zero, .zero, .zero⟩] := rfl
  refine ⟨⟨rfl, ?_, nofun⟩, ?_⟩
  · rw [hparts]
    exact List.forall_mem_singleton.mpr (.fresh h)
  · unfold Unaccrued
    rw [hparts]
    exact List.forall_mem_singleton.mpr Money.value_zero

/-- A new installment fee of shares for different installments is proper. -/
theorem ofShares_proper {id : ChargeId} {kind : ChargeKind} {submittedOn : Date}
    {shares : List ChargeShare} (h : ofShares id kind submittedOn shares = .ok c)
    (hshares : ∀ s ∈ shares, ∃ n due amount, s = .fresh n due amount ∧ amount.Plain places)
    (hinstallments : (shares.map (·.installment)).Nodup) : c.Proper places ∧ c.Unaccrued := by
  obtain ⟨amount, -, hc⟩ := bind_eq_ok.mp h
  rw [← pure_eq_ok.mp hc]
  refine ⟨⟨rfl, ?_, fun _ => hinstallments⟩, ?_⟩
  · intro x hx
    obtain ⟨s, hs, rfl⟩ := List.mem_map.mp hx
    obtain ⟨n, due, amount, rfl, hamount⟩ := hshares s hs
    exact .fresh hamount
  · intro x hx
    obtain ⟨s, hs, rfl⟩ := List.mem_map.mp hx
    obtain ⟨n, due, amount, rfl, -⟩ := hshares s hs
    exact Money.value_zero

theorem map_amount_parts (hdue : d.dueDate = c.dueDate) (hown : d.amount = c.amount)
    (hshares : List.Forall₂ (fun s t : ChargeShare => t.amount = s.amount) c.shares d.shares) :
    d.parts.map (·.amount) = c.parts.map (·.amount) := by
  simp only [parts]
  rw [hdue]
  cases c.dueDate with
  | some due => exact congrArg (fun amount => [amount]) hown
  | none =>
    dsimp only
    rw [List.map_map, List.map_map]
    exact (map_eq_of_forall₂ hshares fun _ _ hst => hst.symm).symm

theorem SameTerms.map_amount (h : c.SameTerms d) :
    d.parts.map (·.amount) = c.parts.map (·.amount) :=
  map_amount_parts (congrArg (·.dueDate) h.terms) (congrArg (·.amount) h.terms)
    (h.shares.imp fun _ _ hst => congrArg (·.amount) hst)

theorem Timely.of_sameTerms (hc : c.Timely policy now row) (h : row.SameTerms row') :
    c.Timely policy now row' := by
  rw [h]
  exact hc

namespace AccruedIn

theorem falls_eq (h : c.AccruedIn places policy row w d) (row' : ScheduleRow) (w' : Window) :
    d.falls policy row' w' = c.falls policy row' w' := by
  rw [h.sameTerms.terms]
  rfl

/-- On its row, a charge has accrued all that was left to accrue of what it brought. -/
theorem brought_on (h : c.AccruedIn places policy row ⟨row.fromDate, till⟩ d)
    (hdue : till ≤ row.dueDate) :
    worth (·.accrued.value) (d.brought policy row row.period) =
      worth (·.accrued.value) (c.brought policy row row.period) +
        worth Dues.remaining (c.brought policy row ⟨row.fromDate, till⟩) := by
  cases hx : c.brought policy row ⟨row.fromDate, till⟩ with
  | none => rw [h.missed hx, worth_none, add_zero]
  | some x =>
    obtain ⟨m, hm, hpart⟩ := h.caught x hx
    have hwhole := brought_period hdue hx
    have hfalls : d.falls policy row row.period = true :=
      (h.falls_eq row row.period).trans (brought_eq_some.mp hwhole).1
    rw [brought_eq_some.mpr ⟨hfalls, hpart⟩, hwhole, worth_some, worth_some, worth_some, hm,
      Dues.remaining]
    ring

/-- To other rows a charge brings what it brought before. -/
theorem brought_apart (h : c.AccruedIn places policy row ⟨row.fromDate, till⟩ d)
    (hdue : till ≤ row.dueDate) (hapart : row.Apart row') :
    d.brought policy row' row'.period = c.brought policy row' row'.period := by
  cases hx : c.brought policy row ⟨row.fromDate, till⟩ with
  | none => rw [h.missed hx]
  | some x =>
    have hdate : d.dueDate = c.dueDate := congrArg (·.dueDate) h.sameTerms.terms
    cases hc : c.dueDate with
    | some due =>
      -- the charge belongs to the one row, so it does not belong to the other
      have hwhole := brought_period hdue hx
      rw [brought_of_due hc] at hwhole
      have hselected : c.selected policy due row row.period = true := by
        by_contra hnot
        rw [if_neg hnot] at hwhole
        cases hwhole
      have hnot : ¬c.selected policy due row' row'.period = true :=
        fun hboth => hapart.selected policy c due ⟨hselected, hboth⟩
      have hnot' : ¬d.selected policy due row' row'.period = true := by
        rw [h.sameTerms.terms]
        exact hnot
      rw [brought_of_due hc, brought_of_due (hdate.trans hc), if_neg hnot, if_neg hnot']
    | none =>
      simp only [brought]
      rw [h.falls_eq, h.elsewhere hc _ hapart.installment.symm]

theorem timely_on (h : c.AccruedIn places policy row ⟨row.fromDate, till⟩ d)
    (hnow : till ≤ now) (hc : c.Timely policy now row) :
    d.Timely policy now row := by
  cases hx : c.brought policy row ⟨row.fromDate, till⟩ with
  | none =>
    rw [h.missed hx]
    exact hc
  | some x =>
    intro y _ _ t ht hle
    rw [h.falls_eq]
    exact falls_mono (Date.le_trans hnow ht) hle (brought_eq_some.mp hx).1

theorem timely_apart (h : c.AccruedIn places policy row ⟨row.fromDate, till⟩ d)
    (hdue : till ≤ row.dueDate) (hapart : row.Apart row') (hc : c.Timely policy now row') :
    d.Timely policy now row' := by
  intro x hx hne t ht hle
  rw [h.brought_apart hdue hapart] at hx
  rw [h.falls_eq]
  exact hc x hx hne t ht hle

end AccruedIn

theorem map_id_of_relieved {cs ds : List Charge} (h : List.Forall₂ Relieved cs ds) :
    ds.map (·.id) = cs.map (·.id) :=
  (map_eq_of_forall₂ h fun _ _ hcd => (congrArg (·.id) hcd.terms).symm).symm

theorem map_id_of_sameTerms {cs ds : List Charge} (h : List.Forall₂ SameTerms cs ds) :
    ds.map (·.id) = cs.map (·.id) :=
  (map_eq_of_forall₂ h fun _ _ hcd => (congrArg (·.id) hcd.terms).symm).symm

namespace Relieved

theorem falls_eq (h : c.Relieved d) (row : ScheduleRow) (w : Window) :
    d.falls policy row w = c.falls policy row w := by
  rw [h.terms]
  rfl

private theorem map_accrued_partOf? (h : c.Relieved d) (n : InstallmentNumber) :
    (d.partOf? n).map (·.accrued.value) = (c.partOf? n).map (·.accrued.value) := by
  have hdate : d.dueDate = c.dueDate := congrArg (·.dueDate) h.terms
  cases hc : c.dueDate with
  | some due =>
    rw [partOf?_of_due hc, partOf?_of_due (hdate.trans hc), h.terms]
    rfl
  | none =>
    rw [partOf?_of_shares hc, partOf?_of_shares (hdate.trans hc), Option.map_map, Option.map_map]
    refine (map_eq_of_rel (forall₂_find? h.shares fun s t hst => ?_) fun s t hst => ?_).symm
    · rw [show t.installment = s.installment from congrArg (·.installment) hst]
    · exact (congrArg (·.dues.accrued.value) hst.2).symm

theorem worth_accrued (h : c.Relieved d) :
    worth (·.accrued.value) (d.brought policy row w) =
      worth (·.accrued.value) (c.brought policy row w) := by
  simp only [brought, worth]
  rw [h.falls_eq]
  split
  · rw [h.map_accrued_partOf?]
  · rfl

theorem map_amount (h : c.Relieved d) : d.parts.map (·.amount) = c.parts.map (·.amount) :=
  map_amount_parts (congrArg (·.dueDate) h.terms) (congrArg (·.amount) h.terms)
    (h.shares.imp fun _ _ hst => congrArg (·.amount) hst)

theorem timely (h : c.Relieved d) (hc : c.Timely policy now row) : d.Timely policy now row := by
  intro x hx hne
  have hworth : worth (·.accrued.value) (d.brought policy row row.period) =
      worth (·.accrued.value) (c.brought policy row row.period) := h.worth_accrued
  rw [hx, worth_some] at hworth
  intro t ht hle
  rw [h.falls_eq]
  cases hy : c.brought policy row row.period with
  | none =>
    rw [hy] at hworth
    exact absurd hworth hne
  | some y =>
    rw [hy, worth_some] at hworth
    exact hc y hy (hworth ▸ hne) t ht hle

end Relieved
end Charge
end LoanLedger
