import LoanLedger.Accrual.JournalEntry
import LoanLedger.Proofs.Range

/-!
What a posting says about its row. Each column of the row advances by the portion that the
transaction carries, the transaction amounts to the sum of its portions, and it is positive.
-/

set_option autoImplicit false
set_option relaxedAutoImplicit false

namespace LoanLedger

/-- A column before and after a posting, and the portion that is posted for it: without a portion
the column keeps its value, and a portion is positive and added to it. -/
def Advances (before portion after : Option Money) : Prop :=
  match portion with
  | none => (Money.orZero after).Agree (Money.orZero before)
  | some d => d.isPositive = true ∧ (Money.orZero before).add d = .ok (Money.orZero after)

theorem Portion.towards_none (accrued credited : Option Money) :
    Portion.towards none accrued credited = .ok ⟨none, accrued⟩ := rfl

theorem Portion.towards_some_eq_ok {target : Money} {accrued credited : Option Money}
    {x : Portion} :
    Portion.towards (some target) accrued credited = .ok x ↔
      ∃ covered delta total, (Money.orZero accrued).add (Money.orZero credited) = .ok covered ∧
        target.monus covered = .ok delta ∧ (Money.orZero accrued).add delta = .ok total ∧
        x = ⟨delta.nonZero, some total⟩ := by
  simp only [Portion.towards, bind_eq_ok, pure_eq_ok]
  constructor
  · rintro ⟨covered, hcovered, delta, hdelta, total, htotal, rfl⟩
    exact ⟨covered, delta, total, hcovered, hdelta, htotal, rfl⟩
  · rintro ⟨covered, delta, total, hcovered, hdelta, htotal, rfl⟩
    exact ⟨covered, hcovered, delta, hdelta, total, htotal, rfl⟩

/-- A portion leads from the column it was computed for to its total. -/
theorem Portion.towards_advances {target accrued credited : Option Money} {x : Portion}
    (h : Portion.towards target accrued credited = .ok x) : Advances accrued x.delta x.total := by
  cases target with
  | none =>
    rw [Portion.towards_none] at h
    cases h
    exact .refl _
  | some target =>
    obtain ⟨covered, delta, total, -, hdelta, htotal, rfl⟩ := Portion.towards_some_eq_ok.mp h
    cases hz : delta.nonZero with
    | none =>
      have hzero : delta.mantissa = 0 :=
        (Money.units_eq_zero_iff delta).mp ((Money.nonZero_eq_none_iff delta).mp hz)
      exact Money.agree_of_add_zero hzero htotal
    | some d =>
      have hpos := Money.nonZero_isPositive (Money.monus_units_nonneg hdelta) hz
      have hd : delta = d := by
        simp only [Money.nonZero] at hz
        split at hz
        · cases hz
        · exact Option.some.inj hz
      exact ⟨hpos, hd ▸ htotal⟩

/-- What a posting for a row consists of. -/
structure Posting.IsFor (p : Posting) (row : ScheduleRow) : Prop where
  loanId : p.transaction.loanId = row.loanId
  rowId : p.totals.rowId = row.rowId
  installment : p.totals.installment = row.installment
  payments : p.payments = p.allocations.map fun a =>
    ⟨p.transaction.id, a.chargeId, a.amount, row.installment⟩
  amount : ∃ part,
    (Money.orZero p.transaction.interest).add (Money.orZero p.transaction.fee) = .ok part ∧
      part.add (Money.orZero p.transaction.penalty) = .ok p.transaction.amount
  positive : p.transaction.amount.isPositive = true
  interest : Advances row.accruedInterest p.transaction.interest p.totals.interest
  fee : Advances row.accruedFee p.transaction.fee p.totals.fee
  penalty : Advances row.accruedPenalty p.transaction.penalty p.totals.penalty

namespace PreparedAccrual

variable {p : PreparedAccrual} {parts : Portions} {id : TransactionId}
  {postedOn till processedOn : Date}

/-- The total of three portions. -/
def Portions.amount (parts : Portions) : Except Fault Money := do
  (← (Money.orZero parts.interest.delta).add (Money.orZero parts.fee.delta)).add
    (Money.orZero parts.penalty.delta)

/-- The posting of portions that amount to `amount`. -/
def posting (p : PreparedAccrual) (id : TransactionId) (parts : Portions) (amount : Money)
    (postedOn accruedTill processedOn : Date) : Posting where
  transaction := {
    id
    loanId := p.row.loanId
    officeId := p.row.officeId
    date := postedOn
    submittedOn := processedOn
    amount
    interest := parts.interest.delta
    fee := parts.fee.delta
    penalty := parts.penalty.delta
    currency := p.row.currency }
  payments := p.charges.allocations.map fun a => ⟨id, a.chargeId, a.amount, p.row.installment⟩
  allocations := p.charges.allocations
  totals := {
    rowId := p.row.rowId
    installment := p.row.installment
    interest := parts.interest.total
    fee := parts.fee.total
    penalty := parts.penalty.total }
  accruedTill

/-- Portions are posted when together they are positive, and only then. -/
theorem post_eq_ok {x : Option Posting} :
    p.post id parts postedOn till processedOn = .ok x ↔
      ∃ amount, parts.amount = .ok amount ∧
        x = if amount.isPositive then some (p.posting id parts amount postedOn till processedOn)
          else none := by
  simp only [post, Portions.amount, posting]
  simp only [bind_eq_ok]
  constructor
  · rintro ⟨part, hpart, amount, hamount, hx⟩
    refine ⟨amount, ⟨part, hpart, hamount⟩, ?_⟩
    cases hpos : amount.isPositive <;> simp_all [pure_eq_ok]
  · rintro ⟨amount, ⟨part, hpart, hamount⟩, rfl⟩
    refine ⟨part, hpart, amount, hamount, ?_⟩
    cases hpos : amount.isPositive <;> simp [pure_eq_ok]

theorem portions_eq_ok {rounding : RoundingMode} {interest : Option Money} :
    p.portions rounding interest = .ok parts ↔
      Portion.towards interest p.row.accruedInterest none = .ok parts.interest ∧
      Portion.towards (p.charges.feeIncome.map fun m => m.round p.row.currency rounding)
        p.row.accruedFee p.row.creditedFee = .ok parts.fee ∧
      Portion.towards (p.charges.penaltyIncome.map fun m => m.round p.row.currency rounding)
        p.row.accruedPenalty p.row.creditedPenalty = .ok parts.penalty := by
  simp only [portions]
  simp only [bind_eq_ok, pure_eq_ok]
  constructor
  · rintro ⟨interest, hinterest, fee, hfee, penalty, hpenalty, rfl⟩
    exact ⟨hinterest, hfee, hpenalty⟩
  · rintro ⟨hinterest, hfee, hpenalty⟩
    exact ⟨_, hinterest, _, hfee, _, hpenalty, rfl⟩

/-- A posting of portions of a row is a posting for that row. -/
theorem posting_isFor {rounding : RoundingMode} {interest : Option Money} {amount : Money}
    (hparts : p.portions rounding interest = .ok parts) (hamount : parts.amount = .ok amount)
    (hpos : amount.isPositive = true) :
    (p.posting id parts amount postedOn till processedOn).IsFor p.row := by
  obtain ⟨hinterest, hfee, hpenalty⟩ := portions_eq_ok.mp hparts
  exact {
    loanId := rfl
    rowId := rfl
    installment := rfl
    payments := rfl
    amount := bind_eq_ok.mp hamount
    positive := hpos
    interest := Portion.towards_advances hinterest
    fee := Portion.towards_advances hfee
    penalty := Portion.towards_advances hpenalty }

end PreparedAccrual

/-- The portions of a posting: interest, fees and penalties. -/
def Posting.portions (p : Posting) : List Money :=
  [Money.orZero p.transaction.interest, Money.orZero p.transaction.fee,
    Money.orZero p.transaction.penalty]

/-- What holds of a posting in itself: it is positive, it amounts to the sum of its portions, which
is their exact sum where they have room together, those that are present are positive, and its
payments are its allocations. -/
structure Posting.Balanced (p : Posting) : Prop where
  positive : p.transaction.amount.isPositive = true
  amount : ∃ part,
    (Money.orZero p.transaction.interest).add (Money.orZero p.transaction.fee) = .ok part ∧
      part.add (Money.orZero p.transaction.penalty) = .ok p.transaction.amount
  value : (∀ a ∈ p.portions, a.Fine) → totalSize p.portions < Money.room →
    p.transaction.amount.value = (p.portions.map Money.value).sum
  interest : ∀ d, p.transaction.interest = some d → d.isPositive = true
  fee : ∀ d, p.transaction.fee = some d → d.isPositive = true
  penalty : ∀ d, p.transaction.penalty = some d → d.isPositive = true
  payments : p.payments = p.allocations.map fun a =>
    ⟨p.transaction.id, a.chargeId, a.amount, p.totals.installment⟩

theorem Advances.isPositive {before after : Option Money} {d : Money}
    (h : Advances before (some d) after) : d.isPositive = true := h.1

theorem Posting.IsFor.balanced {p : Posting} {row : ScheduleRow} (h : p.IsFor row) :
    p.Balanced where
  positive := h.positive
  amount := h.amount
  value hfine hsize := by
    obtain ⟨part, hpart, hamount⟩ := h.amount
    have hsum : (Money.orZero p.transaction.interest).addAll
        [Money.orZero p.transaction.fee, Money.orZero p.transaction.penalty] =
          .ok p.transaction.amount := by
      rw [Money.addAll_cons, hpart]
      exact (Money.addAll_singleton _ _).trans hamount
    exact Money.tallies_of_addAll hsum hfine hsize
  interest d hd := Advances.isPositive (hd ▸ h.interest)
  fee d hd := Advances.isPositive (hd ▸ h.fee)
  penalty d hd := Advances.isPositive (hd ▸ h.penalty)
  payments := by rw [h.payments, h.installment]

/-- A column before and after several postings, and the portions that were posted for it: together
they were added to it. -/
def AdvancesBy (portions : List Money) (before after : Option Money) : Prop :=
  ∃ total, (Money.orZero before).addAll portions = .ok total ∧ (Money.orZero after).Agree total

theorem AdvancesBy.refl (column : Option Money) : AdvancesBy [] column column :=
  ⟨_, rfl, .refl _⟩

/-- By value, a column holds what it held and the portions that were posted for it. -/
theorem AdvancesBy.tallies {ds : List Money} {before after : Option Money}
    (h : AdvancesBy ds before after) : (Money.orZero before).Tallies ds (Money.orZero after) := by
  obtain ⟨total, htotal, hagree⟩ := h
  intro hfine hsize
  rw [hagree.value_eq]
  exact Money.tallies_of_addAll htotal hfine hsize

theorem AdvancesBy.trans {ds es : List Money} {a b c : Option Money} (hab : AdvancesBy ds a b)
    (hbc : AdvancesBy es b c) : AdvancesBy (ds ++ es) a c := by
  obtain ⟨x, hx, hbx⟩ := hab
  obtain ⟨y, hy, hcy⟩ := hbc
  obtain ⟨z, hz, hyz⟩ := hbx.addAll hy
  exact ⟨z, Money.addAll_append hx hz, hcy.trans hyz⟩

theorem AdvancesBy.cancel {ds es : List Money} {a b c : Option Money} (hab : AdvancesBy ds a b)
    (hac : AdvancesBy (ds ++ es) a c) : AdvancesBy es b c := by
  obtain ⟨x, hx, hbx⟩ := hab
  obtain ⟨z, hz, hcz⟩ := hac
  have hxz : x.addAll es = .ok z := by
    simp only [Money.addAll] at hx hz ⊢
    rw [List.foldlM_append, hx] at hz
    exact hz
  obtain ⟨y, hy, hzy⟩ := hbx.symm.addAll hxz
  exact ⟨y, hy, hcz.trans hzy⟩

theorem Advances.advancesBy {before portion after : Option Money}
    (h : Advances before portion after) : AdvancesBy portion.toList before after := by
  cases portion with
  | none => exact ⟨_, rfl, h⟩
  | some d =>
    refine ⟨Money.orZero after, ?_, .refl _⟩
    rw [Option.toList_some, Money.addAll_singleton]
    exact h.2

/-- A row after the given postings: its columns advanced by their portions, and nothing else
changed. -/
structure ScheduleRow.AdvancedBy (ps : List Posting) (row row' : ScheduleRow) : Prop where
  terms : row' = { row with
    accruedInterest := row'.accruedInterest
    accruedFee := row'.accruedFee
    accruedPenalty := row'.accruedPenalty }
  interest : AdvancesBy ((ps.filter fun p => p.totals.rowId = row.rowId).filterMap
    (·.transaction.interest)) row.accruedInterest row'.accruedInterest
  fee : AdvancesBy ((ps.filter fun p => p.totals.rowId = row.rowId).filterMap
    (·.transaction.fee)) row.accruedFee row'.accruedFee
  penalty : AdvancesBy ((ps.filter fun p => p.totals.rowId = row.rowId).filterMap
    (·.transaction.penalty)) row.accruedPenalty row'.accruedPenalty

namespace ScheduleRow

theorem AdvancedBy.refl (row : ScheduleRow) : row.AdvancedBy [] row :=
  ⟨rfl, .refl _, .refl _, .refl _⟩

theorem AdvancedBy.trans {ps qs : List Posting} {row row' row'' : ScheduleRow}
    (h : row.AdvancedBy ps row') (h' : row'.AdvancedBy qs row'') :
    row.AdvancedBy (ps ++ qs) row'' := by
  have hid : row'.rowId = row.rowId := congrArg (·.rowId) h.terms
  have hinterest := h'.interest
  have hfee := h'.fee
  have hpenalty := h'.penalty
  rw [hid] at hinterest hfee hpenalty
  refine ⟨?_, ?_, ?_, ?_⟩
  · rw [h'.terms, h.terms]
  · rw [List.filter_append, List.filterMap_append]
    exact h.interest.trans hinterest
  · rw [List.filter_append, List.filterMap_append]
    exact h.fee.trans hfee
  · rw [List.filter_append, List.filterMap_append]
    exact h.penalty.trans hpenalty

end ScheduleRow
end LoanLedger
