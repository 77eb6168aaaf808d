import LoanLedger.Ledger.Relief
import LoanLedger.Proofs.Accrual.Explained
import LoanLedger.Proofs.Consistency

/-!
Explained income over any sequence of dealings with a loan. Runs accrue its rows, and between them
charges are entered, waived and waived no more. As long as the dates of the runs do not go back,
the allocations of every posting add up to its portions, and every row holds what has accrued on its
charges.
-/

set_option autoImplicit false
set_option relaxedAutoImplicit false

namespace LoanLedger

variable {t : RunTerms} {id k : LoanId} {loan loan' : Loan} {policy : ChargePolicy} {places : Nat}
  {now till : Date} {pending : List Charge} {b : Books}

/-- A turn on an accounted loan posts what its allocations explain, and the loan is accounted
afterwards. -/
theorem Loan.Turn.explained {ok : Bool} {log : List Posting} (h : loan.Turn t id loan' ok log)
    (hs : loan.Sound id) (hacc : Accounted t.settings.policy places (t.mode.reach t.today)
      loan.schedule loan.charges) :
    (∀ p ∈ log, p.Explained) ∧
      Accounted t.settings.policy places (t.mode.reach t.today) loan'.schedule loan'.charges ∧
      List.Forall₂ Charge.SameTerms loan.charges loan'.charges := by
  have hidle : ∀ {mid : Loan}, loan.Reversioned mid →
      Accounted t.settings.policy places (t.mode.reach t.today) mid.schedule mid.charges ∧
        mid.charges = loan.charges := by
    intro mid hmid
    rw [hmid.same]
    exact ⟨hacc, rfl⟩
  cases h with
  | fails h =>
    obtain ⟨hacc', hcharges⟩ := hidle h.reversioned
    exact ⟨fun p hp => (nomatch hp), hacc', hcharges ▸ Charge.forall₂_sameTerms_refl _⟩
  | idles h _ =>
    obtain ⟨hacc', hcharges⟩ := hidle h.reversioned
    exact ⟨fun p hp => (nomatch hp), hacc', hcharges ▸ Charge.forall₂_sameTerms_refl _⟩
  | @posts mid r ok h hposts =>
    obtain ⟨hmidAcc, hmidCharges⟩ := hidle h.reversioned
    have hmid : mid.Sound id := h.reversioned.sound hs
    obtain ⟨n, hresult⟩ := hposts.result
    obtain ⟨-, ⟨os, hos, hpostings⟩, -, -⟩ := AccrualInput.accrue_eq_ok hresult
    obtain ⟨hexplained, hacc'⟩ := hos.explained hmidAcc hmid.rowIds
      (fun task htask => RunTerms.reaches_of_mem_plan htask) (RunTerms.nodup_plan hmid)
    rw [← hpostings] at hexplained hacc'
    rw [(hposts.accepted_eq hmid).1]
    exact ⟨hexplained, hacc', hmidCharges ▸ AccrualInput.accrue_sameTerms hresult⟩

/-- A loan whose rows and charges agree, with new charges that are still to be entered. -/
structure Loan.Reconciled (policy : ChargePolicy) (places : Nat) (now : Date)
    (pending : List Charge) (id : LoanId) (loan : Loan) : Prop where
  sound : loan.Sound id
  accounted : Accounted policy places now loan.schedule loan.charges
  fresh : ∀ c ∈ pending, c.Proper places ∧ c.Unaccrued
  ids : ((loan.charges ++ pending).map (·.id)).Nodup
  size : Charge.size (loan.charges ++ pending) < 10 ^ 18

namespace Loan.Reconciled

theorem later (h : loan.Reconciled policy places now pending id) (hlater : now ≤ till) :
    loan.Reconciled policy places till pending id :=
  { h with accounted := h.accounted.later hlater }

/-- What becomes of a loan with the same charges, for better or worse, leaves room for those to be
entered. -/
theorem continued (h : loan.Reconciled policy places now pending id) (hs : loan'.Sound id)
    (hacc : Accounted policy places now loan'.schedule loan'.charges)
    (hids : loan'.charges.map (·.id) = loan.charges.map (·.id))
    (hsize : Charge.size loan'.charges = Charge.size loan.charges) :
    loan'.Reconciled policy places now pending id where
  sound := hs
  accounted := hacc
  fresh := h.fresh
  ids := by
    rw [List.map_append, hids, ← List.map_append]
    exact h.ids
  size := by
    rw [Charge.size_append, hsize, ← Charge.size_append]
    exact h.size

theorem turn {ok : Bool} {log : List Posting}
    (h : loan.Reconciled t.settings.policy places (t.mode.reach t.today) pending id)
    (hturn : loan.Turn t id loan' ok log) :
    (∀ p ∈ log, p.Explained) ∧
      loan'.Reconciled t.settings.policy places (t.mode.reach t.today) pending id := by
  obtain ⟨hexplained, hacc, hterms⟩ := hturn.explained h.sound h.accounted
  exact ⟨hexplained, h.continued (hturn.sound h.sound) hacc (Charge.map_id_of_sameTerms hterms)
    (Charge.size_congr (hterms.imp fun _ _ hcd => hcd.map_amount))⟩

/-- A new charge can be entered anywhere among the charges. -/
theorem enter {c : Charge} (h : loan.Reconciled policy places now (c :: pending) id)
    (position : Nat) :
    ({ loan with charges := loan.charges.take position ++ c :: loan.charges.drop position } :
      Loan).Reconciled policy places now pending id := by
  obtain ⟨⟨hproper, hnew⟩, hpending⟩ := List.forall_mem_cons.mp h.fresh
  have hcharges := take_cons_drop_perm loan.charges position c
  have hall : (loan.charges.take position ++ c :: loan.charges.drop position ++ pending).Perm
      (loan.charges ++ c :: pending) :=
    (hcharges.append_right pending).trans List.perm_middle.symm
  have hids := (hall.map (·.id)).nodup_iff.mpr h.ids
  have hsize := Charge.size_perm hall ▸ h.size
  have hpendingNonneg := Charge.size_nonneg fun d hd => (hpending d hd).1
  refine ⟨⟨h.sound.id_eq, h.sound.rows, h.sound.rowIds⟩, ?_, hpending, hids, hsize⟩
  refine h.accounted.enter hcharges hproper hnew ?_ ?_
  · rw [List.map_append] at hids
    exact (List.nodup_append.mp hids).1
  · rw [Charge.size_append] at hsize
    linarith

theorem relieve (h : loan.Reconciled policy places now pending id) {i : Nat} {c d : Charge}
    (hc : loan.charges[i]? = some c) (hcd : c.Relieved d) (hd : d.Proper places) :
    ({ loan with charges := loan.charges.set i d } : Loan).Reconciled policy places now pending
      id := by
  have hrelieved := forall₂_set (R := Charge.Relieved) .refl hc hcd
  refine h.continued ⟨h.sound.id_eq, h.sound.rows, h.sound.rowIds⟩
    (h.accounted.relieve hrelieved fun x hx => ?_) (Charge.map_id_of_relieved hrelieved)
    (Charge.size_congr (hrelieved.imp fun _ _ hxy => hxy.map_amount))
  rcases List.mem_or_eq_of_mem_set hx with hx | rfl
  · exact h.accounted.proper x hx
  · exact hd

end Loan.Reconciled

namespace Ledger

/-- A ledger with other charges of a loan. -/
def withCharges (g : Ledger) (id : LoanId) (loan : Loan) (cs : List Charge) : Ledger :=
  { g with loans := g.loans.insert id { loan with charges := cs } }

variable {g : Ledger} {cs : List Charge}

theorem Filed.withCharges (hg : g.Filed) (hloan : g.loans.find? k = some loan) :
    (g.withCharges k loan cs).Filed := by
  intro l found hfound
  by_cases hl : l = k
  · subst hl
    have hfound : { loan with charges := cs } = found :=
      Option.some.inj ((Table.find?_insert_self _ _ _).symm.trans hfound)
    rw [← hfound]
    exact ⟨(hg l loan hloan).id_eq, (hg l loan hloan).rows⟩
  · exact hg l found ((Table.find?_insert_of_ne _ hl _).symm.trans hfound)

/-- A change to a charge replaces it among the charges of its loan. -/
theorem changeCharge_eq_ok {chargeId : ChargeId}
    {change : LoanStatus → Charge → Except Failure Charge} {d : Charge} {g' : Ledger}
    (h : g.changeCharge id chargeId change = .ok (d, g')) :
    ∃ loan i c, g.loans.find? id = some loan ∧ loan.charges[i]? = some c ∧
      change loan.status c = .ok d ∧ g' = g.withCharges id loan (loan.charges.set i d) := by
  simp only [changeCharge] at h
  split at h
  · cases h
  · next loan hloan =>
    split at h
    · cases h
    · next i hi =>
      split at h
      · cases h
      · next c hc =>
        split at h
        · cases h
        · next changed hchanged =>
          cases h
          exact ⟨loan, i, c, hloan, hc, hchanged, rfl⟩

end Ledger

/-- What comes to the books: a call, a new charge of a loan at a position among its charges, the
waiver of a charge, or the undoing of a waiver. -/
inductive Dealing
  | call (call : Call)
  | enter (id : LoanId) (position : Nat) (c : Charge)
  | waive (id : LoanId) (chargeId : ChargeId) (requested : Option InstallmentNumber)
  | undoWaive (id : LoanId) (chargeId : ChargeId) (requested : Option InstallmentNumber)

namespace Books

/-- The books once a loan was relieved of a charge; where that is refused they stay as they are. -/
def relieve (b : Books) (id : LoanId) (chargeId : ChargeId)
    (relief : LoanStatus → Charge → Except Failure Relief) : Books :=
  match b.ledger.changeCharge id chargeId fun status c => (relief status c).map (·.charge) with
  | .error _ => b
  | .ok (_, ledger) => { b with ledger }

/-- The books with a new charge of a loan. -/
def enter (b : Books) (id : LoanId) (position : Nat) (c : Charge) : Books :=
  match b.ledger.loans.find? id with
  | none => b
  | some loan =>
    { b with
      ledger := b.ledger.withCharges id loan
        (loan.charges.take position ++ c :: loan.charges.drop position) }

end Books

namespace Dealing

/-- The books after a dealing. -/
def perform (b : Books) : Dealing → Books
  | call c => c.perform b
  | enter id position c => b.enter id position c
  | waive id chargeId requested => b.relieve id chargeId fun status c => c.waive status requested
  | undoWaive id chargeId requested =>
    b.relieve id chargeId fun status c => c.undoWaive status requested

/-- The charge of a loan that a dealing enters. -/
def entered (id : LoanId) : Dealing → List Charge
  | enter k _ c => if k = id then [c] else []
  | _ => []

/-- The date up to which a dealing accrues, if it is a run. -/
def date? : Dealing → Option Date
  | call (.run _ mode today _) => some (mode.reach today)
  | _ => none

/-- Whether a dealing, if it is a run, is one under a charge policy. -/
def Under (policy : ChargePolicy) : Dealing → Prop
  | call (.run batch _ _ _) => ∀ s, batch.settings = .ok s → s.policy = policy
  | _ => True

end Dealing

/-- The books after several dealings. -/
def Books.afterDealings (b : Books) (dealings : List Dealing) : Books :=
  dealings.foldl Dealing.perform b

/-- Books that file their loans, with a reconciled one. -/
structure Books.Reconciled (policy : ChargePolicy) (places : Nat) (now : Date)
    (pending : List Charge) (id : LoanId) (b : Books) : Prop where
  filed : b.ledger.Filed
  loan : ∃ loan, b.ledger.loans.find? id = some loan ∧
    loan.Reconciled policy places now pending id

/-- What dealings with a reconciled loan lead to: postings that are recorded and, if they are of the
loan, explained, and a loan that is reconciled. -/
structure Books.Explains (policy : ChargePolicy) (places : Nat) (now : Date)
    (pending : List Charge) (id : LoanId) (log : List Posting) (b b' : Books) : Prop where
  records : Books.Records log b b'
  explained : ∀ p ∈ postingsOf id log, p.Balanced ∧ p.Explained
  reconciled : b'.Reconciled policy places now pending id

namespace Books

theorem Reconciled.later (h : b.Reconciled policy places now pending id) (hlater : now ≤ till) :
    b.Reconciled policy places till pending id := by
  obtain ⟨loan, hloan, hreconciled⟩ := h.loan
  exact ⟨h.filed, loan, hloan, hreconciled.later hlater⟩

theorem Explains.of_silent {b' : Books} (hrecords : Records [] b b')
    (h : b'.Reconciled policy places now pending id) :
    Explains policy places now pending id [] b b' :=
  ⟨hrecords, fun _ hp => (nomatch hp), h⟩

/-- Other charges of a loan are not recorded. They leave a loan reconciled that is another, or that
is reconciled with them. -/
theorem explains_withCharges {stored : Loan} {cs : List Charge} (hb : b.ledger.Filed)
    (hstored : b.ledger.loans.find? k = some stored)
    (hloan : b.ledger.loans.find? id = some loan)
    (hsame : k = id →
      ({ stored with charges := cs } : Loan).Reconciled policy places now pending id)
    (hother : k ≠ id → loan.Reconciled policy places now pending id) :
    Explains policy places now pending id [] b
      { b with ledger := b.ledger.withCharges k stored cs } := by
  refine .of_silent (.silent rfl rfl rfl rfl) ⟨hb.withCharges hstored, ?_⟩
  by_cases hk : k = id
  · subst hk
    exact ⟨_, Table.find?_insert_self _ _ _, hsame rfl⟩
  · exact ⟨loan, (Table.find?_insert_of_ne _ (Ne.symm hk) _).trans hloan, hother hk⟩

/-- Relief that keeps charges proper keeps the loan reconciled. -/
theorem relieve_explains (h : b.Reconciled policy places now pending id) {chargeId : ChargeId}
    {relief : LoanStatus → Charge → Except Failure Relief}
    (hrelief : ∀ status c r, c.Proper places → relief status c = .ok r →
      c.Relieved r.charge ∧ r.charge.Proper places) :
    Explains policy places now pending id [] b (b.relieve k chargeId relief) := by
  simp only [relieve]
  split
  · exact .of_silent (.refl b) h
  · next d ledger hchange =>
    obtain ⟨stored, i, c, hstored, hc, hchanged, rfl⟩ := Ledger.changeCharge_eq_ok hchange
    obtain ⟨r, hr, rfl⟩ := map_eq_ok.mp hchanged
    obtain ⟨loan, hloan, hreconciled⟩ := h.loan
    refine explains_withCharges h.filed hstored hloan (fun hk => ?_) fun _ => hreconciled
    subst hk
    obtain rfl : stored = loan := Option.some.inj (hstored.symm.trans hloan)
    obtain ⟨hrelieved, hproper⟩ := hrelief _ c r
      (hreconciled.accounted.proper c (List.mem_of_getElem? hc)) hr
    exact hreconciled.relieve hc hrelieved hproper

theorem enter_explains {position : Nat} {c : Charge}
    (h : b.Reconciled policy places now ((Dealing.enter k position c).entered id ++ pending) id) :
    Explains policy places now pending id [] b (b.enter k position c) := by
  obtain ⟨loan, hloan, hreconciled⟩ := h.loan
  simp only [Dealing.entered] at hreconciled
  simp only [enter]
  split
  · next hnone =>
    have hk : k ≠ id := by
      rintro rfl
      rw [hloan] at hnone
      cases hnone
    rw [if_neg hk, List.nil_append] at hreconciled
    exact .of_silent (.refl b) ⟨h.filed, loan, hloan, hreconciled⟩
  · next stored hstored =>
    refine explains_withCharges h.filed hstored hloan (fun hk => ?_) fun hk => ?_
    · subst hk
      obtain rfl : stored = loan := Option.some.inj (hstored.symm.trans hloan)
      rw [if_pos rfl, List.singleton_append] at hreconciled
      exact hreconciled.enter position
    · rwa [if_neg hk, List.nil_append] at hreconciled

theorem Ran.explains {done : List LoanId} {log : List Posting} {b' : Books}
    (h : Ran t done log b b')
    (hb : b.Reconciled t.settings.policy places (t.mode.reach t.today) pending id) :
    Explains t.settings.policy places (t.mode.reach t.today) pending id log b b' := by
  obtain ⟨loan, hloan, hreconciled⟩ := hb.loan
  obtain ⟨loan', ok, hloan', hturn, -⟩ := h.loan id loan hloan
  obtain ⟨hexplained, hreconciled'⟩ := hreconciled.turn hturn
  exact ⟨h.records, fun p hp => ⟨hturn.balanced p hp, hexplained p hp⟩, h.filed hb.filed, loan',
    hloan', hreconciled'⟩

end Books

/-- A dealing explains its postings on a reconciled loan, if it does not go back behind the date of
the runs before. -/
theorem Dealing.perform_explains (d : Dealing)
    (h : b.Reconciled policy places now (d.entered id ++ pending) id) (hpolicy : d.Under policy)
    (hdate : ∀ date ∈ d.date?, now ≤ date) :
    ∃ log, Books.Explains policy places (d.date?.getD now) pending id log b (d.perform b) := by
  cases d with
  | call call =>
    have h : b.Reconciled policy places now pending id := h
    have hquiet : ∀ {b' : Books}, b'.ledger.loans = b.ledger.loans → Books.Records [] b b' →
        ∃ log, Books.Explains policy places now pending id log b b' := by
      intro b' hloans hrecords
      refine ⟨[], .of_silent hrecords ⟨?_, ?_⟩⟩
      · intro k loan hloan
        exact h.filed k loan (hloans ▸ hloan)
      · rw [hloans]
        exact h.loan
    cases call with
    | run batch mode today cancellation =>
      have hlater : b.Reconciled policy places (mode.reach today) pending id :=
        h.later (hdate _ rfl)
      cases hs : batch.settings with
      | error r =>
        refine ⟨[], ?_⟩
        have hsame : (Dealing.call (.run batch mode today cancellation)).perform b = b :=
          Batch.run_of_error hs
        rw [hsame]
        exact .of_silent (.refl b) hlater
      | ok s =>
        obtain rfl : s.policy = policy := hpolicy s hs
        obtain ⟨log, hran⟩ := Batch.run_ran_of_filed mode today cancellation b hs h.filed
        exact ⟨log, hran.explains hlater⟩
    | expectConflicts k count => exact hquiet rfl (.silent rfl rfl rfl rfl)
    | refuseEntries k => exact hquiet rfl (.silent rfl rfl rfl rfl)
  | enter k position c => exact ⟨[], Books.enter_explains h⟩
  | waive k chargeId requested =>
    exact ⟨[], Books.relieve_explains h fun _ _ _ => Charge.waive_relieves⟩
  | undoWaive k chargeId requested =>
    exact ⟨[], Books.relieve_explains h fun _ _ _ => Charge.undoWaive_relieves⟩

/-- Dealings explain their postings on a reconciled loan, one after the other. -/
theorem Books.afterDealings_explains (dealings : List Dealing)
    (h : b.Reconciled policy places now (dealings.flatMap (·.entered id)) id)
    (hpolicy : ∀ d ∈ dealings, d.Under policy)
    (hdates : (dealings.filterMap (·.date?)).Pairwise (· ≤ ·))
    (hnow : ∀ date ∈ dealings.filterMap (·.date?), now ≤ date) :
    ∃ log till, Books.Explains policy places till [] id log b (b.afterDealings dealings) := by
  induction dealings generalizing b now with
  | nil => exact ⟨[], now, .of_silent (.refl b) h⟩
  | cons d dealings ih =>
    obtain ⟨hd, hpolicy⟩ := List.forall_mem_cons.mp hpolicy
    have hstep : ∀ date ∈ d.date?, now ≤ date := by
      intro date hdate
      exact hnow date (List.mem_filterMap.mpr ⟨d, List.mem_cons_self, hdate⟩)
    obtain ⟨ps, hps⟩ := d.perform_explains h hd hstep
    have hrest : ((dealings.filterMap (·.date?)).Pairwise (· ≤ ·)) ∧
        ∀ date ∈ dealings.filterMap (·.date?), d.date?.getD now ≤ date := by
      cases hdate : d.date? with
      | none =>
        rw [List.filterMap_cons_none hdate] at hdates hnow
        exact ⟨hdates, hnow⟩
      | some date =>
        rw [List.filterMap_cons_some hdate] at hdates
        exact (List.pairwise_cons.mp hdates).symm
    obtain ⟨qs, till, hqs⟩ := ih hps.reconciled hpolicy hrest.1 hrest.2
    refine ⟨ps ++ qs, till, hps.records.trans hqs.records, fun p hp => ?_, hqs.reconciled⟩
    rw [postingsOf_append] at hp
    rcases List.mem_append.mp hp with hp | hp
    · exact hps.explained p hp
    · exact hqs.explained p hp

/-- A loan on which nothing has accrued and nothing was credited, on a schedule without gaps, with
the charges that it has and those that it is going to have. -/
structure Loan.Unaccrued (id : LoanId) (places : Nat) (entered : List Charge) (loan : Loan) :
    Prop where
  sound : loan.Sound id
  gapFree : ScheduleRow.GapFree loan.schedule
  rows : ∀ row ∈ loan.schedule, row.Uncredited places ∧
    ∀ penalty, (Money.orZero (row.accrued (.ofKind penalty))).value = 0
  charges : ∀ c ∈ loan.charges ++ entered, c.Proper places ∧ c.Unaccrued
  ids : ((loan.charges ++ entered).map (·.id)).Nodup
  size : Charge.size (loan.charges ++ entered) < 10 ^ 18

theorem Loan.Unaccrued.reconciled {entered : List Charge} (h : loan.Unaccrued id places entered)
    (policy : ChargePolicy) (now : Date) : loan.Reconciled policy places now entered id := by
  obtain ⟨hcharges, hentered⟩ := List.forall_mem_append.mp h.charges
  have hids := h.ids
  rw [List.map_append] at hids
  have hsize := h.size
  rw [Charge.size_append] at hsize
  have henteredNonneg := Charge.size_nonneg fun c hc => (hentered c hc).1
  exact ⟨h.sound, .of_unaccrued h.gapFree h.rows (List.nodup_append.mp hids).1 hcharges
    (by linarith), hentered, h.ids, h.size⟩

/-- The allocations explain the income. Whatever the dealings with a loan on which nothing had
accrued, under one charge policy and with runs that do not go back in time: in every posting of the
loan the allocations to fees and to penalties add up to the portions for them, every row holds what
has accrued on its charges, and on no charge has more accrued than can accrue. -/
theorem Books.explained_afterDealings (hb : b.ledger.Filed)
    (hloan : b.ledger.loans.find? id = some loan) (dealings : List Dealing)
    (hnew : loan.Unaccrued id places (dealings.flatMap (·.entered id)))
    (hpolicy : ∀ d ∈ dealings, d.Under policy)
    (hdates : (dealings.filterMap (·.date?)).Pairwise (· ≤ ·)) :
    ∃ log loan', Books.Records log b (b.afterDealings dealings) ∧
      (b.afterDealings dealings).ledger.loans.find? id = some loan' ∧
      (∀ p ∈ postingsOf id log, p.Balanced ∧ p.Explained) ∧
      (∀ row ∈ loan'.schedule, ∀ penalty,
        (Money.orZero (row.accrued (.ofKind penalty))).value =
          row.accruedOn policy penalty loan'.charges) ∧
      ∀ c ∈ loan'.charges, c.Proper places := by
  obtain ⟨now, hnow⟩ : ∃ now, ∀ date ∈ dealings.filterMap (·.date?), now ≤ date :=
    ⟨⟨-95745824, by decide, by decide⟩, fun date _ => date.first_le⟩
  obtain ⟨log, till, hexplains⟩ := Books.afterDealings_explains dealings
    ⟨hb, loan, hloan, hnew.reconciled policy now⟩ hpolicy hdates hnow
  obtain ⟨loan', hloan', hreconciled⟩ := hexplains.reconciled.loan
  exact ⟨log, loan', hexplains.records, hloan', hexplains.explained,
    hreconciled.accounted.tallied, hreconciled.accounted.proper⟩

/-- A fee of 6.00, one half for each of the two installments. -/
def splitFee : Charge where
  id := 13
  kind := 913
  dueDate := none
  submittedOn := januaryRow.fromDate
  amount := cents 600
  paid := .zero
  waived := .zero
  adjusted := .zero
  accruedSoFar := none
  unrecognizedSoFar := none
  isPenalty := false
  isInstallmentFee := true
  shares := [.fresh 1 januaryRow.dueDate (cents 300), .fresh 2 februaryRow.dueDate (cents 300)]

/-- A penalty of 15.00 that falls due on 2024-02-20. -/
def latePenalty : Charge :=
  let due : Date := ⟨739241, by decide, by decide⟩
  .dueOn 12 912 due due (cents 1500) true

/-- A loan of both rows, with a fee due on 2024-01-10 and a fee for both installments. -/
def splitFeeLoan : Loan := { januaryFeeLoan with charges := januaryFeeLoan.charges ++ [splitFee] }

/-- Runs up to 2024-02-15 and as of 2024-03-01. Between them one fee is waived after it accrued and
one half of the other before, and a penalty is entered, waived and waived no more. -/
def splitFeeDealings : List Dealing :=
  [.call (.run standardBatch (.tillDate midFebruary) midFebruary .never), .waive 1 11 none,
    .waive 1 13 (some 2), .enter 1 0 latePenalty, .waive 1 12 none, .undoWaive 1 12 none,
    .call (.run standardBatch .asOfToday firstOfMarch .never)]

private theorem unaccrued_splitFeeLoan : splitFeeLoan.Unaccrued 1 2 [latePenalty] where
  sound := ⟨rfl, by decide, by decide⟩
  gapFree := ⟨by decide, by decide, by decide, by decide⟩
  rows := by
    have hrow : ∀ rowId n fromDate dueDate, (monthlyRow rowId n fromDate dueDate).Uncredited 2 ∧
        ∀ penalty, (Money.orZero ((monthlyRow rowId n fromDate dueDate).accrued
          (.ofKind penalty))).value = 0 := by
      intro rowId n fromDate dueDate
      refine ⟨⟨fun penalty => ?_, fun penalty => ?_, Nat.le_refl 2⟩, fun penalty => ?_⟩
      · cases penalty <;> exact ⟨Money.fine_zero, Money.value_zero⟩
      · cases penalty <;> exact Money.fine_zero
      · cases penalty <;> exact Money.value_zero
    exact List.forall_mem_cons.mpr ⟨hrow .., List.forall_mem_singleton.mpr (hrow ..)⟩
  charges := by
    have hplain : ∀ {n h}, n < 10 ^ 18 * 10 ^ 2 → (cents n h).Plain 2 :=
      fun hn => Money.plain_of_scale_le rfl (Nat.le_refl 2) (by decide) hn
    have hsplit : Charge.ofShares splitFee.id splitFee.kind splitFee.submittedOn splitFee.shares =
        .ok splitFee := by decide
    have hshares : ∀ s ∈ splitFee.shares, ∃ n due amount, s = .fresh n due amount ∧
        amount.Plain 2 :=
      List.forall_mem_cons.mpr ⟨⟨1, _, _, rfl, hplain (by decide)⟩,
        List.forall_mem_singleton.mpr ⟨2, _, _, rfl, hplain (by decide)⟩⟩
    exact List.forall_mem_cons.mpr ⟨Charge.dueOn_proper (hplain (by decide)) ..,
      List.forall_mem_cons.mpr ⟨Charge.ofShares_proper hsplit hshares (by decide),
        List.forall_mem_singleton.mpr (Charge.dueOn_proper (hplain (by decide)) ..)⟩⟩
  ids := by decide
  size := by decide +kernel

theorem explained_afterDealings_splitFee :
    (∃ log loan', Books.Records log (booksOf splitFeeLoan)
        ((booksOf splitFeeLoan).afterDealings splitFeeDealings) ∧
      ((booksOf splitFeeLoan).afterDealings splitFeeDealings).ledger.loans.find? 1 = some loan' ∧
      (∀ p ∈ postingsOf 1 log, p.Balanced ∧ p.Explained) ∧
      (∀ row ∈ loan'.schedule, ∀ penalty,
        (Money.orZero (row.accrued (.ofKind penalty))).value =
          row.accruedOn .dueDate penalty loan'.charges) ∧
      ∀ c ∈ loan'.charges, c.Proper 2) ∧
    ((booksOf splitFeeLoan).afterDealings splitFeeDealings).ledger.transactions.map
      (fun x => (x.fee, x.penalty)) =
        [(some (cents 1300), none), (none, none), (none, some (cents 1500))] := by
  refine ⟨Books.explained_afterDealings (sound_booksOf unaccrued_splitFeeLoan.sound).filed rfl
    splitFeeDealings unaccrued_splitFeeLoan ?_ ?_, ?_⟩
  · have hstandard : ∀ s, standardBatch.settings = .ok s → s.policy = .dueDate := by
      rintro s hs
      cases hs
      rfl
    simp only [splitFeeDealings, List.forall_mem_cons, Dealing.Under]
    exact ⟨hstandard, trivial, trivial, trivial, trivial, trivial, hstandard, List.forall_mem_nil _⟩
  · decide
  · decide +kernel

end LoanLedger
