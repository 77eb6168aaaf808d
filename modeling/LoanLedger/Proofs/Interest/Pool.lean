import LoanLedger.Proofs.Interest.Applicable

/-!
The replay of waived periods, in the exact range. What a pool holds never outgrows the waivers and
the waived interest that came in. A pool with fewer waivers to come runs like one with more of them
until it runs dry, so it never has more of the recognized part left.
-/

set_option autoImplicit false
set_option relaxedAutoImplicit false

namespace LoanLedger.ReconciledInterest

variable {row : ScheduleRow} {bound : ℚ}

namespace Pool

variable {p p' : Pool} {waived : Money} {period : WaivedPeriod}

/-- A pool of fine amounts that are not larger, all together, than a bound. -/
structure Fits (bound : ℚ) (p : Pool) : Prop where
  pending : ∀ a ∈ p.pending.flatMap InterestWaiver.amounts, a.Fine
  recognized : p.recognized.Fine
  unrecognized : p.unrecognized.Fine
  uncovered : p.uncovered.Fine
  size : |p.recognized.value| + |p.unrecognized.value| + |p.uncovered.value| +
    totalSize (p.pending.flatMap InterestWaiver.amounts) ≤ bound

/-- A waiver is taken up when nothing is left of the last and there is one. -/
theorem refill_cases (h : p.refill = .ok p') :
    (p' = p ∧ ((p.recognized.isPositive || p.unrecognized.isPositive) = true ∨ p.pending = [])) ∨
    ((p.recognized.isPositive || p.unrecognized.isPositive) = false ∧
      ∃ w rest r u, p.pending = w :: rest ∧ p.recognized.add w.recognized = .ok r ∧
        p.unrecognized.add w.unrecognized = .ok u ∧ p' = ⟨rest, r, u, p.uncovered⟩) := by
  simp only [refill] at h
  split at h
  · next hleft => exact .inl ⟨(Except.ok.inj h).symm, .inl hleft⟩
  · next hdry =>
    split at h
    · next hnil => exact .inl ⟨(Except.ok.inj h).symm, .inr hnil⟩
    · next w rest hpending =>
      obtain ⟨r, hr, hrest⟩ := bind_eq_ok.mp h
      obtain ⟨u, hu, hp'⟩ := bind_eq_ok.mp hrest
      exact .inr ⟨eq_false_of_ne_true hdry, w, rest, r, u, hpending, hr, hu,
        (pure_eq_ok.mp hp').symm⟩

/-- The waiver that is taken up is added exactly. -/
theorem Fits.takeUp (hp : p.Fits bound) (hbound : bound < Money.room) {w : InterestWaiver}
    {rest : List InterestWaiver} {r u : Money} (hpending : p.pending = w :: rest)
    (hr : p.recognized.add w.recognized = .ok r) (hu : p.unrecognized.add w.unrecognized = .ok u) :
    (⟨rest, r, u, p.uncovered⟩ : Pool).Fits bound ∧
      r.value = p.recognized.value + w.recognized.value ∧
      u.value = p.unrecognized.value + w.unrecognized.value := by
  have hfine := hp.pending
  have hsize := hp.size
  rw [hpending, List.flatMap_cons] at hfine hsize
  rw [totalSize_append, InterestWaiver.amounts, totalSize_cons, totalSize_cons, totalSize_nil]
    at hsize
  have hrest := totalSize_nonneg (rest.flatMap InterestWaiver.amounts)
  have hrecognized := abs_add_le p.recognized.value w.recognized.value
  have hunrecognized := abs_add_le p.unrecognized.value w.unrecognized.value
  have h₁ := abs_nonneg p.recognized.value
  have h₂ := abs_nonneg p.unrecognized.value
  have h₃ := abs_nonneg p.uncovered.value
  have h₄ := abs_nonneg w.recognized.value
  have h₅ := abs_nonneg w.unrecognized.value
  obtain ⟨hrFine, hrValue⟩ := Money.add_value hr hp.recognized
    (hfine _ (List.mem_append_left _ (by simp [InterestWaiver.amounts]))) (by linarith)
  obtain ⟨huFine, huValue⟩ := Money.add_value hu hp.unrecognized
    (hfine _ (List.mem_append_left _ (by simp [InterestWaiver.amounts]))) (by linarith)
  refine ⟨⟨fun a ha => hfine a (List.mem_append_right _ ha), hrFine, huFine, hp.uncovered, ?_⟩,
    hrValue, huValue⟩
  rw [hrValue, huValue]
  linarith

theorem Fits.refill (hp : p.Fits bound) (hbound : bound < Money.room) (h : p.refill = .ok p') :
    p'.Fits bound := by
  rcases refill_cases h with ⟨rfl, -⟩ | ⟨-, w, rest, r, u, hpending, hr, hu, rfl⟩
  · exact hp
  · exact (hp.takeUp hbound hpending hr hu).1

/-- How `x` of waived interest draws on `r` of the recognized and `u` of the unrecognized part. -/
def Draws (r u x r' u' x' : ℚ) : Prop :=
  (x < r ∧ r' = r - x ∧ u' = u ∧ x' = 0) ∨
  (r ≤ x ∧ x - r ≤ u ∧ r' = 0 ∧ u' = u - (x - r) ∧ x' = 0) ∨
  (r ≤ x ∧ u < x - r ∧ r' = 0 ∧ u' = 0 ∧ x' = x - r - u)

theorem Draws.size_le {r u x r' u' x' : ℚ} (h : Draws r u x r' u' x') :
    |r'| + |u'| + |x'| ≤ |r| + |u| + |x| := by
  have hxr := abs_sub x r
  have hrx := abs_sub r x
  rcases h with ⟨-, rfl, rfl, rfl⟩ | ⟨-, -, rfl, rfl, rfl⟩ | ⟨-, -, rfl, rfl, rfl⟩
  · rw [abs_zero]
    linarith
  · have := abs_sub u (x - r)
    rw [abs_zero]
    linarith
  · have := abs_sub (x - r) u
    rw [abs_zero]
    linarith

/-- Covering draws on the parts exactly. -/
theorem Fits.cover (hp : p.Fits bound) (hw : waived.Fine)
    (hroom : bound + |waived.value| < Money.room) (h : p.cover waived = .ok p') :
    p'.Fits (bound + |waived.value|) ∧ p'.pending = p.pending ∧
      Draws p.recognized.value p.unrecognized.value (p.uncovered.value + waived.value)
        p'.recognized.value p'.unrecognized.value p'.uncovered.value := by
  have hsize := hp.size
  have hpending := totalSize_nonneg (p.pending.flatMap InterestWaiver.amounts)
  have hsum := abs_add_le p.uncovered.value waived.value
  have h₁ := abs_nonneg p.recognized.value
  have h₂ := abs_nonneg p.unrecognized.value
  have h₃ := abs_nonneg p.uncovered.value
  have h₄ := abs_nonneg waived.value
  -- the bound follows from the exact values, in all three cases alike
  have hfits : p'.pending = p.pending → p'.recognized.Fine → p'.unrecognized.Fine →
      p'.uncovered.Fine →
      Draws p.recognized.value p.unrecognized.value (p.uncovered.value + waived.value)
        p'.recognized.value p'.unrecognized.value p'.uncovered.value →
      p'.Fits (bound + |waived.value|) := by
    intro hsame hr hu hx hdraws
    have := hdraws.size_le
    refine ⟨hsame ▸ hp.pending, hr, hu, hx, ?_⟩
    rw [hsame]
    linarith
  obtain ⟨x, hx, hrest⟩ := bind_eq_ok.mp h
  obtain ⟨hxFine, hxValue⟩ := Money.add_value hx hp.uncovered hw (by linarith)
  rw [← hxValue] at hsum hfits ⊢
  split at hrest
  · next hlt =>
    obtain ⟨r, hr, hp'⟩ := bind_eq_ok.mp hrest
    have hdiff := abs_sub p.recognized.value x.value
    obtain ⟨hrFine, hrValue⟩ := Money.sub_value hr hp.recognized hxFine (by linarith)
    rw [← pure_eq_ok.mp hp'] at hfits ⊢
    have hdraws : Draws p.recognized.value p.unrecognized.value x.value r.value
        p.unrecognized.value Money.zero.value :=
      .inl ⟨Money.lt_iff_value.mp hlt, hrValue, rfl, Money.value_zero⟩
    exact ⟨hfits rfl hrFine hp.unrecognized Money.fine_zero hdraws, rfl, hdraws⟩
  · next hnlt =>
    have hle : p.recognized.value ≤ x.value := not_lt.mp fun hlt => hnlt (Money.lt_iff_value.mpr hlt)
    obtain ⟨y, hy, hrest⟩ := bind_eq_ok.mp hrest
    have hdiff := abs_sub x.value p.recognized.value
    obtain ⟨hyFine, hyValue⟩ := Money.sub_value hy hxFine hp.recognized (by linarith)
    split at hrest
    · next hyle =>
      obtain ⟨u, hu, hp'⟩ := bind_eq_ok.mp hrest
      have hdiff' := abs_sub p.unrecognized.value y.value
      rw [hyValue] at hdiff'
      obtain ⟨huFine, huValue⟩ := Money.sub_value hu hp.unrecognized hyFine
        (by rw [hyValue]; linarith)
      rw [← pure_eq_ok.mp hp'] at hfits ⊢
      have hyle := Money.le_iff_value.mp hyle
      rw [hyValue] at hyle huValue
      have hdraws : Draws p.recognized.value p.unrecognized.value x.value Money.zero.value
          u.value Money.zero.value :=
        .inr (.inl ⟨hle, hyle, Money.value_zero, huValue, Money.value_zero⟩)
      exact ⟨hfits rfl Money.fine_zero huFine Money.fine_zero hdraws, rfl, hdraws⟩
    · next hynle =>
      have hlt : p.unrecognized.value < y.value :=
        not_le.mp fun hle => hynle (Money.le_iff_value.mpr hle)
      obtain ⟨z, hz, hp'⟩ := bind_eq_ok.mp hrest
      have hdiff' := abs_sub y.value p.unrecognized.value
      rw [hyValue] at hdiff' hlt
      obtain ⟨hzFine, hzValue⟩ := Money.sub_value hz hyFine hp.unrecognized
        (by rw [hyValue]; linarith)
      rw [← pure_eq_ok.mp hp'] at hfits ⊢
      rw [hyValue] at hzValue
      have hdraws : Draws p.recognized.value p.unrecognized.value x.value Money.zero.value
          Money.zero.value z.value :=
        .inr (.inr ⟨hle, hlt, Money.value_zero, Money.value_zero, hzValue⟩)
      exact ⟨hfits rfl Money.fine_zero Money.fine_zero hzFine hdraws, rfl, hdraws⟩

/-- A period that is not due before the row consumes nothing. -/
theorem replay_eq_ok (h : p.replay row period = .ok p') :
    ∃ mid, p.refill = .ok mid ∧
      (if row.dueDate ≤ period.dueDate then p' = mid else mid.cover period.waived = .ok p') := by
  obtain ⟨mid, hmid, hrest⟩ := bind_eq_ok.mp h
  refine ⟨mid, hmid, ?_⟩
  split at hrest
  · next hdue =>
    rw [if_pos hdue]
    exact (pure_eq_ok.mp hrest).symm
  · next hdue =>
    rw [if_neg hdue]
    exact hrest

theorem Fits.replay (hp : p.Fits bound) (hw : period.waived.Fine)
    (hroom : bound + |period.waived.value| < Money.room) (h : p.replay row period = .ok p') :
    p'.Fits (bound + |period.waived.value|) := by
  obtain ⟨mid, hmid, hrest⟩ := replay_eq_ok h
  have habs := abs_nonneg period.waived.value
  have hmidFits := hp.refill (by linarith) hmid
  split at hrest
  · rw [hrest]
    exact { hmidFits with size := by have := hmidFits.size; linarith }
  · exact (hmidFits.cover hw hroom hrest).1

/-- Over a replay, a pool grows by the waived interest of the periods at most. -/
theorem Fits.foldlM {periods : List WaivedPeriod} (hp : p.Fits bound)
    (hw : ∀ period ∈ periods, period.waived.Fine)
    (hroom : bound + totalSize (periods.map (·.waived)) < Money.room)
    (h : periods.foldlM (Pool.replay row) p = .ok p') :
    p'.Fits (bound + totalSize (periods.map (·.waived))) := by
  induction periods generalizing p bound with
  | nil =>
    rw [List.foldlM_nil, pure_eq_ok] at h
    rw [List.map_nil, totalSize_nil, add_zero, ← h]
    exact hp
  | cons period periods ih =>
    obtain ⟨hperiod, hw⟩ := List.forall_mem_cons.mp hw
    rw [List.map_cons, totalSize_cons, ← add_assoc] at hroom ⊢
    have hrest := totalSize_nonneg (periods.map (·.waived))
    rw [List.foldlM_cons, bind_eq_ok] at h
    obtain ⟨mid, hmid, h⟩ := h
    exact ih (hp.replay hperiod (by linarith) hmid) hw hroom h

/-- A pool without negative amounts. -/
structure Nonneg (p : Pool) : Prop where
  pending : ∀ a ∈ p.pending.flatMap InterestWaiver.amounts, 0 ≤ a.value
  recognized : 0 ≤ p.recognized.value
  unrecognized : 0 ≤ p.unrecognized.value
  uncovered : 0 ≤ p.uncovered.value

theorem Nonneg.refill (hn : p.Nonneg) (hp : p.Fits bound) (hbound : bound < Money.room)
    (h : p.refill = .ok p') : p'.Nonneg := by
  rcases refill_cases h with ⟨rfl, -⟩ | ⟨-, w, rest, r, u, hpending, hr, hu, rfl⟩
  · exact hn
  · have hnonneg := hn.pending
    rw [hpending, List.flatMap_cons] at hnonneg
    have hwr : w.recognized ∈ w.amounts ++ rest.flatMap InterestWaiver.amounts :=
      List.mem_append_left _ (by simp [InterestWaiver.amounts])
    have hwu : w.unrecognized ∈ w.amounts ++ rest.flatMap InterestWaiver.amounts :=
      List.mem_append_left _ (by simp [InterestWaiver.amounts])
    obtain ⟨-, hrValue, huValue⟩ := hp.takeUp hbound hpending hr hu
    refine ⟨fun a ha => hnonneg a (List.mem_append_right _ ha), ?_, ?_, hn.uncovered⟩
    · rw [hrValue]
      exact add_nonneg hn.recognized (hnonneg _ hwr)
    · rw [huValue]
      exact add_nonneg hn.unrecognized (hnonneg _ hwu)

theorem Nonneg.cover (hn : p.Nonneg) (hp : p.Fits bound) (hw : waived.Fine)
    (hroom : bound + |waived.value| < Money.room)
    (h : p.cover waived = .ok p') : p'.Nonneg := by
  obtain ⟨-, hpending, hdraws⟩ := hp.cover hw hroom h
  have hr := hn.recognized
  have hu := hn.unrecognized
  have hx := hn.uncovered
  rcases hdraws with ⟨hlt, hr', hu', hx'⟩ | ⟨hle, hle', hr', hu', hx'⟩ | ⟨hle, hlt, hr', hu', hx'⟩
  all_goals exact ⟨hpending ▸ hn.pending, by linarith, by linarith, by linarith⟩

/-- A pool runs like another that has more waivers to come, or it has run dry. -/
def Mirrors (p q : Pool) : Prop :=
  (p = { q with pending := p.pending } ∧ p.pending <+: q.pending) ∨
    (p.pending = [] ∧ p.recognized.value = 0 ∧ p.unrecognized.value = 0)

variable {q q' : Pool}

private theorem value_eq_zero_of_not_isPositive {a : Money} (h : a.isPositive = false)
    (ha : 0 ≤ a.value) : a.value = 0 := by
  refine le_antisymm (not_lt.mp fun hpos => ?_) ha
  rw [(Money.isPositive_iff a).mpr (Money.value_pos_iff.mp hpos)] at h
  cases h

theorem Mirrors.refill (hm : p.Mirrors q) (hn : p.Nonneg) (hp : p.refill = .ok p')
    (hq : q.refill = .ok q') : p'.Mirrors q' := by
  rcases hm with ⟨hsame, hprefix⟩ | ⟨hnil, hr, hu⟩
  · have hrecognized : p.recognized = q.recognized := by rw [hsame]
    have hunrecognized : p.unrecognized = q.unrecognized := by rw [hsame]
    have huncovered : p.uncovered = q.uncovered := by rw [hsame]
    rcases refill_cases hp with ⟨rfl, hstays⟩ | ⟨hdry, w, rest, r, u, hpending, hr, hu, rfl⟩
    · by_cases hleft : (p'.recognized.isPositive || p'.unrecognized.isPositive) = true
      · rcases refill_cases hq with ⟨rfl, -⟩ | ⟨hdry, -⟩
        · exact .inl ⟨hsame, hprefix⟩
        · rw [← hrecognized, ← hunrecognized, hleft] at hdry
          cases hdry
      · obtain ⟨hr, hu⟩ := Bool.or_eq_false_iff.mp (eq_false_of_ne_true hleft)
        exact .inr ⟨hstays.resolve_left hleft, value_eq_zero_of_not_isPositive hr hn.recognized,
          value_eq_zero_of_not_isPositive hu hn.unrecognized⟩
    · rw [hpending] at hprefix
      obtain ⟨extra, hextra⟩ := hprefix
      rcases refill_cases hq with ⟨rfl, hstays⟩ | ⟨-, w', rest', r', u', hpending', hr', hu', rfl⟩
      · rcases hstays with hleft | hnil
        · rw [← hrecognized, ← hunrecognized, hdry] at hleft
          cases hleft
        · rw [hnil] at hextra
          cases hextra
      · rw [hpending'] at hextra
        obtain ⟨rfl, hrest⟩ := List.cons.inj hextra
        rw [← hrecognized, hr] at hr'
        rw [← hunrecognized, hu] at hu'
        rw [Except.ok.inj hr', Except.ok.inj hu', huncovered]
        exact .inl ⟨rfl, extra, hrest⟩
  · rcases refill_cases hp with ⟨rfl, -⟩ | ⟨-, w, rest, r, u, hpending, -⟩
    · exact .inr ⟨hnil, hr, hu⟩
    · rw [hnil] at hpending
      cases hpending

/-- Waivers still to come have no part in covering. -/
private theorem cover_withPending (pending : List InterestWaiver) (hq : q.cover waived = .ok q') :
    ({ q with pending } : Pool).cover waived = .ok { q' with pending } := by
  obtain ⟨x, hx, hrest⟩ := bind_eq_ok.mp hq
  refine bind_eq_ok.mpr ⟨x, hx, ?_⟩
  dsimp only
  split at hrest
  · next hlt =>
    obtain ⟨r, hr, hq'⟩ := bind_eq_ok.mp hrest
    rw [if_pos hlt, hr, ← pure_eq_ok.mp hq']
    rfl
  · next hnlt =>
    obtain ⟨y, hy, hrest⟩ := bind_eq_ok.mp hrest
    rw [if_neg hnlt]
    refine bind_eq_ok.mpr ⟨y, hy, ?_⟩
    split at hrest
    · next hle =>
      obtain ⟨u, hu, hq'⟩ := bind_eq_ok.mp hrest
      rw [if_pos hle, hu, ← pure_eq_ok.mp hq']
      rfl
    · next hnle =>
      obtain ⟨z, hz, hq'⟩ := bind_eq_ok.mp hrest
      rw [if_neg hnle, hz, ← pure_eq_ok.mp hq']
      rfl

theorem Mirrors.cover (hm : p.Mirrors q) (hn : p.Nonneg) (hfits : p.Fits bound) (hw : waived.Fine)
    (hwNonneg : 0 ≤ waived.value) (hroom : bound + |waived.value| < Money.room)
    (hp : p.cover waived = .ok p') (hq : q.cover waived = .ok q') : p'.Mirrors q' := by
  obtain ⟨-, hpending, hdraws⟩ := hfits.cover hw hroom hp
  rcases hm with ⟨hsame, hprefix⟩ | ⟨hnil, hr, hu⟩
  · rw [hsame, cover_withPending p.pending hq] at hp
    have hqPending : q'.pending = q.pending := by
      have hself := cover_withPending q.pending hq
      have heq : ({ q' with pending := q.pending } : Pool) = q' :=
        Except.ok.inj (hself.symm.trans hq)
      exact (congrArg Pool.pending heq).symm
    rw [← Except.ok.inj hp]
    exact .inl ⟨rfl, hqPending ▸ hprefix⟩
  · refine .inr ⟨hpending.trans hnil, ?_⟩
    have hx := hn.uncovered
    rw [hr, hu] at hdraws
    rcases hdraws with ⟨hlt, -⟩ | ⟨-, hle, hr', hu', -⟩ | ⟨-, -, hr', hu', -⟩
    · linarith
    · exact ⟨hr', by linarith⟩
    · exact ⟨hr', hu'⟩

theorem Mirrors.foldlM {periods : List WaivedPeriod} (hm : p.Mirrors q) (hpFits : p.Fits bound)
    (hqFits : q.Fits bound) (hpNonneg : p.Nonneg) (hqNonneg : q.Nonneg)
    (hw : ∀ period ∈ periods, period.waived.Fine ∧ 0 ≤ period.waived.value)
    (hroom : bound + totalSize (periods.map (·.waived)) < Money.room)
    (hp : periods.foldlM (Pool.replay row) p = .ok p')
    (hq : periods.foldlM (Pool.replay row) q = .ok q') :
    p'.recognized.value ≤ q'.recognized.value := by
  induction periods generalizing p q bound with
  | nil =>
    rw [List.foldlM_nil, pure_eq_ok] at hp hq
    rw [← hp, ← hq]
    rcases hm with ⟨hsame, -⟩ | ⟨-, hr, -⟩
    · exact le_of_eq (congrArg (·.recognized.value) hsame)
    · rw [hr]
      exact hqNonneg.recognized
  | cons period periods ih =>
    obtain ⟨⟨hperiod, hperiodNonneg⟩, hw⟩ := List.forall_mem_cons.mp hw
    rw [List.map_cons, totalSize_cons, ← add_assoc] at hroom
    have hrest := totalSize_nonneg (periods.map (·.waived))
    have habs := abs_nonneg period.waived.value
    rw [List.foldlM_cons, bind_eq_ok] at hp hq
    obtain ⟨p₁, hp₁, hp⟩ := hp
    obtain ⟨q₁, hq₁, hq⟩ := hq
    have hp₁Fits := hpFits.replay hperiod (by linarith) hp₁
    have hq₁Fits := hqFits.replay hperiod (by linarith) hq₁
    obtain ⟨pm, hpm, hp₁⟩ := replay_eq_ok hp₁
    obtain ⟨qm, hqm, hq₁⟩ := replay_eq_ok hq₁
    have hpmNonneg := hpNonneg.refill hpFits (by linarith) hpm
    have hqmNonneg := hqNonneg.refill hqFits (by linarith) hqm
    have hmirrors := hm.refill hpNonneg hpm hqm
    have hpmFits := hpFits.refill (by linarith) hpm
    have hqmFits := hqFits.refill (by linarith) hqm
    by_cases hdue : row.dueDate ≤ period.dueDate
    · rw [if_pos hdue] at hp₁ hq₁
      rw [hp₁] at hp hp₁Fits
      rw [hq₁] at hq hq₁Fits
      exact ih hmirrors hp₁Fits hq₁Fits hpmNonneg hqmNonneg hw hroom hp hq
    · rw [if_neg hdue] at hp₁ hq₁
      have hroom' : bound + |period.waived.value| < Money.room := by linarith
      exact ih
        (hmirrors.cover hpmNonneg hpmFits hperiod hperiodNonneg hroom' hp₁ hq₁) hp₁Fits hq₁Fits
        (hpmNonneg.cover hpmFits hperiod hroom' hp₁)
        (hqmNonneg.cover hqmFits hperiod hroom' hq₁) hw hroom hp hq

end Pool
end LoanLedger.ReconciledInterest
