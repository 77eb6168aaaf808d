import LoanLedger.Proofs.Money.Exact
import LoanLedger.Proofs.Money.Fit
import LoanLedger.Proofs.Money.Rounding

/-!
A share of an amount never exceeds it. The quotient for one day may be too large by a unit of its
last place, but the days of a period are so few, and the quotient has so many digits, that the
product for fewer days than the whole stays below the amount.
-/

set_option autoImplicit false
set_option relaxedAutoImplicit false

namespace LoanLedger.Money

theorem room_spec {q : Quotient} (hq : q.digits < limit) :
    q.room false ≤ 9 ∧ (q.room false : Int) ≤ (28 - q.places).toNat ∧
      (q.room false = 0 → 28 ≤ q.places ∨ limit ≤ q.digits * 10) := by
  obtain ⟨most, hmost⟩ : ∃ most, most = Min.min 9 (28 - q.places).toNat := ⟨_, rfl⟩
  have hmost9 : most ≤ 9 := hmost ▸ Nat.min_le_left _ _
  have hmost28 : most ≤ (28 - q.places).toNat := hmost ▸ Nat.min_le_right _ _
  have hroom : q.room false =
      ((List.range (most + 1)).reverse.find? fun p => q.digits * tenTo p < limit).getD 0 := by
    rw [hmost]
    rfl
  have hlist : (List.range (most + 1)).reverse = ((List.range most).map Nat.succ).reverse ++ [0] := by
    rw [List.range_succ_eq_map, List.reverse_cons]
  rw [hlist, List.find?_append] at hroom
  cases hfind : ((List.range most).map Nat.succ).reverse.find?
      (fun p => decide (q.digits * tenTo p < limit)) with
  | some p =>
    rw [hfind] at hroom
    have hp : q.room false = p := hroom
    have hmem := List.mem_of_find?_eq_some hfind
    rw [List.mem_reverse, List.mem_map] at hmem
    obtain ⟨k, hk, rfl⟩ := hmem
    have hk := List.mem_range.mp hk
    rw [hp]
    refine ⟨by omega, by omega, fun h => absurd h (Nat.succ_ne_zero k)⟩
  | none =>
    rw [hfind, Option.none_or] at hroom
    have hzero : q.room false = 0 := by
      rw [hroom, List.find?_cons_of_pos (by simpa using hq)]
      rfl
    rw [hzero]
    refine ⟨by omega, by omega, fun _ => ?_⟩
    -- No power fits: there are no places left, or already the first is too large.
    rcases Nat.eq_zero_or_pos most with hnone | hsome
    · left
      omega
    · right
      have hone : 1 ∈ ((List.range most).map Nat.succ).reverse :=
        List.mem_reverse.mpr (List.mem_map.mpr ⟨0, List.mem_range.mpr hsome, rfl⟩)
      have hfail := List.find?_eq_none.mp hfind 1 hone
      rw [decide_eq_true_eq, Nat.not_lt] at hfail
      exact hfail

private theorem shorten_spec {q q' : Quotient} {more : Bool} (h : q.shorten? more = some q') :
    0 < q.places ∧ q'.places = q.places - 1 ∧ 10 * q'.digits ≤ q.digits + 5 ∧
      q.digits ≤ 10 * q'.digits + 9 := by
  simp only [Quotient.shorten?] at h
  split at h
  · cases h
  · next hplaces =>
    have h := Option.some.inj h
    have hdigits := congrArg Quotient.digits h
    have hq' := congrArg Quotient.places h
    dsimp only at hdigits hq'
    refine ⟨Int.not_le.mp hplaces, hq'.symm, ?_, ?_⟩
    · split at hdigits
      · next hup =>
        have hr : 5 ≤ q.digits % 10 := by
          rcases hup with hup | ⟨hup, -⟩ <;> omega
        omega
      · omega
    · split at hdigits <;> omega

/-- The digits `m` with `s` decimal places are a quotient by `b` of the amount `y / u`: exact, or less
than a unit away from it and then with all the digits that there is room for. -/
structure NearQuotient (u b y m s : Nat) : Prop where
  places_le : s ≤ 28
  le : m * b * u ≤ y * 10 ^ s + b * u
  ge : y * 10 ^ s ≤ m * b * u + b * u
  tight : m * b * u = y * 10 ^ s ∨ s = 28 ∨ limit ≤ 10 * m + 10

private theorem near_of_shorten {u b y s : Nat} {q q' : Quotient} {more : Bool}
    (h : q.shorten? more = some q') (hs : q.places = (s : Int)) (hs28 : s ≤ 28)
    (hle : q.digits * b * u ≤ y * 10 ^ s + b * u) (hge : y * 10 ^ s ≤ q.digits * b * u + b * u)
    (hlimit : limit ≤ q.digits) :
    ∃ s' : Nat, q'.places = s' ∧ NearQuotient u b y q'.digits s' := by
  obtain ⟨hpos, hplaces, hup, hdown⟩ := shorten_spec h
  obtain ⟨s', rfl⟩ : ∃ s', s = s' + 1 := ⟨s - 1, by omega⟩
  have hpow : y * 10 ^ (s' + 1) = 10 * (y * 10 ^ s') := by ring
  rw [hpow] at hle hge
  refine ⟨s', by omega, ⟨by omega, ?_, ?_, .inr (.inr (by omega))⟩⟩
  · have hmul : 10 * q'.digits * (b * u) ≤ (q.digits + 5) * (b * u) :=
      Nat.mul_le_mul_right _ hup
    have hten : 10 * (q'.digits * b * u) ≤ 10 * (y * 10 ^ s' + b * u) := by
      calc 10 * (q'.digits * b * u) = 10 * q'.digits * (b * u) := by ring
        _ ≤ (q.digits + 5) * (b * u) := hmul
        _ = q.digits * b * u + 5 * (b * u) := by ring
        _ ≤ 10 * (y * 10 ^ s' + b * u) := by omega
    exact Nat.le_of_mul_le_mul_left hten (by decide)
  · have hmul : (q.digits + 1) * (b * u) ≤ (10 * q'.digits + 10) * (b * u) :=
      Nat.mul_le_mul_right _ (by omega)
    have hten : 10 * (y * 10 ^ s') ≤ 10 * (q'.digits * b * u + b * u) := by
      calc 10 * (y * 10 ^ s') ≤ q.digits * b * u + b * u := hge
        _ = (q.digits + 1) * (b * u) := by ring
        _ ≤ (10 * q'.digits + 10) * (b * u) := hmul
        _ = 10 * (q'.digits * b * u + b * u) := by ring
    exact Nat.le_of_mul_le_mul_left hten (by decide)

theorem room_fits {q : Quotient} (hq : q.digits < limit) :
    q.digits * tenTo (q.room false) < limit := by
  obtain ⟨o, ho⟩ : ∃ o, o = (List.range (Min.min 9 (28 - q.places).toNat + 1)).reverse.find?
      fun p => decide (q.digits * tenTo p < limit) := ⟨_, rfl⟩
  have hroom : q.room false = o.getD 0 := by
    rw [ho]
    rfl
  cases o with
  | none =>
    rw [hroom, Option.getD_none, tenTo_zero, Nat.mul_one]
    exact hq
  | some p =>
    rw [hroom, Option.getD_some]
    have hfound := List.find?_some ho.symm
    exact of_decide_eq_true hfound

/-! One step of long division from a quotient that is not whole any more. -/

/-- A quotient with `p` digits more, found from the remainder `r`. -/
def Quotient.lifted (b : Nat) (q : Quotient) (r p : Nat) : Quotient :=
  ⟨q.digits * tenTo p + r * tenTo p / b, q.places + p, true⟩

/-- A quotient without room for a digit more: the remainder `r` decides its last digit. -/
def Quotient.settled? (b : Nat) (q : Quotient) (r : Nat) : Option Quotient :=
  if b < 2 * r ∨ (2 * r = b ∧ q.digits % 2 = 1) then
    if q.digits + 1 < limit then some ⟨q.digits + 1, q.places, true⟩
    else Quotient.shorten? ⟨q.digits + 1, q.places, true⟩ true
  else some ⟨q.digits, q.places, true⟩

section Step

variable {b steps s r : Nat} {q : Quotient}

theorem develop_of_no_remainder (hs : q.places = (s : Int)) :
    Quotient.develop b (steps + 1) q 0 = some q := by
  unfold Quotient.develop
  rw [if_pos ⟨rfl, by omega⟩]

/-- With a remainder left, a step settles the last digit or lifts the quotient, and then either goes
on or drops the digit too many. -/
theorem develop_of_remainder (hs : q.places = (s : Int)) (hq : q.digits < limit) (hr0 : r ≠ 0) :
    Quotient.develop b (steps + 1) q r =
      if q.room false = 0 then q.settled? b r
      else if (q.lifted b r (q.room false)).digits < limit then
        Quotient.develop b steps (q.lifted b r (q.room false)) (r * tenTo (q.room false) % b)
      else (q.lifted b r (q.room false)).shorten?
        (r * tenTo (q.room false) % b != 0 || isWide b) := by
  have hzero : (r == 0) = false := beq_false_of_ne hr0
  have hinexact : (q.inexact || r != 0) = true := by rw [bne_iff_ne.mpr hr0, Bool.or_true]
  rw [Quotient.develop, if_neg fun h => hr0 h.1, hzero, hinexact]
  dsimp only
  -- the whole part is there, and what is lifted has room
  rw [if_neg (by omega), if_neg (Nat.not_le.mpr (room_fits hq))]
  rfl

/-- A step keeps the number that the digits and the remainder stand for. -/
private theorem lifted_remainder {u y : Nat} (p : Nat)
    (hinv : (q.digits * b + r) * u = y * 10 ^ s) :
    ((q.lifted b r p).digits * b + r * tenTo p % b) * u = y * 10 ^ (s + p) := by
  have hlifted : (q.lifted b r p).digits * b + r * tenTo p % b = (q.digits * b + r) * tenTo p := by
    calc (q.digits * tenTo p + r * tenTo p / b) * b + r * tenTo p % b
        = q.digits * tenTo p * b + (b * (r * tenTo p / b) + r * tenTo p % b) := by ring
      _ = q.digits * tenTo p * b + r * tenTo p := by rw [Nat.div_add_mod]
      _ = (q.digits * b + r) * tenTo p := by ring
  rw [hlifted, Nat.mul_right_comm, hinv, tenTo_eq_pow, pow_add, Nat.mul_assoc]

theorem lifted_places (p : Nat) (hs : q.places = (s : Int)) :
    (q.lifted b r p).places = ((s + p : Nat) : Int) := by
  show q.places + (p : Int) = _
  push_cast
  omega

end Step

/-- A quotient whose last digit the remainder decides is near when there is no room for more. -/
private theorem near_of_settled {u b y s r : Nat} {q q' : Quotient} (h : q.settled? b r = some q')
    (hs : q.places = (s : Int)) (hs28 : s ≤ 28) (hr : r < b)
    (hinv : (q.digits * b + r) * u = y * 10 ^ s) (hfull : s = 28 ∨ limit ≤ q.digits * 10) :
    ∃ s' : Nat, q'.places = s' ∧ NearQuotient u b y q'.digits s' := by
  have hlow : q.digits * b * u ≤ y * 10 ^ s := by
    rw [← hinv]
    exact Nat.mul_le_mul_right u (Nat.le_add_right _ r)
  have hhigh : y * 10 ^ s ≤ q.digits * b * u + b * u := by
    rw [← hinv, Nat.add_mul]
    exact Nat.add_le_add_left (Nat.mul_le_mul_right u hr.le) _
  have hsucc : (q.digits + 1) * b * u = q.digits * b * u + b * u := by ring
  unfold Quotient.settled? at h
  split at h
  · split at h
    · rw [← Option.some.inj h]
      refine ⟨s, hs, hs28, ?_, ?_, .inr ?_⟩ <;> dsimp only <;> omega
    · next hover =>
      refine near_of_shorten h hs hs28 ?_ ?_ (Nat.not_lt.mp hover) <;> dsimp only <;> omega
  · rw [← Option.some.inj h]
    refine ⟨s, hs, hs28, ?_, hhigh, .inr ?_⟩ <;> dsimp only <;> omega

/-- Long division comes near the quotient, whenever it ends. -/
theorem develop_near {u b y steps s r : Nat} {q q' : Quotient}
    (h : Quotient.develop b steps q r = some q') (hs : q.places = (s : Int)) (hs28 : s ≤ 28)
    (hq : q.digits < limit) (hr : r < b) (hinv : (q.digits * b + r) * u = y * 10 ^ s) :
    ∃ s' : Nat, q'.places = s' ∧ NearQuotient u b y q'.digits s' := by
  induction steps generalizing q r s with
  | zero => cases h
  | succ steps ih =>
    by_cases hr0 : r = 0
    · rw [hr0, develop_of_no_remainder hs] at h
      rw [hr0, Nat.add_zero] at hinv
      rw [← Option.some.inj h]
      exact ⟨s, hs, hs28, by omega, by omega, .inl hinv⟩
    · rw [develop_of_remainder hs hq hr0] at h
      obtain ⟨-, hp28, hp0⟩ := room_spec hq
      split at h
      · next hfull =>
        refine near_of_settled h hs hs28 hr hinv ?_
        rcases hp0 hfull with h28 | hlimit
        · left
          omega
        · exact .inr hlimit
      · have hlifted := lifted_places (b := b) (r := r) (q.room false) hs
        have hinv' := lifted_remainder (q.room false) hinv
        have hr' : r * tenTo (q.room false) % b < b := Nat.mod_lt _ (Nat.zero_lt_of_lt hr)
        split at h
        · next hfits => exact ih h hlifted (by omega) hfits hr' hinv'
        · next hover =>
          refine near_of_shorten h hlifted (by omega) ?_ ?_ (Nat.not_lt.mp hover)
          · rw [← hinv', Nat.add_mul _ _ u]
            omega
          · rw [← hinv', Nat.add_mul _ _ u]
            exact Nat.add_le_add_left (Nat.mul_le_mul_right u hr'.le) _

/-- Two pairs of digits and decimal places stand for the same number. -/
private def SameNumber (x x' : Nat × Nat) : Prop := x'.1 * 10 ^ x.2 = x.1 * 10 ^ x'.2 ∧ x'.2 ≤ x.2

private theorem sameNumber_trans {x x' x'' : Nat × Nat} (h : SameNumber x x')
    (h' : SameNumber x' x'') : SameNumber x x'' := by
  refine ⟨?_, h'.2.trans h.2⟩
  have hpos : 0 < 10 ^ x'.2 := by positivity
  apply Nat.eq_of_mul_eq_mul_right hpos
  calc x''.1 * 10 ^ x.2 * 10 ^ x'.2 = x''.1 * 10 ^ x'.2 * 10 ^ x.2 := by ring
    _ = x'.1 * 10 ^ x.2 * 10 ^ x''.2 := by rw [h'.1]; ring
    _ = x.1 * 10 ^ x''.2 * 10 ^ x'.2 := by rw [h.1]; ring

private theorem sameNumber_divide {q s k : Nat} (hk : k ≤ s) (hq : q % tenTo k = 0) :
    SameNumber (q, s) (q / tenTo k, s - k) := by
  refine ⟨?_, Nat.sub_le s k⟩
  have hmul : q / tenTo k * tenTo k = q := Nat.div_mul_cancel (Nat.dvd_of_mod_eq_zero hq)
  have hsplit : 10 ^ s = tenTo k * 10 ^ (s - k) := by
    rw [tenTo_eq_pow, ← pow_add, Nat.add_sub_of_le hk]
  dsimp only
  rw [hsplit, ← Nat.mul_assoc, hmul]

private theorem sameNumber_dropZeros (k : Nat) (x : Nat × Nat) : SameNumber x (dropZeros k x) := by
  obtain ⟨q, s⟩ := x
  simp only [dropZeros]
  split
  · next h => exact sameNumber_divide h.1 h.2
  · exact ⟨rfl, Nat.le_refl s⟩

private theorem sameNumber_dropEights (n : Nat) (x : Nat × Nat) :
    SameNumber x (dropEights n x) := by
  induction n generalizing x with
  | zero => exact ⟨rfl, Nat.le_refl _⟩
  | succ n ih =>
    obtain ⟨q, s⟩ := x
    simp only [dropEights]
    split
    · next h => exact sameNumber_trans (sameNumber_divide h.2.1 h.2.2) (ih _)
    · exact ⟨rfl, Nat.le_refl s⟩

private theorem sameNumber_stripInexact (x : Nat × Nat) : SameNumber x (stripInexact x) :=
  sameNumber_trans (sameNumber_trans (sameNumber_trans (sameNumber_dropEights 3 x)
    (sameNumber_dropZeros 4 _)) (sameNumber_dropZeros 2 _)) (sameNumber_dropZeros 1 _)

theorem stripInexact_le (x : Nat × Nat) :
    (stripInexact x).1 ≤ x.1 ∧ (stripInexact x).2 ≤ x.2 := by
  obtain ⟨hsame, hplaces⟩ := sameNumber_stripInexact x
  have hpos : 0 < 10 ^ x.2 := by positivity
  refine ⟨Nat.le_of_mul_le_mul_right ?_ hpos, hplaces⟩
  rw [hsame]
  exact Nat.mul_le_mul_left _ (Nat.pow_le_pow_right (by decide) hplaces)

/-- A quotient by a whole number has the digits that long division gives, but for zeros at its end. -/
theorem div_developed {a b c : Money} (hb : b.scale = 0) (ha : a.mantissa ≠ 0)
    (h : a.div b = .ok c) : 0 < b.mantissa ∧ ∃ q,
      Quotient.develop b.mantissa 57 ⟨a.mantissa / b.mantissa, (a.scale : Int), false⟩
        (a.mantissa % b.mantissa) = some q ∧
      ∀ s : Nat, q.places = s → c.mantissa * 10 ^ s = q.digits * 10 ^ c.scale ∧
        (c.negative = true → (a.negative != b.negative) = true) := by
  unfold div at h
  split at h
  · cases h
  · next hb0 =>
    dsimp only at h
    rw [hb, Nat.cast_zero, Int.sub_zero] at h
    split at h
    · cases h
    · next q hdevelop =>
      refine ⟨Nat.pos_of_ne_zero hb0, q, hdevelop, fun s hs => ?_⟩
      have hs : q.places.toNat = s := by rw [hs, Int.toNat_natCast]
      obtain ⟨x, hx⟩ : ∃ x, x = if q.inexact = true then stripInexact (q.digits, q.places.toNat)
          else (q.digits, q.places.toNat) := ⟨_, rfl⟩
      have hsame : SameNumber (q.digits, s) x := by
        rw [hx, hs]
        split
        · exact sameNumber_stripInexact _
        · exact ⟨rfl, Nat.le_refl s⟩
      rw [← hx] at h
      obtain ⟨m', s'⟩ := x
      dsimp only at h
      split at h
      · next d hd =>
        obtain ⟨hnegative, hmantissa, hscale⟩ := ofParts?_eq_some hd
        rw [← Except.ok.inj h]
        refine ⟨?_, ?_⟩
        · rw [hmantissa, hscale]
          exact hsame.1
        · intro hneg
          rw [hnegative] at hneg
          exact (Bool.and_eq_true_iff.mp hneg).1
      · cases h

/-- The quotient by a whole number comes near. -/
theorem div_near {u y : Nat} {a b c : Money} (hb : b.scale = 0) (ha : a.mantissa ≠ 0)
    (hu : a.mantissa * u = y * 10 ^ a.scale) (h : a.div b = .ok c) :
    ∃ m s, NearQuotient u b.mantissa y m s ∧ c.mantissa * 10 ^ s = m * 10 ^ c.scale ∧
      (c.negative = true → (a.negative != b.negative) = true) := by
  obtain ⟨hpos, q, hdevelop, hc⟩ := div_developed hb ha h
  have hdigits : a.mantissa / b.mantissa < limit :=
    Nat.lt_of_le_of_lt (Nat.div_le_self _ _) a.mantissa_lt
  have hinv : (a.mantissa / b.mantissa * b.mantissa + a.mantissa % b.mantissa) * u =
      y * 10 ^ a.scale := by
    rw [Nat.mul_comm (a.mantissa / b.mantissa), Nat.div_add_mod, hu]
  obtain ⟨s, hs, hnear⟩ := develop_near hdevelop rfl a.scale_le hdigits (Nat.mod_lt _ hpos) hinv
  obtain ⟨hsame, hsign⟩ := hc s hs
  exact ⟨q.digits, s, hnear, hsame, hsign⟩

/-! A quotient that is an amount is found as it is. -/

section Exact

variable {b d r m sm s : Nat}

private theorem no_remainder (hr : r < b) (hinv : (d * b + r) * 10 ^ sm = m * b * 10 ^ s)
    (hs : sm ≤ s) : r = 0 ∧ d = m * 10 ^ (s - sm) := by
  have hsplit : 10 ^ s = 10 ^ (s - sm) * 10 ^ sm := by rw [← pow_add, Nat.sub_add_cancel hs]
  rw [hsplit, ← Nat.mul_assoc] at hinv
  have hwhole : d * b + r = m * 10 ^ (s - sm) * b := by
    rw [Nat.mul_right_comm]
    exact Nat.eq_of_mul_eq_mul_right (by positivity) hinv
  have hr0 : r = 0 := by
    calc r = (d * b + r) % b := by rw [Nat.mul_add_mod_self_right, Nat.mod_eq_of_lt hr]
      _ = 0 := by rw [hwhole, Nat.mul_mod_left]
  rw [hr0, Nat.add_zero] at hwhole
  exact ⟨hr0, Nat.eq_of_mul_eq_mul_right (Nat.zero_lt_of_lt hr) hwhole⟩

private theorem digits_le (hr : r < b) (hinv : (d * b + r) * 10 ^ sm = m * b * 10 ^ s)
    (hs : s < sm) : d * 10 ≤ m := by
  obtain ⟨k, rfl⟩ : ∃ k, sm = k + 1 + s := ⟨sm - s - 1, by omega⟩
  rw [pow_add, ← Nat.mul_assoc] at hinv
  have hwhole := Nat.eq_of_mul_eq_mul_right (Nat.pow_pos (by decide : 0 < 10)) hinv
  have hten : 10 ≤ 10 ^ (k + 1) := Nat.le_self_pow (Nat.succ_ne_zero k) 10
  refine Nat.le_of_mul_le_mul_right ?_ (Nat.zero_lt_of_lt hr)
  calc d * 10 * b = d * b * 10 := Nat.mul_right_comm d 10 b
    _ ≤ (d * b + r) * 10 ^ (k + 1) := Nat.mul_le_mul (Nat.le_add_right _ r) hten
    _ = m * b := hwhole

private theorem shorten_zero {q q' : Quotient} {more : Bool} {k : Nat}
    (h : q.shorten? more = some q') (hq : q.digits = k * 10) :
    q'.digits = k ∧ q'.places = q.places - 1 := by
  simp only [Quotient.shorten?] at h
  split at h
  · cases h
  · rw [hq, Nat.mul_mod_left, Nat.mul_div_cancel k (by decide), if_neg (by omega)] at h
    rw [← Option.some.inj h]
    exact ⟨rfl, rfl⟩

/-- Long division of a number by one that it is an amount times finds that amount. -/
theorem develop_exact {steps : Nat} {q q' : Quotient}
    (h : Quotient.develop b steps q r = some q') (hs : q.places = (s : Int)) (hr : r < b)
    (hq : q.digits < limit) (hm : m < limit) (hsm : sm ≤ 28)
    (hinv : (q.digits * b + r) * 10 ^ sm = m * b * 10 ^ s) :
    ∃ s' : Nat, q'.places = s' ∧ q'.digits * 10 ^ sm = m * 10 ^ s' := by
  induction steps generalizing q r s with
  | zero => cases h
  | succ steps ih =>
    by_cases hr0 : r = 0
    · rw [hr0, develop_of_no_remainder hs] at h
      rw [hr0, Nat.add_zero] at hinv
      rw [← Option.some.inj h]
      refine ⟨s, hs, Nat.eq_of_mul_eq_mul_right (Nat.zero_lt_of_lt hr) ?_⟩
      rw [Nat.mul_right_comm, hinv, Nat.mul_right_comm]
    · -- while there is a remainder, places of the amount are still missing
      have hmissing : s < sm := by
        by_contra hle
        exact hr0 (no_remainder hr hinv (Nat.not_lt.mp hle)).1
      have hdigits := digits_le hr hinv hmissing
      rw [develop_of_remainder hs hq hr0] at h
      obtain ⟨-, -, hp0⟩ := room_spec hq
      split at h
      · next hfull => rcases hp0 hfull with h28 | hlimit <;> omega
      · have hlifted := lifted_places (b := b) (r := r) (q.room false) hs
        have hinv' := lifted_remainder (q.room false) hinv
        have hr' : r * tenTo (q.room false) % b < b := Nat.mod_lt _ (Nat.zero_lt_of_lt hr)
        split at h
        · next hfits => exact ih h hlifted hr' hfits hinv'
        · next hover =>
          -- digits too many are zeros that the amount does without
          have hplaces : sm < s + q.room false := by
            rcases Nat.lt_or_ge (s + q.room false) sm with hbelow | habove
            · have := digits_le hr' hinv' hbelow
              omega
            · refine habove.lt_of_ne ?_
              intro hsame
              have hall := (no_remainder hr' hinv' habove).2
              rw [← hsame, Nat.sub_self, pow_zero, Nat.mul_one] at hall
              omega
          have hall := (no_remainder hr' hinv' hplaces.le).2
          obtain ⟨k, hk⟩ : ∃ k, s + q.room false = sm + k + 1 :=
            ⟨s + q.room false - sm - 1, by omega⟩
          have hzeros : s + q.room false - sm = k + 1 := by omega
          rw [hzeros, pow_succ, ← Nat.mul_assoc] at hall
          obtain ⟨hfound, hlast⟩ := shorten_zero h hall
          refine ⟨sm + k, ?_, ?_⟩
          · rw [hlast, hlifted, hk]
            push_cast
            omega
          · rw [hfound, Nat.mul_assoc, ← pow_add, Nat.add_comm k]

end Exact

/-- Rounding off places past the tenth does not lift a magnitude above an amount of ten places. -/
private theorem roundEven_mul_le {m s k y : Nat} (hk : k + 10 ≤ s)
    (hm : m * 10 ^ 10 ≤ y * 10 ^ s) : roundEven m k * 10 ^ 10 ≤ y * 10 ^ (s - k) := by
  obtain ⟨i, rfl⟩ : ∃ i, s = i + 10 + k := ⟨s - k - 10, by omega⟩
  have hle : m ≤ y * tenTo i * tenTo k := by
    refine Nat.le_of_mul_le_mul_right ?_ (by positivity : 0 < 10 ^ 10)
    calc m * 10 ^ 10 ≤ y * 10 ^ (i + 10 + k) := hm
      _ = y * tenTo i * tenTo k * 10 ^ 10 := by rw [tenTo_eq_pow, tenTo_eq_pow]; ring
  have hpow : y * 10 ^ (i + 10) = y * tenTo i * 10 ^ 10 := by
    rw [pow_add, ← Nat.mul_assoc, tenTo_eq_pow]
  rw [Nat.add_sub_cancel, hpow]
  exact Nat.mul_le_mul_right _ (roundEven_le hle)

/-- Fitting a magnitude into the digits that there are does not lift it above an amount of ten
decimal places that it does not exceed. -/
private theorem fit?_le {negative : Bool} {m s y : Nat} {c : Money} (hs : s ≤ 28)
    (hy : y < limit) (hm : m * 10 ^ 10 ≤ y * 10 ^ s) (h : fit? negative m s = some c) :
    c.negative = negative ∧ c.mantissa * 10 ^ 10 ≤ y * 10 ^ c.scale := by
  by_cases hlimit : m < limit
  · rw [fit?_of_lt negative hlimit hs] at h
    obtain ⟨hnegative, hmantissa, hscale⟩ := ofParts?_eq_some h
    rw [hmantissa, hscale]
    exact ⟨hnegative, hm⟩
  · -- what has digits too many has more than ten places
    have hten {n j : Nat} (hn : n * 10 ^ 10 ≤ y * 10 ^ j) (hj : j ≤ 10) : n < limit := by
      have hpow : 10 ^ j ≤ 10 ^ 10 := Nat.pow_le_pow_right (by decide) hj
      have hny : n ≤ y :=
        Nat.le_of_mul_le_mul_right (hn.trans (Nat.mul_le_mul_left y hpow)) (by positivity)
      exact Nat.lt_of_le_of_lt hny hy
    have hs10 : 10 < s := Nat.not_le.mp fun hle => hlimit (hten hm hle)
    obtain ⟨hnegative, k, hk, hc⟩ := fit?_cases h
    refine ⟨hnegative, ?_⟩
    have hkj : k + 10 ≤ s := by
      have hall := hten (roundEven_mul_le (k := s - 10) (by omega) hm) (by omega)
      have hfits := Nat.lt_of_le_of_lt (div_le_roundEven m (s - 10)) hall
      have := surplus?_le hs (Nat.sub_le s 10) hfits hk
      omega
    have hq := roundEven_mul_le hkj hm
    rcases hc with ⟨hmantissa, hscale⟩ | ⟨hover, -, hmantissa, hscale⟩
    · rw [hmantissa, hscale]
      exact hq
    · have hmore : 1 + 10 ≤ s - k :=
        Nat.lt_of_not_le fun hle => Nat.not_lt.mpr hover (hten hq hle)
      rw [hmantissa, hscale]
      exact roundEven_mul_le hmore hq

/-- A near quotient, multiplied by less than the divisor, does not exceed the amount. -/
private theorem near_mul_le {b k m s y : Nat} (h : NearQuotient (10 ^ 10) b y m s) (hk : k < b)
    (hb : b ≤ 2 * 10 ^ 8) (hy : 0 < y) : m * k * 10 ^ 10 ≤ y * 10 ^ s := by
  rcases h.tight with hexact | htight
  · calc m * k * 10 ^ 10 ≤ m * b * 10 ^ 10 :=
        Nat.mul_le_mul_right _ (Nat.mul_le_mul_left m hk.le)
      _ = y * 10 ^ s := hexact
  · -- one day less than the whole makes up for the unit by which the quotient may be too large
    have hgap : k * b * 10 ^ 10 ≤ y * 10 ^ s := by
      have hkb : k * b ≤ 2 * 10 ^ 8 * (2 * 10 ^ 8) := Nat.mul_le_mul (hk.le.trans hb) hb
      rcases htight with rfl | hlimit
      · have hpow : 10 ^ 28 ≤ y * 10 ^ 28 := Nat.le_mul_of_pos_left _ hy
        omega
      · have hm : k + 1 ≤ m := by
          simp only [limit] at hlimit
          omega
        have hmul : (k + 1) * (b * 10 ^ 10) ≤ m * (b * 10 ^ 10) := Nat.mul_le_mul_right _ hm
        have hle := h.le
        rw [Nat.mul_assoc] at hle ⊢
        rw [Nat.add_mul, Nat.one_mul] at hmul
        omega
    have hbpos : 0 < b := Nat.lt_of_le_of_lt (Nat.zero_le k) hk
    refine Nat.le_of_mul_le_mul_left ?_ hbpos
    have hmul := Nat.mul_le_mul_left k h.le
    calc b * (m * k * 10 ^ 10) = k * (m * b * 10 ^ 10) := by ring
      _ ≤ k * (y * 10 ^ s + b * 10 ^ 10) := hmul
      _ = k * (y * 10 ^ s) + k * b * 10 ^ 10 := by ring
      _ ≤ k * (y * 10 ^ s) + y * 10 ^ s := Nat.add_le_add_left hgap _
      _ = (k + 1) * (y * 10 ^ s) := by ring
      _ ≤ b * (y * 10 ^ s) := Nat.mul_le_mul_right _ hk

private theorem mul_whole_le {c b p : Money} {y : Nat} (hb : b.scale = 0) (hy : y < limit)
    (hc : c.mantissa * b.mantissa * 10 ^ 10 ≤ y * 10 ^ c.scale) (h : c.mul b = .ok p) :
    p.mantissa * 10 ^ 10 ≤ y * 10 ^ p.scale ∧
      (p.negative = true → (c.negative != b.negative) = true) := by
  have hzero : zero.mantissa * 10 ^ 10 ≤ y * 10 ^ zero.scale := by
    rw [show zero.mantissa = 0 from rfl, Nat.zero_mul]
    exact Nat.zero_le _
  simp only [mul] at h
  split at h
  · rw [← Except.ok.inj h]
    exact ⟨hzero, fun hneg => absurd hneg Bool.false_ne_true⟩
  · split at h
    · rw [← Except.ok.inj h]
      exact ⟨hzero, fun hneg => absurd hneg Bool.false_ne_true⟩
    · rw [hb, Nat.add_zero] at h
      split at h
      · cases h
      · next d hd =>
        obtain ⟨hnegative, hle⟩ := fit?_le c.scale_le hy hc hd
        rw [← Except.ok.inj h]
        split
        · exact ⟨hle, fun hneg => absurd hneg Bool.false_ne_true⟩
        · exact ⟨hle, fun hneg => by rwa [hnegative] at hneg⟩

theorem mantissa_ofInt {d : Int} (hpos : 0 < d) (hd : d ≤ 2 * 10 ^ 8) :
    ((ofInt d).mantissa : Int) = d ∧ (ofInt d).negative = false ∧ (ofInt d).scale = 0 := by
  have hlt : d.natAbs < limit := by
    simp only [limit]
    omega
  refine ⟨?_, decide_eq_false (by omega), rfl⟩
  show ((d.natAbs % limit : Nat) : Int) = d
  rw [Nat.mod_eq_of_lt hlt]
  omega

theorem exists_units {x : Money} (hx : x.Fine) :
    ∃ y : Nat, x.mantissa * 10 ^ 10 = y * 10 ^ x.scale ∧ |x.value| * 10 ^ 10 = y := by
  have hunits : x.mantissa * 10 ^ 10 = x.mantissa * 10 ^ (10 - x.scale) * 10 ^ x.scale := by
    rw [Nat.mul_assoc, ← pow_add, Nat.sub_add_cancel hx]
  refine ⟨x.mantissa * 10 ^ (10 - x.scale), hunits, ?_⟩
  have hne : (10 : ℚ) ^ x.scale ≠ 0 := by positivity
  have hcast : (x.mantissa : ℚ) * 10 ^ 10 =
      ((x.mantissa * 10 ^ (10 - x.scale) : Nat) : ℚ) * 10 ^ x.scale := by exact_mod_cast hunits
  rw [abs_value, div_mul_eq_mul_div, hcast, mul_div_cancel_right₀ _ hne]

theorem units_pos {x : Money} {y : Nat} (hy : x.mantissa * 10 ^ 10 = y * 10 ^ x.scale)
    (hx : x.mantissa ≠ 0) : 0 < y := by
  rcases Nat.eq_zero_or_pos y with rfl | hpos
  · rw [Nat.zero_mul] at hy
    exact absurd ((Nat.mul_eq_zero.mp hy).resolve_right (by positivity)) hx
  · exact hpos

theorem units_lt_limit {x : Money} {y : Nat} (hy : |x.value| * 10 ^ 10 = y)
    (hsize : |x.value| < room) : y < limit := by
  have hlt : (y : ℚ) < (limit : ℚ) := by
    calc (y : ℚ) = |x.value| * 10 ^ 10 := hy.symm
      _ < room * 10 ^ 10 := mul_lt_mul_of_pos_right hsize (by norm_num)
      _ ≤ (limit : ℚ) := by norm_num [room, limit]
  exact_mod_cast hlt

private theorem negative_of_nonneg {x : Money} (h : 0 ≤ x.value) (hx : x.mantissa ≠ 0) :
    x.negative = false := by
  rw [value_nonneg_iff] at h
  simp only [units] at h
  cases hneg : x.negative with
  | false => rfl
  | true =>
    rw [hneg, if_pos rfl] at h
    omega

private theorem nonneg_of_negative {x : Money} (h : x.negative = false) : 0 ≤ x.value := by
  rw [value_nonneg_iff]
  simp only [units]
  rw [h, if_neg Bool.false_ne_true]
  omega

theorem eq_zero_of_div {a b c : Money} (ha : a.mantissa = 0) (h : a.div b = .ok c) :
    c = zero := by
  simp only [div] at h
  split at h
  · cases h
  · exact (Except.ok.inj h).symm

/-- The quotient that is an amount: what the divisor is to be multiplied by. -/
theorem div_exact {a b c q : Money} (hb : b.scale = 0) (hbneg : b.negative = false)
    (ha : 0 ≤ a.value) (hq : q.value * b.value = a.value) (h : a.div b = .ok c) :
    c.value = q.value := by
  have hbValue : b.value = b.mantissa := by
    rw [value, units, hbneg, if_neg Bool.false_ne_true, hb, pow_zero, div_one, Int.cast_natCast]
  by_cases ha0 : a.mantissa = 0
  · have hb0 : b.mantissa ≠ 0 := fun h0 => by
      simp only [div] at h
      rw [if_pos h0] at h
      cases h
    rw [value_eq_zero_iff.mpr ha0, hbValue, mul_eq_zero, Nat.cast_eq_zero] at hq
    rw [eq_zero_of_div ha0 h, value_zero, hq.resolve_right hb0]
  · obtain ⟨hpos, d, hdevelop, hc⟩ := div_developed hb ha0 h
    have hbpos : (0 : ℚ) < b.mantissa := by exact_mod_cast hpos
    have hqNonneg : 0 ≤ q.value := nonneg_of_mul_nonneg_left (hq ▸ ha) (hbValue ▸ hbpos)
    have hinv : (a.mantissa / b.mantissa * b.mantissa + a.mantissa % b.mantissa) * 10 ^ q.scale =
        q.mantissa * b.mantissa * 10 ^ a.scale := by
      rw [Nat.mul_comm (a.mantissa / b.mantissa), Nat.div_add_mod]
      rw [← abs_of_nonneg ha, ← abs_of_nonneg hqNonneg, abs_value, abs_value, hbValue] at hq
      field_simp at hq
      rw [Nat.mul_comm a.mantissa]
      exact_mod_cast hq.symm
    obtain ⟨s, hs, hdigits⟩ := develop_exact hdevelop rfl (Nat.mod_lt _ hpos)
      (Nat.lt_of_le_of_lt (Nat.div_le_self _ _) a.mantissa_lt) q.mantissa_lt q.scale_le hinv
    obtain ⟨hsame, hsign⟩ := hc s hs
    have hcneg : c.negative = false := eq_false_of_ne_true fun hneg => by
      have hsign := hsign hneg
      rw [negative_of_nonneg ha ha0, hbneg] at hsign
      cases hsign
    rw [← abs_of_nonneg (nonneg_of_negative hcneg), ← abs_of_nonneg hqNonneg, abs_value, abs_value,
      div_eq_div_iff (by positivity) (by positivity)]
    have hpow : 0 < 10 ^ s := by positivity
    have hcross : c.mantissa * 10 ^ q.scale = q.mantissa * 10 ^ c.scale := by
      refine Nat.eq_of_mul_eq_mul_right hpow ?_
      rw [Nat.mul_right_comm, hsame, Nat.mul_right_comm, hdigits, Nat.mul_right_comm]
    exact_mod_cast hcross

theorem eq_zero_of_zero_mul {b p : Money} (h : zero.mul b = .ok p) : p = zero := by
  simp only [mul] at h
  rw [if_pos (.inl rfl)] at h
  exact (Except.ok.inj h).symm

/-- The quotient for one day is near, and for fewer days than the whole it stays below the amount. -/
theorem days_of_div {x c : Money} {whole : Int} {y : Nat} (part : Int)
    (hunits : x.mantissa * 10 ^ 10 = y * 10 ^ x.scale) (hx0 : x.mantissa ≠ 0) (hpart : 0 < part)
    (hlt : part < whole) (hwhole : whole ≤ 2 * 10 ^ 8) (hdiv : x.div (ofInt whole) = .ok c) :
    (∃ m s, NearQuotient (10 ^ 10) (ofInt whole).mantissa y m s ∧
      c.mantissa * 10 ^ s = m * 10 ^ c.scale) ∧
    c.mantissa * (ofInt part).mantissa * 10 ^ 10 ≤ y * 10 ^ c.scale ∧
    (c.negative = true → x.negative = true) := by
  obtain ⟨hb, hbneg, hbscale⟩ := mantissa_ofInt (d := whole) (by omega) hwhole
  obtain ⟨hk, hkneg, hkscale⟩ := mantissa_ofInt (d := part) hpart (by omega)
  obtain ⟨m, s, hnear, hsame, hcneg⟩ := div_near hbscale hx0 hunits hdiv
  have hle := near_mul_le (k := (ofInt part).mantissa) hnear (by omega) (by omega) (units_pos hunits hx0)
  refine ⟨⟨m, s, hnear, hsame⟩, ?_, fun hneg => ?_⟩
  · have hpos : 0 < 10 ^ s := by positivity
    refine Nat.le_of_mul_le_mul_right ?_ hpos
    calc c.mantissa * (ofInt part).mantissa * 10 ^ 10 * 10 ^ s
        = c.mantissa * 10 ^ s * ((ofInt part).mantissa * 10 ^ 10) := by ring
      _ = m * (ofInt part).mantissa * 10 ^ 10 * 10 ^ c.scale := by rw [hsame]; ring
      _ ≤ y * 10 ^ s * 10 ^ c.scale := Nat.mul_le_mul_right _ hle
      _ = y * 10 ^ c.scale * 10 ^ s := by ring
  · have hsign := hcneg hneg
    rwa [hbneg, Bool.bne_false] at hsign

/-- A share of an amount is not larger than the amount, and lies on the same side of zero. -/
theorem prorate_le {x p : Money} {part whole : Int} (hx : x.Fine) (hsize : |x.value| < room)
    (hwhole : whole ≤ 2 * 10 ^ 8) (h : x.prorate part whole = .ok p) :
    |p.value| ≤ |x.value| ∧ (0 ≤ x.value → 0 ≤ p.value) := by
  simp only [prorate] at h
  split at h
  · rw [← Except.ok.inj h]
    exact ⟨le_rfl, id⟩
  · next hlong =>
    split at h
    · rw [← Except.ok.inj h, value_zero, abs_zero]
      exact ⟨abs_nonneg _, fun _ => le_rfl⟩
    · next hpart =>
      obtain ⟨c, hdiv, hmul⟩ := bind_eq_ok.mp h
      -- Zero has no digits to develop and is divided apart.
      by_cases hx0 : x.mantissa = 0
      · rw [eq_zero_of_div hx0 hdiv] at hmul
        rw [eq_zero_of_zero_mul hmul, value_zero, abs_zero]
        exact ⟨abs_nonneg _, fun _ => le_rfl⟩
      · obtain ⟨hk, hkneg, hkscale⟩ := mantissa_ofInt (d := part) (by omega) (by omega)
        obtain ⟨y, hunits, hvalue⟩ := exists_units hx
        obtain ⟨-, hc, hcneg⟩ :=
          days_of_div part hunits hx0 (by omega) (by omega) hwhole hdiv
        obtain ⟨hple, hpneg⟩ := mul_whole_le hkscale (units_lt_limit hvalue hsize) hc hmul
        constructor
        · have hpos : (0 : ℚ) < 10 ^ p.scale := by positivity
          have hcast : (p.mantissa : ℚ) * 10 ^ 10 ≤ y * 10 ^ p.scale := by exact_mod_cast hple
          rw [← hvalue] at hcast
          rw [abs_value, div_le_iff₀ hpos]
          linarith
        · intro hnonneg
          have hxneg := negative_of_nonneg hnonneg hx0
          have hcneg : c.negative = false := eq_false_of_ne_true fun hneg => by
            rw [hcneg hneg] at hxneg
            cases hxneg
          rw [hcneg, hkneg] at hpneg
          exact nonneg_of_negative (eq_false_of_ne_true fun h =>
            absurd (hpneg h) Bool.false_ne_true)

end LoanLedger.Money
