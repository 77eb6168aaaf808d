import LoanLedger.Json.Document
import LoanLedger.Proofs.Json.Text

/-!
Documents come back: a regular value that nests no deeper than a document may is read from its text.
Whole numbers of 64 bits lie well within the range of documents.
-/

set_option autoImplicit false
set_option relaxedAutoImplicit false

namespace LoanLedger.Json

namespace Binary64

theorem divided_le (num den : Nat) {e : Int} {k : Nat} (he : -(k : Int) ≤ e) :
    (divided num den e).1 ≤ num * twoTo k := by
  unfold divided
  dsimp only
  split
  · calc num * twoTo e.natAbs / den
      _ ≤ num * twoTo e.natAbs := Nat.div_le_self _ _
      _ ≤ num * twoTo k := Nat.mul_le_mul_left num (twoTo_le_twoTo (by omega))
  · calc num / (den * twoTo e.natAbs)
      _ ≤ num := Nat.div_le_self _ _
      _ ≤ num * twoTo k := Nat.le_mul_of_pos_right num (twoTo_pos k)

/-- A quotient of moderate size is in range. The bounds on its value are rough, but they suffice to
show that the value is of moderate size again. -/
theorem exists_ofRatio? {num : Nat} (den : Nat) (h : num.log2 ≤ 240) :
    ∃ x, ofRatio? num den = some x ∧ x.exponent ≤ num.log2 ∧
      x.mantissa ≤ num * twoTo (den.log2 + 53) + twoTo 52 := by
  unfold ofRatio?
  split
  case isTrue => exact ⟨_, rfl, by dsimp only; omega, Nat.zero_le _⟩
  case isFalse =>
    dsimp only
    generalize hlow : (num.log2 : Int) - den.log2 - 53 = low
    generalize he : (if (divided num den low).1 < twoTo 53 then low else low + 1) = e
    have hle : low ≤ e ∧ e ≤ low + 1 := by split at he <;> omega
    generalize hf : (if e < -1074 then -1074 else e) = f
    have hlef : e ≤ f ∧ (f ≤ e ∨ f = -1074) := by split at hf <;> omega
    have hquotient := divided_le num den (e := f) (k := den.log2 + 53) (by omega)
    generalize divided num den f = d at *
    generalize hq :
      (if d.2.2 < 2 * d.2.1 ∨ 2 * d.2.1 = d.2.2 ∧ d.1 % 2 = 1 then d.1 + 1 else d.1) = q
    have hleq : q ≤ d.1 + 1 := by split at hq <;> omega
    have hhalf : 0 < twoTo 52 := twoTo_pos 52
    split
    · rw [if_neg (by omega)]
      exact ⟨_, rfl, by dsimp only; omega, Nat.le_add_left _ _⟩
    · rw [if_neg (by omega)]
      exact ⟨_, rfl, by dsimp only; omega, by dsimp only; omega⟩

theorem clip_of_lt (k : Nat) {m : Nat} (e : Int) (h : m < twoTo 64) : clip k m e = (m, e) := by
  cases k with
  | zero => rfl
  | succ k => rw [clip, if_pos h]

theorem ratio_le {x : Binary64} {k : Nat} (h : x.exponent ≤ k) :
    x.ratio.1 ≤ x.mantissa * twoTo k := by
  unfold ratio
  split
  · exact Nat.le_mul_of_pos_right _ (twoTo_pos k)
  · exact Nat.mul_le_mul_left _ (twoTo_le_twoTo (by omega))

theorem log2_le {n k : Nat} (h : n < twoTo (k + 1)) : n.log2 ≤ k := by
  obtain rfl | hn := Nat.eq_zero_or_pos n
  · exact Nat.zero_le k
  · exact Nat.le_of_lt_succ ((Nat.log2_lt (Nat.ne_of_gt hn)).2 h)

theorem exists_one : ∃ x, ofRatio? 1 1 = some x ∧ x.ratio.1 ≤ twoTo 52 :=
  ⟨⟨twoTo 52, -52⟩, by decide +kernel, by decide +kernel⟩

/-- Where the power of ten is zero, the value is only rounded again. -/
theorem isSome_scale?_zero {x : Binary64} (n : Nat) (hmantissa : x.mantissa ≤ twoTo 118)
    (hexponent : x.exponent ≤ 64) : (scale? n x 0).isSome = true := by
  cases n with
  | zero => rfl
  | succ n =>
    by_cases hzero : x.mantissa = 0
    · simp [scale?, hzero]
    · obtain ⟨one, hone, hunit⟩ := exists_one
      have hratio : x.ratio.1 ≤ twoTo 118 * twoTo 64 :=
        Nat.le_trans (ratio_le (k := 64) hexponent) (Nat.mul_le_mul_right _ hmantissa)
      have hsmall : x.ratio.1 * one.ratio.1 < twoTo (240 + 1) :=
        Nat.lt_of_le_of_lt (Nat.mul_le_mul hratio hunit) (by decide)
      obtain ⟨y, hy, -⟩ := exists_ofRatio? (x.ratio.2 * one.ratio.2) (log2_le hsmall)
      simp [scale?, hzero, hone, hy]

theorem isSome_ofDecimal? {n : Nat} (h : n < twoTo 64) : (ofDecimal? n 0).isSome = true := by
  have hlog : n.log2 ≤ 64 := log2_le (Nat.lt_trans h (by decide))
  obtain ⟨x, hx, hexponent, hmantissa⟩ := exists_ofRatio? 1 (show n.log2 ≤ 240 by omega)
  have hsize : x.mantissa ≤ twoTo 118 := by
    calc x.mantissa
      _ ≤ n * twoTo (Nat.log2 1 + 53) + twoTo 52 := hmantissa
      _ ≤ twoTo 64 * twoTo (Nat.log2 1 + 53) + twoTo 52 :=
        Nat.add_le_add_right (Nat.mul_le_mul_right _ (Nat.le_of_lt h)) _
      _ ≤ twoTo 118 := by decide
  simp only [ofDecimal?, clip_of_lt _ _ h, hx, bind, Option.bind_some]
  exact isSome_scale?_zero 4 hsize (by omega)

end Binary64

section Within

theorem itemsWithin_eq_all (n : Nat) (vs : List Json) : itemsWithin n vs = vs.all (within n) := by
  induction vs with
  | nil => rfl
  | cons v vs ih => rw [itemsWithin, ih, List.all_cons]

theorem membersWithin_eq_all (n : Nat) (ms : List (String × Json)) :
    membersWithin n ms = ms.all fun m => within n m.2 := by
  induction ms with
  | nil => rfl
  | cons m ms ih => rw [membersWithin, ih, List.all_cons]

theorem Regular.within {n : Nat} {j : Json} (h : Regular n j) : within n j = true := by
  induction h with
  | null => simp [Json.within]
  | bool b => simp [Json.within]
  | int small => simp [Json.within, Binary64.isSome_ofDecimal? small]
  | str s => simp [Json.within]
  | arr _ ih =>
    rw [Json.within, itemsWithin_eq_all]
    exact List.all_eq_true.2 ih
  | obj _ _ ih =>
    rw [Json.within, membersWithin_eq_all]
    exact List.all_eq_true.2 ih

end Within

theorem Regular.read?_toString {j : Json} (h : Regular 127 j) : read? (toString j) = some j := by
  have hvalue := h.readsBack none (bound j.chars) [] (by unfold bound; omega) ended_nil
  rw [List.append_nil] at hvalue
  simp [read?, readChars?, toString, hvalue, complete?, skipBlanks, h.within]

end LoanLedger.Json
