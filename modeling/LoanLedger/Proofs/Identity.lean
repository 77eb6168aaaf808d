import LoanLedger.Identity
import LoanLedger.Proofs.Json.Text

/-!
Identifiers come back from the 36 characters that they are written as.
-/

set_option autoImplicit false
set_option relaxedAutoImplicit false

namespace LoanLedger.TransactionId

theorem ofHex?_append_digit {ds : List Char} {n d : Nat} (hn : ofHex? ds = some n) (hd : d < 16) :
    ofHex? (ds ++ [Nat.digitChar d]) = some (n * 16 + d) := by
  unfold ofHex? at hn ⊢
  rw [List.foldlM_append, hn]
  simp [Json.hexDigit?_digitChar hd]

theorem ofHex?_toDigits (n : Nat) : ofHex? (Nat.toDigits 16 n) = some n := by
  induction n using Nat.strongRecOn with
  | _ n ih =>
    by_cases h : n < 16
    · have hdigit : ofHex? ([] ++ [Nat.digitChar n]) = some (0 * 16 + n) :=
        ofHex?_append_digit rfl h
      simpa [Nat.toDigits_of_lt_base h] using hdigit
    · rw [Nat.toDigits_of_base_le (by decide) (by omega),
        ofHex?_append_digit (ih (n / 16) (by omega)) (by omega)]
      congr 1
      omega

theorem ofHex?_zeros (k : Nat) (ds : List Char) :
    ofHex? (List.replicate k '0' ++ ds) = ofHex? ds := by
  unfold ofHex?
  induction k with
  | zero => rfl
  | succ k ih => simpa [List.replicate_succ, show Json.hexDigit? '0' = some 0 from rfl] using ih

/-- The 32 digits of an identifier. -/
def digits (t : TransactionId) : List Char :=
  let ds := Nat.toDigits 16 t.number
  List.replicate (32 - ds.length) '0' ++ ds

@[simp] theorem length_digits (t : TransactionId) : t.digits.length = 32 := by
  have hle : (Nat.toDigits 16 t.number).length ≤ 32 :=
    (Nat.length_toDigits_le_iff (by decide) (by decide)).2 t.number_lt
  simp only [digits, List.length_append, List.length_replicate]
  omega

@[simp] theorem ofDigits?_digits (t : TransactionId) : ofDigits? t.digits = some t := by
  have hnumber : t.number % limit = t.number := Nat.mod_eq_of_lt t.number_lt
  rw [ofDigits?, if_pos (length_digits t), digits, ofHex?_zeros, ofHex?_toDigits]
  simp only [Option.map_some, ofNat, hnumber]

/-- Digits in five groups, with hyphens between them. -/
def grouped (a b c d e : List Char) : List Char :=
  a ++ '-' :: b ++ '-' :: c ++ '-' :: d ++ '-' :: e

section Groups

variable {a b c d e : List Char} (ha : a.length = 8) (hb : b.length = 4) (hc : c.length = 4)
  (hd : d.length = 4) (he : e.length = 12)

include ha hb hc hd he

theorem length_grouped : (grouped a b c d e).length = 36 := by
  simp [grouped, ha, hb, hc, hd, he]

theorem ofChars?_grouped : ofChars? (grouped a b c d e) = ofDigits? (a ++ b ++ c ++ d ++ e) := by
  have hungroup : ungroup? (grouped a b c d e) = some (a ++ b ++ c ++ d ++ e) := by
    simp [ungroup?, grouped, ha, hb, hc, hd, he, List.getElem?_append, List.drop_append,
      List.drop_eq_nil_of_le]
  simp [ofChars?, length_grouped ha hb hc hd he, hungroup]

end Groups

theorem append_groups (ds : List Char) :
    ds.take 8 ++ (ds.drop 8).take 4 ++ (ds.drop 12).take 4 ++ (ds.drop 16).take 4 ++ ds.drop 20 =
      ds := by
  have hgroup : ∀ i, (ds.drop i).take 4 ++ ds.drop (i + 4) = ds.drop i := fun i => by
    rw [← List.drop_drop, List.take_append_drop]
  rw [List.append_assoc, hgroup 16, List.append_assoc, hgroup 12, List.append_assoc, hgroup 8,
    List.take_append_drop]

@[simp] theorem ofChars?_chars (t : TransactionId) : ofChars? t.chars = some t := by
  have hlen : ∀ i k, k ≤ 32 - i → ((t.digits.drop i).take k).length = k := fun i k h => by
    rw [List.length_take, List.length_drop, length_digits, Nat.min_eq_left h]
  calc ofChars? t.chars
    _ = ofDigits? _ := ofChars?_grouped (hlen 0 8 (by decide)) (hlen 8 4 (by decide))
        (hlen 12 4 (by decide)) (hlen 16 4 (by decide))
        (by rw [List.length_drop]; exact congrArg (· - 20) (length_digits t))
    _ = ofDigits? t.digits := congrArg ofDigits? (append_groups t.digits)
    _ = some t := ofDigits?_digits t

end LoanLedger.TransactionId
