import LoanLedger.Json.Reader

/-!
JSON values come back from their text. A value is regular when nothing in it is lost by writing and
reading: its numbers are whole, and no object names a member twice.
-/

set_option autoImplicit false
set_option relaxedAutoImplicit false

namespace LoanLedger.Json

/-- Values of at most `n` levels of nesting with whole numbers of at most 64 bits, where no object
has two members of one name. -/
inductive Regular : Nat → Json → Prop
  | null {n : Nat} : Regular n .null
  | bool {n : Nat} (b : Bool) : Regular n (.bool b)
  | int {n : Nat} {i : Int} (small : i.natAbs < twoTo 64) : Regular n (.int i)
  | str {n : Nat} (s : String) : Regular n (.str s)
  | arr {n : Nat} {vs : List Json} (items : ∀ v ∈ vs, Regular n v) : Regular (n + 1) (.arr vs)
  | obj {n : Nat} {ms : List (String × Json)} (names : (ms.map Prod.fst).Nodup)
      (members : ∀ m ∈ ms, Regular n m.2) : Regular (n + 1) (.obj ms)

/-- What may stand behind a value: nothing, or what parts or closes the values of a list. -/
def Ended (r : List Char) : Prop := ∀ c ∈ r.head?, c = ',' ∨ c = ']' ∨ c = '\x7d'

theorem ended_nil : Ended [] := by simp [Ended]

theorem ended_cons {c : Char} (r : List Char) (h : c = ',' ∨ c = ']' ∨ c = '\x7d') :
    Ended (c :: r) := by
  simpa [Ended] using h

section Strings

theorem hexDigit?_digitChar {d : Nat} (h : d < 16) : hexDigit? (Nat.digitChar d) = some d := by
  revert d
  decide

theorem codeUnit?_hex4 {n : Nat} (h : n < 0x10000) (r : List Char) :
    codeUnit? (hex4 n ++ r) = some (n, r) := by
  simp only [hex4, List.map_cons, List.map_nil, List.cons_append, List.nil_append, codeUnit?]
  rw [hexDigit?_digitChar (by omega), hexDigit?_digitChar (by omega),
    hexDigit?_digitChar (by omega), hexDigit?_digitChar (by omega)]
  simp only [Option.bind_eq_bind, Option.bind_some, Option.some.injEq, Prod.mk.injEq, and_true]
  omega

/-- A character is read as it was written. -/
theorem textBody?_escape (unpaired : Option Char) (c : Char) (n : Nat) (r : List Char) :
    textBody? unpaired (n + 1) (escape c ++ r) =
      (textBody? unpaired n r).map fun p => (c :: p.1, p.2) := by
  unfold escape
  split
  case isTrue h => subst h; simp [textBody?, shortEscape?]
  case isFalse hquote =>
    split
    case isTrue h => subst h; simp [textBody?, shortEscape?]
    case isFalse hslash =>
      split
      case isTrue hcontrol =>
        have hc : unicodeEscape? unpaired (hex4 c.toNat ++ r) = some (c, r) := by
          have hlow : ¬(0xdc00 ≤ c.toNat ∧ c.toNat < 0xe000) := by omega
          have hhigh : ¬(0xd800 ≤ c.toNat ∧ c.toNat < 0xdc00) := by omega
          simp [unicodeEscape?, codeUnit?_hex4 (show c.toNat < 0x10000 by omega), hlow, hhigh,
            Char.ofNat_toNat]
        simp only [List.cons_append, textBody?, hc]
      case isFalse hcontrol =>
        simp [textBody?, hslash, hcontrol]

theorem textBody?_quote (unpaired : Option Char) (cs : List Char) {n : Nat} (hn : cs.length < n)
    (r : List Char) :
    textBody? unpaired n (cs.flatMap escape ++ '"' :: r) = some (cs, r) := by
  induction cs generalizing n with
  | nil =>
    obtain ⟨n, rfl⟩ : ∃ i, n = i + 1 := ⟨n - 1, by simp at hn; omega⟩
    simp [textBody?]
  | cons c cs ih =>
    obtain ⟨n, rfl⟩ : ∃ i, n = i + 1 := ⟨n - 1, by simp at hn; omega⟩
    rw [List.flatMap_cons, List.append_assoc, textBody?_escape, ih (by simpa using hn)]
    rfl

end Strings

section Numbers

theorem head?_toDigits {n : Nat} (h : 0 < n) : (Nat.toDigits 10 n).head? ≠ some '0' := by
  induction n using Nat.strongRecOn with
  | _ n ih =>
    by_cases hn : n < 10
    · rw [Nat.toDigits_of_lt_base hn]
      simp [Nat.digitChar_eq_zero]
      omega
    · obtain ⟨d, ds, hd⟩ := List.exists_cons_of_ne_nil (Nat.toDigits_ne_nil (n := n / 10) (b := 10))
      have hlead := ih (n / 10) (by omega) (by omega)
      rw [Nat.toDigits_of_base_le (by decide) (by omega), hd]
      rwa [hd] at hlead

theorem Ended.not_isDigit {r : List Char} (hr : Ended r) :
    r.head?.all (fun c => !c.isDigit) = true := by
  cases r with
  | nil => rfl
  | cons c r =>
    obtain rfl | rfl | rfl := hr c rfl <;> rfl

theorem Ended.fraction? {r : List Char} (hr : Ended r) : Json.fraction? r = some ([], r) := by
  cases r with
  | nil => rfl
  | cons c r =>
    obtain rfl | rfl | rfl := hr c rfl <;> rfl

theorem Ended.power? {r : List Char} (hr : Ended r) : Json.power? r = some (none, r) := by
  cases r with
  | nil => rfl
  | cons c r =>
    obtain rfl | rfl | rfl := hr c rfl <;> rfl

/-- The digits of a number are read as the number; a minus sign before them belongs to it. -/
theorem unsigned?_toDigits (negative : Bool) {n : Nat} (h : negative = true → 0 < n) {r : List Char}
    (hr : Ended r) :
    unsigned? negative (Nat.toDigits 10 n ++ r) = some (.int (if negative then -n else n), r) := by
  have hsplit : Text.Digits.split (Nat.toDigits 10 n ++ r) = (Nat.toDigits 10 n, r) := by
    rw [← Text.Digits.padded_zero]
    exact Text.Digits.split_append (Text.Digits.all_isDigit_padded 0 n) hr.not_isDigit
  have hvalue : Text.Digits.value (Nat.toDigits 10 n) = n := by
    rw [← Text.Digits.padded_zero, Text.Digits.value_padded]
  have hzero : ¬((Nat.toDigits 10 n).head? = some '0' ∧ 1 < (Nat.toDigits 10 n).length) := by
    rintro ⟨hhead, hlen⟩
    obtain rfl | hn := Nat.eq_zero_or_pos n
    · simp at hlen
    · exact head?_toDigits hn hhead
  unfold unsigned?
  simp only [hsplit, Nat.toDigits_ne_nil, hzero, false_or, if_false, hr.fraction?, hr.power?,
    List.append_nil, hvalue, Option.bind_eq_bind, Option.bind_some, true_and, if_true]
  cases negative with
  | false => simp
  | true =>
    have hn := h rfl
    simp [Nat.ne_of_gt hn]

/-- A written integer starts with a minus sign or with a digit. -/
theorem exists_signed_cons (i : Int) :
    ∃ c cs, Text.Digits.signed i = c :: cs ∧ (c = '-' ∨ c.isDigit = true) := by
  obtain ⟨d, ds, hd, hdigit⟩ := Text.Digits.exists_padded_cons 0 i.natAbs
  rw [Text.Digits.padded_zero] at hd
  unfold Text.Digits.signed
  split
  · exact ⟨_, _, rfl, .inl rfl⟩
  · exact ⟨d, ds, hd, .inr hdigit⟩

theorem number?_of_isDigit {c : Char} (hc : c.isDigit = true) (cs : List Char) :
    number? (c :: cs) = unsigned? false (c :: cs) := by
  unfold number?
  split
  · simp_all
  · rfl

theorem number?_signed (i : Int) {r : List Char} (hr : Ended r) :
    number? (Text.Digits.signed i ++ r) = some (.int i, r) := by
  unfold Text.Digits.signed
  split
  case isTrue h =>
    simp only [List.cons_append, number?]
    have hneg : -(i.natAbs : Int) = i := by omega
    rw [unsigned?_toDigits true (by omega) hr, if_pos rfl, hneg]
  case isFalse h =>
    obtain ⟨d, ds, hd, hdigit⟩ := Text.Digits.exists_padded_cons 0 i.natAbs
    rw [Text.Digits.padded_zero] at hd
    have hpos : (i.natAbs : Int) = i := by omega
    rw [hd, List.cons_append, number?_of_isDigit hdigit, ← List.cons_append, ← hd,
      unsigned?_toDigits false (fun h => Bool.noConfusion h) hr, if_neg Bool.false_ne_true, hpos]

end Numbers

theorem skipBlanks_cons {c : Char} (h : ¬(c = ' ' ∨ c = '\n' ∨ c = '\t' ∨ c = '\r'))
    (r : List Char) : skipBlanks (c :: r) = c :: r := by
  simp_all [skipBlanks]

/-- What a number starts with starts nothing else. -/
theorem value?_number (unpaired : Option Char) (n : Nat) {c : Char}
    (hc : c = '-' ∨ c.isDigit = true) (cs : List Char) :
    value? unpaired (n + 1) (c :: cs) = number? (c :: cs) := by
  have hblank : ¬(c = ' ' ∨ c = '\n' ∨ c = '\t' ∨ c = '\r') := by
    rintro (rfl | rfl | rfl | rfl) <;> simp at hc
  unfold value?
  rw [skipBlanks_cons hblank]
  split <;> simp_all

/-- A written value starts with no blank and closes no list. -/
theorem Regular.exists_chars_cons {n : Nat} {j : Json} (h : Regular n j) :
    ∃ c cs, j.chars = c :: cs ∧ ¬(c = ' ' ∨ c = '\n' ∨ c = '\t' ∨ c = '\r') ∧ c ≠ ']' := by
  cases h with
  | null => exact ⟨_, _, rfl, by decide, by decide⟩
  | bool b => cases b <;> exact ⟨_, _, rfl, by decide, by decide⟩
  | @int _ i =>
    obtain ⟨c, cs, hc, hstart⟩ := exists_signed_cons i
    refine ⟨c, cs, hc, ?_, ?_⟩
    · rintro (rfl | rfl | rfl | rfl) <;> simp at hstart
    · rintro rfl
      simp at hstart
  | str s => exact ⟨_, _, rfl, by decide, by decide⟩
  | @arr _ vs => cases vs <;> exact ⟨_, _, rfl, by decide, by decide⟩
  | @obj _ ms => cases ms <;> exact ⟨_, _, rfl, by decide, by decide⟩

/-- Where the text of the value stands at the front, with a bound that suffices, the value is read
and the rest is left. -/
def ReadsBack (unpaired : Option Char) (j : Json) : Prop :=
  ∀ n r, 2 * j.chars.length ≤ n → Ended r → value? unpaired n (j.chars ++ r) = some (j, r)

section Lists

variable {unpaired : Option Char}

theorem ended_itemChars (vs : List Json) (r : List Char) : Ended (itemChars vs ++ ']' :: r) := by
  cases vs with
  | nil => exact ended_cons r (.inr (.inl rfl))
  | cons v vs => exact ended_cons _ (.inl rfl)

/-- Items are read one after the other. -/
theorem items?_chars {v : Json} {vs : List Json} (h : ∀ w ∈ v :: vs, ReadsBack unpaired w) {n : Nat}
    (hn : 2 * (v.chars.length + (itemChars vs).length) + 2 ≤ n) (r : List Char) :
    items? unpaired n (v.chars ++ (itemChars vs ++ ']' :: r)) = some (v :: vs, r) := by
  induction vs generalizing v n with
  | nil =>
    obtain ⟨n, rfl⟩ : ∃ i, n = i + 1 := ⟨n - 1, by omega⟩
    have hv := h v (by simp) n _ (by omega) (ended_itemChars [] r)
    simp only [items?, hv]
    rfl
  | cons w vs ih =>
    obtain ⟨n, rfl⟩ : ∃ i, n = i + 1 := ⟨n - 1, by omega⟩
    have hv := h v (by simp) n _ (by omega) (ended_itemChars (w :: vs) r)
    have hvs := @ih w (fun u hu => h u (List.mem_cons_of_mem v hu)) n
      (by simp [itemChars] at hn; omega)
    simp only [items?, hv]
    simp [itemChars, skipBlanks_cons, hvs]

theorem quote_append (k : String) (r : List Char) :
    quote k ++ r = '"' :: (k.toList.flatMap escape ++ '"' :: r) := by
  simp [quote]

theorem le_length_quote (k : String) : k.toList.length + 2 ≤ (quote k).length := by
  have hescape : ∀ cs : List Char, cs.length ≤ (cs.flatMap escape).length := fun cs => by
    induction cs with
    | nil => exact Nat.le_refl 0
    | cons c cs ih =>
      have hc : 1 ≤ (escape c).length := by
        unfold escape
        repeat' split
        all_goals simp
      simp only [List.flatMap_cons, List.length_append, List.length_cons]
      omega
  have := hescape k.toList
  simp only [quote, List.length_cons, List.length_append, List.length_nil]
  omega

theorem members?_last (k : String) {v : Json} (hv : ReadsBack unpaired v) {n : Nat}
    (hn : 2 * ((quote k).length + v.chars.length) ≤ n) (r : List Char) :
    members? unpaired (n + 1) (quote k ++ ':' :: (v.chars ++ '\x7d' :: r)) =
      some ([(k, v)], r) := by
  have hquote := le_length_quote k
  have hkey := textBody?_quote unpaired k.toList (n := n) (by omega)
    (':' :: (v.chars ++ '\x7d' :: r))
  have hvalue := hv n _ (by omega) (ended_cons r (.inr (.inr rfl)))
  rw [quote_append, members?]
  simp only [skipBlanks_cons (c := '"') (by decide), skipBlanks_cons (c := ':') (by decide),
    skipBlanks_cons (c := '\x7d') (by decide), hkey, hvalue, String.ofList_toList]

theorem members?_next (k : String) {v : Json} (hv : ReadsBack unpaired v) {n : Nat}
    (hn : 2 * ((quote k).length + v.chars.length) ≤ n) (r : List Char) :
    members? unpaired (n + 1) (quote k ++ ':' :: (v.chars ++ ',' :: r)) =
      (members? unpaired n r).map (Prod.map (List.cons (k, v)) id) := by
  have hquote := le_length_quote k
  have hkey := textBody?_quote unpaired k.toList (n := n) (by omega) (':' :: (v.chars ++ ',' :: r))
  have hvalue := hv n _ (by omega) (ended_cons r (.inl rfl))
  rw [quote_append, members?]
  simp only [skipBlanks_cons (c := '"') (by decide), skipBlanks_cons (c := ':') (by decide),
    skipBlanks_cons (c := ',') (by decide), hkey, hvalue, String.ofList_toList]
  rfl

/-- Members are read one after the other. -/
theorem members?_chars {k : String} {v : Json} {ms : List (String × Json)}
    (h : ∀ m ∈ (k, v) :: ms, ReadsBack unpaired m.2) {n : Nat}
    (hn : 2 * ((quote k).length + v.chars.length + (memberChars ms).length) + 2 ≤ n)
    (r : List Char) :
    members? unpaired n (quote k ++ ':' :: (v.chars ++ (memberChars ms ++ '\x7d' :: r))) =
      some ((k, v) :: ms, r) := by
  induction ms generalizing k v n with
  | nil =>
    obtain ⟨n, rfl⟩ : ∃ i, n = i + 1 := ⟨n - 1, by omega⟩
    have hv : ReadsBack unpaired v := h (k, v) (by simp)
    exact members?_last k hv (by omega) r
  | cons m ms ih =>
    obtain ⟨n, rfl⟩ : ∃ i, n = i + 1 := ⟨n - 1, by omega⟩
    have hms := @ih m.1 m.2 (fun w hw => h w (List.mem_cons_of_mem _ hw)) n
      (by simp [memberChars] at hn; omega)
    have hv : ReadsBack unpaired v := h (k, v) (by simp)
    simp only [memberChars, List.cons_append, List.append_assoc]
    rw [members?_next k hv (by omega), hms]
    rfl

end Lists

theorem lastNamed_of_nodup {ms : List (String × Json)} (h : (ms.map Prod.fst).Nodup) :
    lastNamed ms = ms := by
  induction ms with
  | nil => rfl
  | cons m ms ih =>
    rw [List.map_cons, List.nodup_cons] at h
    have hnot : ms.any (fun w => w.1 == m.1) = false := by
      simp only [List.any_eq_false, beq_iff_eq]
      exact fun w hw heq => h.1 (heq ▸ List.mem_map_of_mem hw)
    simp only [lastNamed, hnot, Bool.false_eq_true, if_false, ih h.2]

/-- A regular value is read back from its text. -/
theorem Regular.readsBack (unpaired : Option Char) {l : Nat} {j : Json} (h : Regular l j) :
    ReadsBack unpaired j := by
  -- Each value takes a unit of the fuel, and its text has a character for it.
  induction h with
  | null =>
    intro n r hn _
    obtain ⟨n, rfl⟩ : ∃ i, n = i + 1 := ⟨n - 1, by simp [chars] at hn; omega⟩
    rfl
  | bool b =>
    intro n r hn _
    obtain ⟨n, rfl⟩ : ∃ i, n = i + 1 := ⟨n - 1, by cases b <;> simp [chars] at hn <;> omega⟩
    cases b <;> rfl
  | @int _ i =>
    intro n r hn hr
    obtain ⟨c, cs, hc, hstart⟩ := exists_signed_cons i
    obtain ⟨n, rfl⟩ : ∃ i, n = i + 1 := ⟨n - 1, by simp [chars, hc] at hn; omega⟩
    rw [chars, hc, List.cons_append, value?_number unpaired n hstart, ← List.cons_append, ← hc,
      number?_signed i hr]
  | str s =>
    intro n r hn _
    have hquote := le_length_quote s
    obtain ⟨n, rfl⟩ : ∃ i, n = i + 1 := ⟨n - 1, by simp [chars] at hn; omega⟩
    have hbody := textBody?_quote unpaired s.toList (n := n)
      (by simp [chars] at hn; omega) r
    simp [chars, quote, value?, skipBlanks_cons, hbody]
  | @arr _ vs items ih =>
    intro n r hn _
    obtain ⟨n, rfl⟩ : ∃ i, n = i + 1 := ⟨n - 1, by cases vs <;> simp [chars] at hn <;> omega⟩
    cases vs with
    | nil => rfl
    | cons v vs =>
      obtain ⟨c, cs, hc, hblank, hclose⟩ := (items v (by simp)).exists_chars_cons
      have hitems := items?_chars ih (n := n) (by simp [chars] at hn; omega) r
      simp only [chars, List.cons_append, List.append_assoc, List.nil_append]
      rw [hc, List.cons_append] at hitems ⊢
      unfold value?
      simp only [skipBlanks_cons (c := '[') (by decide), skipBlanks_cons hblank]
      split
      case h_1 h => exact absurd (List.cons.inj h).1 hclose
      case h_2 => rw [hitems, Option.map_some]
  | @obj _ ms names members ih =>
    intro n r hn _
    obtain ⟨n, rfl⟩ : ∃ i, n = i + 1 := ⟨n - 1, by cases ms <;> simp [chars] at hn <;> omega⟩
    cases ms with
    | nil => rfl
    | cons m ms =>
      have hmembers := members?_chars (k := m.1) (v := m.2) ih (n := n)
        (by simp [chars] at hn; omega) r
      simp only [chars, List.cons_append, List.append_assoc, List.nil_append]
      unfold value?
      rw [quote_append] at hmembers ⊢
      simp only [skipBlanks_cons (c := '\x7b') (by decide), skipBlanks_cons (c := '"') (by decide)]
      split
      case h_1 h => exact absurd (List.cons.inj h).1 (by decide)
      case h_2 => rw [hmembers, Option.map_some, lastNamed_of_nodup names]

end LoanLedger.Json
