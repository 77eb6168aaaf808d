import LoanLedger.Json.Shape
import LoanLedger.Proofs.Json.Text

/-!
Values come back from their text where it is read against a shape that names all their members.
-/

set_option autoImplicit false
set_option relaxedAutoImplicit false

namespace LoanLedger.Json.Shape

/-- Where the text of the value stands at the front, with a bound that suffices, it is read against
the shape as the value, and the rest is left. -/
def ReadsBack (shape : Shape) (j : Json) : Prop :=
  ∀ n r, 4 * j.chars.length ≤ n → Ended r → value? n shape (j.chars ++ r) = some (j, r)

theorem readsBack_any {l : Nat} {j : Json} (h : Regular l j) : ReadsBack .any j := by
  intro n r hn hr
  obtain ⟨c, cs, hc, -⟩ := h.exists_chars_cons
  have hpos : 0 < j.chars.length := by simp [hc]
  obtain ⟨n, rfl⟩ : ∃ i, n = i + 1 := ⟨n - 1, by omega⟩
  rw [value?]
  exact h.readsBack none n r (by omega) hr

theorem readsBack_name (s : String) : ReadsBack .alternative (.str s) := by
  intro n r hn hr
  have hquote := le_length_quote s
  rw [chars] at hn ⊢
  obtain ⟨n, rfl⟩ : ∃ i, n = i + 1 := ⟨n - 1, by omega⟩
  have hvalue := (Regular.str (n := 0) s).readsBack none n r (by rw [chars]; omega) hr
  rw [chars, quote_append] at hvalue
  rw [quote_append]
  unfold value?
  simp only [skipBlanks_cons (c := '"') (by decide)]
  split
  case h_1 h => exact absurd (List.cons.inj h).1 (by decide)
  case h_2 => exact hvalue

section Members

variable {fields : List (String × Shape)}

theorem member?_chars {shape : Shape} {v : Json} (hv : ReadsBack shape v) {n : Nat}
    (hn : 4 * v.chars.length ≤ n) {t : List Char} (ht : Ended t) :
    member? (n + 1) (some shape) false (v.chars ++ t) = some (some v, t) := by
  rw [member?, hv n t hn ht]
  rfl

section Read

variable {k : String} {shape : Shape} (hshape : fields.lookup k = some shape) {v : Json}
  (hv : ReadsBack shape v) {seen : List String} (hseen : k ∉ seen) {n : Nat}
  (hn : 4 * ((quote k).length + v.chars.length) ≤ n)

include hshape hv hseen hn

theorem members?_last (r : List Char) :
    members? (n + 1) fields seen (quote k ++ ':' :: (v.chars ++ '\x7d' :: r)) =
      some ([(k, v)], r) := by
  have hquote := le_length_quote k
  have hkey := textBody?_quote none k.toList (n := n) (by omega) (':' :: (v.chars ++ '\x7d' :: r))
  obtain ⟨n, rfl⟩ : ∃ i, n = i + 1 := ⟨n - 1, by omega⟩
  have hmember := member?_chars hv (n := n) (by omega) (ended_cons r (.inr (.inr rfl)))
  have hnew : seen.contains k = false := by simpa using hseen
  rw [quote_append, members?]
  simp only [skipBlanks_cons (c := '"') (by decide), skipBlanks_cons (c := ':') (by decide),
    skipBlanks_cons (c := '\x7d') (by decide), hkey, String.ofList_toList, hshape, hnew, hmember]
  rfl

theorem members?_next (r : List Char) :
    members? (n + 1) fields seen (quote k ++ ':' :: (v.chars ++ ',' :: r)) =
      (members? n fields (k :: seen) r).map (Prod.map (List.cons (k, v)) id) := by
  have hquote := le_length_quote k
  have hkey := textBody?_quote none k.toList (n := n) (by omega) (':' :: (v.chars ++ ',' :: r))
  obtain ⟨n, rfl⟩ : ∃ i, n = i + 1 := ⟨n - 1, by omega⟩
  have hmember := member?_chars hv (n := n) (by omega) (ended_cons r (.inl rfl))
  have hnew : seen.contains k = false := by simpa using hseen
  rw [quote_append, members?]
  simp only [skipBlanks_cons (c := '"') (by decide), skipBlanks_cons (c := ':') (by decide),
    skipBlanks_cons (c := ',') (by decide), hkey, String.ofList_toList, hshape, hnew, hmember]
  rfl

end Read

/-- Members of distinct names are read one after the other. -/
theorem members?_chars {k : String} {v : Json} {ms : List (String × Json)} {seen : List String}
    (h : ∀ m ∈ (k, v) :: ms, ∃ shape, fields.lookup m.1 = some shape ∧ ReadsBack shape m.2)
    (names : (((k, v) :: ms).map Prod.fst).Nodup) (fresh : ∀ m ∈ (k, v) :: ms, m.1 ∉ seen) {n : Nat}
    (hn : 4 * ((quote k).length + v.chars.length + (memberChars ms).length) + 1 ≤ n)
    (r : List Char) :
    members? n fields seen (quote k ++ ':' :: (v.chars ++ (memberChars ms ++ '\x7d' :: r))) =
      some ((k, v) :: ms, r) := by
  induction ms generalizing k v seen n with
  | nil =>
    obtain ⟨n, rfl⟩ : ∃ i, n = i + 1 := ⟨n - 1, by omega⟩
    obtain ⟨shape, hshape, hv⟩ := h (k, v) (by simp)
    dsimp only at hshape hv
    exact members?_last hshape hv (fresh (k, v) (by simp)) (by omega) r
  | cons m ms ih =>
    obtain ⟨n, rfl⟩ : ∃ i, n = i + 1 := ⟨n - 1, by omega⟩
    obtain ⟨shape, hshape, hv⟩ := h (k, v) (by simp)
    dsimp only at hshape hv
    rw [List.map_cons, List.nodup_cons] at names
    have hfresh : ∀ w ∈ m :: ms, w.1 ∉ k :: seen := fun w hw hmem => by
      obtain heq | hmem := List.mem_cons.1 hmem
      · exact names.1 (heq ▸ List.mem_map.2 ⟨w, hw, rfl⟩)
      · exact fresh w (List.mem_cons_of_mem _ hw) hmem
    have hms := @ih m.1 m.2 (k :: seen) (fun w hw => h w (List.mem_cons_of_mem _ hw)) names.2
      hfresh n (by simp [memberChars] at hn; omega)
    simp only [memberChars, List.cons_append, List.append_assoc]
    rw [members?_next hshape hv (fresh (k, v) (by simp)) (by omega), hms]
    rfl

/-- An object whose members all have a shape is read against the record of the shapes. -/
theorem readsBack_record {ms : List (String × Json)} (names : (ms.map Prod.fst).Nodup)
    (h : ∀ m ∈ ms, ∃ shape, fields.lookup m.1 = some shape ∧ ReadsBack shape m.2) :
    ReadsBack (.record fields) (.obj ms) := by
  intro n r hn _
  obtain ⟨n, rfl⟩ : ∃ i, n = i + 1 := ⟨n - 1, by cases ms <;> simp [chars] at hn <;> omega⟩
  cases ms with
  | nil => rfl
  | cons m ms =>
    have hmembers := members?_chars (k := m.1) (v := m.2) h names (fun _ _ => List.not_mem_nil)
      (n := n) (by simp [chars] at hn; omega) r
    simp only [chars, List.cons_append, List.append_assoc, List.nil_append]
    unfold value?
    rw [quote_append] at hmembers ⊢
    simp only [skipBlanks_cons (c := '\x7b') (by decide), skipBlanks_cons (c := '"') (by decide)]
    split
    case h_1 h => exact absurd (List.cons.inj h).1 (by decide)
    case h_2 => rw [hmembers, Option.map_some]

end Members

theorem ReadsBack.read?_toString {shape : Shape} {j : Json} (h : ReadsBack shape j) :
    shape.read? (toString j) = some j := by
  have hvalue := h (2 * bound j.chars) [] (by unfold bound; omega) ended_nil
  rw [List.append_nil] at hvalue
  simp [read?, toString, hvalue, complete?, skipBlanks]

end LoanLedger.Json.Shape
