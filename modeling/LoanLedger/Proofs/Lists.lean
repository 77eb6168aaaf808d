import Mathlib.Data.List.Forall2
import Mathlib.Data.List.Nodup
import Mathlib.Tactic.Abel

/-!
Lists with keys, and lists that correspond element by element.
-/

set_option autoImplicit false
set_option relaxedAutoImplicit false

namespace LoanLedger

universe u

variable {α β γ : Type u}

theorem map_eq_of_forall₂ {R : α → β → Prop} {f : α → γ} {g : β → γ} {l : List α} {m : List β}
    (h : List.Forall₂ R l m) (hR : ∀ x y, R x y → f x = g y) : l.map f = m.map g := by
  induction h with
  | nil => rfl
  | cons hxy _ ih => rw [List.map_cons, List.map_cons, hR _ _ hxy, ih]

theorem flatMap_eq_of_forall₂ {R : α → β → Prop} {f : α → List γ} {g : β → List γ} {l : List α}
    {m : List β} (h : List.Forall₂ R l m) (hR : ∀ x y, R x y → f x = g y) :
    l.flatMap f = m.flatMap g := by
  induction h with
  | nil => rfl
  | cons hxy _ ih => rw [List.flatMap_cons, List.flatMap_cons, hR _ _ hxy, ih]

theorem forall₂_comp {R S T : α → α → Prop} {l m n : List α} (hlm : List.Forall₂ R l m)
    (hmn : List.Forall₂ S m n) (hT : ∀ x y z, R x y → S y z → T x z) : List.Forall₂ T l n := by
  induction hlm generalizing n with
  | nil =>
    cases hmn
    exact .nil
  | cons hxy _ ih =>
    cases hmn with
    | cons hyz hrest => exact .cons (hT _ _ _ hxy hyz) (ih hrest)

theorem forall₂_and {α β : Type u} {R S : α → β → Prop} {l : List α} {m : List β}
    (hR : List.Forall₂ R l m) (hS : List.Forall₂ S l m) :
    List.Forall₂ (fun x y => R x y ∧ S x y) l m := by
  induction hR with
  | nil => exact .nil
  | cons hxy _ ih =>
    cases hS with
    | cons hxy' hrest => exact .cons ⟨hxy, hxy'⟩ (ih hrest)

theorem forall₂_mem {α β : Type u} {R : α → β → Prop} {l : List α} {m : List β}
    (h : List.Forall₂ R l m) : List.Forall₂ (fun x y => x ∈ l ∧ y ∈ m ∧ R x y) l m := by
  induction h with
  | nil => exact .nil
  | cons hxy _ ih =>
    refine .cons ⟨List.mem_cons_self, List.mem_cons_self, hxy⟩ (ih.imp ?_)
    rintro x y ⟨hx, hy, hR⟩
    exact ⟨List.mem_cons_of_mem _ hx, List.mem_cons_of_mem _ hy, hR⟩

/-- Corresponding lists, searched by corresponding tests, give corresponding elements. -/
theorem forall₂_find? {R : α → β → Prop} {p : α → Bool} {q : β → Bool} {l : List α} {m : List β}
    (h : List.Forall₂ R l m) (hpq : ∀ x y, R x y → p x = q y) :
    Option.Rel (fun x y => p x = true ∧ R x y) (l.find? p) (m.find? q) := by
  induction h with
  | nil => exact .none
  | @cons x y l m hxy _ ih =>
    rw [List.find?_cons, List.find?_cons]
    cases hx : p x with
    | true =>
      rw [← hpq x y hxy, hx]
      exact .some ⟨hx, hxy⟩
    | false =>
      rw [← hpq x y hxy, hx]
      exact ih

theorem map_eq_of_rel {R : α → β → Prop} {f : α → γ} {g : β → γ} {x : Option α} {y : Option β}
    (h : Option.Rel R x y) (hR : ∀ x y, R x y → f x = g y) : x.map f = y.map g := by
  cases h with
  | none => rfl
  | some hxy => exact congrArg some (hR _ _ hxy)

theorem exists_of_rel_some {R : α → β → Prop} {x : α} {y : Option β}
    (h : Option.Rel R (some x) y) : ∃ z, y = some z ∧ R x z := by
  cases h with
  | some hxz => exact ⟨_, rfl, hxz⟩

theorem forall₂_set {R : α → α → Prop} (hrefl : ∀ x, R x x) {l : List α} {i : Nat} {x y : α}
    (hx : l[i]? = some x) (hxy : R x y) : List.Forall₂ R l (l.set i y) := by
  induction l generalizing i with
  | nil => cases hx
  | cons z l ih =>
    cases i with
    | zero =>
      cases hx
      exact .cons hxy (List.forall₂_same.mpr fun x _ => hrefl x)
    | succ i => exact .cons (hrefl z) (ih hx)

theorem forall₂_take_cons_drop {R : α → α → Prop} (hrefl : ∀ x, R x x) {l m : List α} (i : Nat)
    (x : α) (h : List.Forall₂ R l m) :
    List.Forall₂ R (l.take i ++ x :: l.drop i) (m.take i ++ x :: m.drop i) :=
  List.rel_append (List.forall₂_take i h) (.cons (hrefl x) (List.forall₂_drop i h))

theorem eq_singleton_of_nodup {l : List α} (h : l.Nodup) {x : α} (hx : x ∈ l)
    (hall : ∀ y ∈ l, y = x) : l = [x] := by
  cases l with
  | nil => cases hx
  | cons y l =>
    obtain ⟨hy, hl⟩ := List.forall_mem_cons.mp hall
    obtain rfl := hy
    have hrest : l = [] := List.eq_nil_iff_forall_not_mem.mpr fun z hz =>
      (List.nodup_cons.mp h).1 (hl z hz ▸ hz)
    rw [hrest]

/-- A sum over a list with one element replaced. -/
theorem sum_map_set {β : Type} [AddCommGroup β] (f : α → β) {l : List α} {i : Nat} {x y : α}
    (hx : l[i]? = some x) : ((l.set i y).map f).sum = (l.map f).sum + (f y - f x) := by
  induction l generalizing i with
  | nil => cases hx
  | cons z l ih =>
    cases i with
    | zero =>
      cases hx
      rw [List.set_cons_zero, List.map_cons, List.map_cons, List.sum_cons, List.sum_cons]
      abel
    | succ i =>
      rw [List.set_cons_succ, List.map_cons, List.map_cons, List.sum_cons, List.sum_cons, ih hx]
      abel

/-- A sum in which a value was added to the elements with one of the distinct keys. -/
theorem sum_map_add_ite {β γ : Type} [DecidableEq γ] [AddCommMonoid β] (key : α → γ) (f : α → β)
    (n : γ) (v : β) {l : List α} (h : (l.map key).Nodup) (hn : n ∈ l.map key) :
    (l.map fun x => f x + if key x = n then v else 0).sum = (l.map f).sum + v := by
  induction l with
  | nil => cases hn
  | cons x l ih =>
    obtain ⟨hx, hl⟩ := List.nodup_cons.mp h
    rw [List.map_cons, List.map_cons, List.sum_cons, List.sum_cons]
    by_cases hkey : key x = n
    · have hrest : (l.map fun y => f y + if key y = n then v else 0) = l.map f := by
        refine List.map_congr_left fun y hy => ?_
        have hne : key y ≠ n := fun hyn => hx (hkey ▸ hyn ▸ List.mem_map_of_mem hy)
        rw [if_neg hne, add_zero]
      rw [hrest, if_pos hkey]
      abel
    · rw [if_neg hkey, add_zero, ih hl ((List.mem_cons.mp hn).resolve_left fun h => hkey h.symm),
        add_assoc]

theorem take_cons_drop_perm (l : List α) (i : Nat) (x : α) :
    (l.take i ++ x :: l.drop i).Perm (x :: l) := by
  have hmiddle : (l.take i ++ x :: l.drop i).Perm (x :: (l.take i ++ l.drop i)) :=
    List.perm_middle
  rwa [List.take_append_drop] at hmiddle

theorem exists_mem_of_sublistForall₂ {R : α → β → Prop} {l : List α} {m : List β}
    (h : List.SublistForall₂ R l m) {x : α} (hx : x ∈ l) : ∃ y ∈ m, R x y := by
  induction h with
  | nil => cases hx
  | cons hxy _ ih =>
    rcases List.mem_cons.mp hx with rfl | hx
    · exact ⟨_, List.mem_cons_self, hxy⟩
    · obtain ⟨y, hy, hR⟩ := ih hx
      exact ⟨y, List.mem_cons_of_mem _ hy, hR⟩
  | cons_right _ ih =>
    obtain ⟨y, hy, hR⟩ := ih hx
    exact ⟨y, List.mem_cons_of_mem _ hy, hR⟩

theorem exists_mem_of_forall₂ {R : α → β → Prop} {l : List α} {m : List β}
    (h : List.Forall₂ R l m) {x : α} (hx : x ∈ l) : ∃ y ∈ m, R x y :=
  exists_mem_of_sublistForall₂ (List.sublistForall₂_iff.mpr ⟨m, h, .refl m⟩) hx

/-- Where keys differ, at most one element has a key, and it is the one found first. -/
theorem filter_eq_toList_find? [DecidableEq β] (key : α → β) (b : β) {l : List α}
    (h : (l.map key).Nodup) :
    l.filter (fun x => key x = b) = (l.find? fun x => key x == b).toList := by
  induction l with
  | nil => rfl
  | cons x l ih =>
    obtain ⟨hx, hl⟩ := List.nodup_cons.mp h
    by_cases hb : key x = b
    · have hnone : l.filter (fun y => key y = b) = [] := by
        apply List.filter_eq_nil_iff.mpr
        intro y hy hyb
        apply hx
        rw [hb, ← of_decide_eq_true hyb]
        exact List.mem_map_of_mem hy
      rw [List.filter_cons_of_pos (by simpa using hb), hnone,
        List.find?_cons_of_pos (by simpa using hb)]
      rfl
    · rw [List.filter_cons_of_neg (by simpa using hb), ih hl,
        List.find?_cons_of_neg (by simpa using hb)]

theorem find?_key_eq_some [DecidableEq β] (key : α → β) {l : List α} (h : (l.map key).Nodup)
    {x : α} (hx : x ∈ l) : l.find? (fun y => key y == key x) = some x := by
  have hmem : x ∈ l.filter fun y => key y = key x := List.mem_filter.mpr ⟨hx, decide_eq_true rfl⟩
  rw [filter_eq_toList_find? key (key x) h] at hmem
  exact Option.mem_toList.mp hmem

theorem nodup_keys_around {α β : Type} {pre post : List (α × β)} {e : α × β}
    (h : ((pre ++ e :: post).map Prod.fst).Nodup) :
    (pre.map Prod.fst).Nodup ∧ (post.map Prod.fst).Nodup ∧ e.1 ∉ pre.map Prod.fst ∧
      e.1 ∉ post.map Prod.fst ∧ ∀ k ∈ post.map Prod.fst, k ∉ pre.map Prod.fst := by
  rw [List.map_append, List.map_cons, List.nodup_append] at h
  obtain ⟨hpre, hcons, hdisjoint⟩ := h
  obtain ⟨hkey, hpost⟩ := List.nodup_cons.mp hcons
  exact ⟨hpre, hpost, fun hmem => hdisjoint e.1 hmem e.1 List.mem_cons_self rfl, hkey,
    fun k hk hmem => hdisjoint k hmem k (List.mem_cons_of_mem _ hk) rfl⟩

/-! A stable sort keeps the order of what a filter leaves. -/

section Sorting

variable {le : α → α → Bool}

/-- An element goes in front of the first one that it may precede, and only one place is there. -/
private theorem eq_takeWhile_of_insert {a : α} {l₁ l₂ : List α}
    (h₁ : ∀ b ∈ l₁, (!le a b) = true) (h₂ : ∀ b ∈ l₂, le a b = true) :
    (l₁ ++ l₂).takeWhile (fun b => !le a b) = l₁ ∧
      (l₁ ++ l₂).dropWhile (fun b => !le a b) = l₂ := by
  rw [List.takeWhile_append_of_pos h₁, List.dropWhile_append_of_pos h₁]
  cases l₂ with
  | nil => simp
  | cons b l₂ =>
    have hb := h₂ b List.mem_cons_self
    rw [List.takeWhile_cons_of_neg (by simp [hb]), List.dropWhile_cons_of_neg (by simp [hb]),
      List.append_nil]
    exact ⟨rfl, rfl⟩

variable (htrans : ∀ a b c, le a b = true → le b c = true → le a c = true)
  (htotal : ∀ a b, (le a b || le b a) = true)

include htrans htotal

private theorem mergeSort_cons_eq (a : α) (l : List α) :
    (a :: l).mergeSort le = (l.mergeSort le).takeWhile (fun b => !le a b) ++
      a :: (l.mergeSort le).dropWhile (fun b => !le a b) := by
  obtain ⟨l₁, l₂, hcons, hl, h₁⟩ := List.mergeSort_cons htrans htotal a l
  have hsorted := List.pairwise_mergeSort htrans htotal (a :: l)
  rw [hcons] at hsorted
  have h₂ := (List.pairwise_cons.mp (List.pairwise_append.mp hsorted).2.1).1
  obtain ⟨htake, hdrop⟩ := eq_takeWhile_of_insert h₁ h₂
  rw [hcons, hl, htake, hdrop]

theorem filter_mergeSort (p : α → Bool) (l : List α) :
    (l.mergeSort le).filter p = (l.filter p).mergeSort le := by
  induction l with
  | nil => simp
  | cons a l ih =>
    obtain ⟨l₁, l₂, hcons, hl, h₁⟩ := List.mergeSort_cons htrans htotal a l
    have hsorted := List.pairwise_mergeSort htrans htotal (a :: l)
    rw [hcons] at hsorted
    have h₂ := (List.pairwise_cons.mp (List.pairwise_append.mp hsorted).2.1).1
    rw [hcons, List.filter_append]
    rw [hl, List.filter_append] at ih
    by_cases hp : p a = true
    · have h₁p : ∀ b ∈ l₁.filter p, (!le a b) = true :=
        fun b hb => h₁ b (List.mem_of_mem_filter hb)
      have h₂p : ∀ b ∈ l₂.filter p, le a b = true :=
        fun b hb => h₂ b (List.mem_of_mem_filter hb)
      obtain ⟨htake, hdrop⟩ := eq_takeWhile_of_insert h₁p h₂p
      rw [List.filter_cons_of_pos hp, List.filter_cons_of_pos hp, mergeSort_cons_eq htrans htotal,
        ← ih, htake, hdrop]
    · rw [List.filter_cons_of_neg hp, List.filter_cons_of_neg hp, ih]

end Sorting

/-! Lists without their repetitions: first occurrences stay. -/

section Repetitions

variable [DecidableEq α]

/-- An induction that takes an element out of the rest together with itself. -/
@[elab_as_elim]
theorem eraseDups_induction {P : List α → Prop} (nil : P [])
    (cons : ∀ a l, P (l.filter fun b => !b == a) → P (a :: l)) (l : List α) : P l := by
  match l with
  | [] => exact nil
  | a :: l =>
    have hshorter : (l.filter fun b => !b == a).length < (a :: l).length :=
      Nat.lt_succ_of_le (List.length_filter_le _ _)
    exact cons a l (eraseDups_induction nil cons _)
termination_by l.length
decreasing_by exact hshorter

theorem nodup_eraseDups (l : List α) : l.eraseDups.Nodup := by
  induction l using eraseDups_induction with
  | nil => exact List.nodup_nil
  | cons a l ih =>
    rw [List.eraseDups_cons, List.nodup_cons, List.mem_eraseDups]
    exact ⟨by simp, ih⟩

theorem eraseDups_of_nodup {l : List α} (h : l.Nodup) : l.eraseDups = l := by
  induction l with
  | nil => rfl
  | cons a l ih =>
    obtain ⟨ha, hl⟩ := List.nodup_cons.mp h
    have hrest : l.filter (fun b => !b == a) = l :=
      List.filter_eq_self.mpr fun b hb => by
        have hne : b ≠ a := fun heq => ha (heq ▸ hb)
        simpa using hne
    rw [List.eraseDups_cons, hrest, ih hl]

theorem filter_eraseDups (p : α → Bool) (l : List α) :
    l.eraseDups.filter p = (l.filter p).eraseDups := by
  induction l using eraseDups_induction with
  | nil => rfl
  | cons a l ih =>
    rw [List.eraseDups_cons]
    by_cases ha : p a = true
    · rw [List.filter_cons_of_pos ha, List.filter_cons_of_pos ha, List.eraseDups_cons, ih,
        List.filter_comm]
    · rw [List.filter_cons_of_neg ha, List.filter_cons_of_neg ha, ih, List.filter_filter]
      congr 1
      -- an element that passes is not the one that did not
      refine List.filter_congr fun b _ => ?_
      by_cases hb : b = a
      · rw [hb, Bool.eq_false_iff.mpr ha, Bool.false_and]
      · rw [beq_false_of_ne hb, Bool.not_false, Bool.and_true]

theorem find?_eraseDups (p : α → Bool) (l : List α) : l.eraseDups.find? p = l.find? p := by
  rw [← List.head?_filter, ← List.head?_filter, filter_eraseDups]
  cases l.filter p with
  | nil => rfl
  | cons a l => rw [List.eraseDups_cons, List.head?_cons, List.head?_cons]

theorem eraseDups_eq_nil {l : List α} : l.eraseDups = [] ↔ l = [] := by
  cases l with
  | nil => exact iff_of_true rfl rfl
  | cons a l => simp [List.eraseDups_cons]

end Repetitions

end LoanLedger
