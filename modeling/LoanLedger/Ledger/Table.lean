import LoanLedger.Identity

/-!
Tables by loan: at most one entry per loan, in the order of the loan numbers. A table is determined
by what it holds for each loan (`ext_find?`).
-/

set_option autoImplicit false
set_option relaxedAutoImplicit false

namespace LoanLedger

universe u

/-- Entries by loan, in ascending order. -/
structure Table (α : Type u) where
  entries : List (LoanId × α)
  ascending : entries.Pairwise fun a b => a.1 < b.1
  deriving Repr

namespace Table

variable {α : Type u}

/-- No entries. -/
def empty : Table α := ⟨[], .nil⟩

instance : Inhabited (Table α) := ⟨empty⟩

/-- The entry of a loan. -/
def find? (t : Table α) (loan : LoanId) : Option α := t.entries.lookup loan

/-- Put an entry into ascending entries, in place of one of the same loan. -/
def insertInto (loan : LoanId) (a : α) : List (LoanId × α) → List (LoanId × α)
  | [] => [(loan, a)]
  | (k, b) :: rest =>
    if loan = k then (loan, a) :: rest
    else if loan < k then (loan, a) :: (k, b) :: rest
    else (k, b) :: insertInto loan a rest

private theorem mem_insertInto {loan : LoanId} {a : α} {es : List (LoanId × α)}
    {e : LoanId × α} (h : e ∈ insertInto loan a es) : e = (loan, a) ∨ e ∈ es := by
  induction es with
  | nil => exact Or.inl (List.mem_singleton.mp h)
  | cons d es ih =>
    obtain ⟨k, b⟩ := d
    unfold insertInto at h
    split at h
    · rcases List.mem_cons.mp h with h | h
      · exact Or.inl h
      · exact Or.inr (List.mem_cons_of_mem _ h)
    · split at h
      · exact List.mem_cons.mp h
      · rcases List.mem_cons.mp h with h | h
        · exact Or.inr (h ▸ List.mem_cons_self)
        · rcases ih h with h | h
          · exact Or.inl h
          · exact Or.inr (List.mem_cons_of_mem _ h)

theorem ascending_insertInto (loan : LoanId) (a : α) {es : List (LoanId × α)}
    (h : es.Pairwise fun a b => a.1 < b.1) :
    (insertInto loan a es).Pairwise fun a b => a.1 < b.1 := by
  induction es with
  | nil => exact List.pairwise_singleton _ _
  | cons d es ih =>
    obtain ⟨k, b⟩ := d
    obtain ⟨hk, hes⟩ := List.pairwise_cons.mp h
    unfold insertInto
    split
    · next heq => exact List.pairwise_cons.mpr ⟨fun e he => heq ▸ hk e he, hes⟩
    · next hne =>
      split
      · next hlt =>
        refine List.pairwise_cons.mpr ⟨?_, h⟩
        intro e he
        rcases List.mem_cons.mp he with rfl | he
        · exact hlt
        · exact Int64.lt_trans hlt (hk e he)
      · next hge =>
        refine List.pairwise_cons.mpr ⟨?_, ih hes⟩
        intro e he
        rcases mem_insertInto he with rfl | he
        · exact Int64.lt_of_le_of_ne (Int64.not_lt.mp hge) (Ne.symm hne)
        · exact hk e he

/-- Put an entry, in place of one of the same loan. -/
def insert (t : Table α) (loan : LoanId) (a : α) : Table α :=
  ⟨insertInto loan a t.entries, ascending_insertInto loan a t.ascending⟩

/-- Drop the entry of a loan. -/
def erase (t : Table α) (loan : LoanId) : Table α :=
  ⟨t.entries.filter fun e => e.1 != loan, t.ascending.filter _⟩

/-- Whether a loan has an entry. -/
def contains (t : Table α) (loan : LoanId) : Bool := (t.find? loan).isSome

/-- The values in the order of their loans. -/
def values (t : Table α) : List α := t.entries.map (·.2)

private theorem lookup_insertInto_self (loan : LoanId) (a : α) (es : List (LoanId × α)) :
    (insertInto loan a es).lookup loan = some a := by
  induction es with
  | nil => simp [insertInto]
  | cons e es ih =>
    obtain ⟨k, b⟩ := e
    unfold insertInto
    split
    · simp
    · split
      · simp
      · rw [List.lookup_cons, beq_false_of_ne (by assumption), ih]

private theorem lookup_insertInto_of_ne {loan other : LoanId} (h : other ≠ loan) (a : α)
    (es : List (LoanId × α)) : (insertInto loan a es).lookup other = es.lookup other := by
  induction es with
  | nil => simp [insertInto, List.lookup_cons, beq_false_of_ne h]
  | cons e es ih =>
    obtain ⟨k, b⟩ := e
    unfold insertInto
    split
    · next hk => simp [List.lookup_cons, ← hk, beq_false_of_ne h]
    · split
      · simp [List.lookup_cons, beq_false_of_ne h]
      · rw [List.lookup_cons, List.lookup_cons, ih]

@[simp] theorem find?_insert_self (t : Table α) (loan : LoanId) (a : α) :
    (t.insert loan a).find? loan = some a :=
  lookup_insertInto_self loan a t.entries

theorem find?_insert_of_ne (t : Table α) {loan other : LoanId} (h : other ≠ loan) (a : α) :
    (t.insert loan a).find? other = t.find? other :=
  lookup_insertInto_of_ne h a t.entries

private theorem lookup_filter_self (loan : LoanId) (es : List (LoanId × α)) :
    (es.filter fun e => e.1 != loan).lookup loan = none := by
  induction es with
  | nil => rfl
  | cons e es ih =>
    obtain ⟨k, b⟩ := e
    by_cases hk : k = loan
    · rw [List.filter_cons_of_neg (by simp [hk]), ih]
    · have hne : (loan == k) = false := beq_false_of_ne (Ne.symm hk)
      rw [List.filter_cons_of_pos (by simp [hk]), List.lookup_cons, hne, ih]

private theorem lookup_filter_of_ne {loan other : LoanId} (h : other ≠ loan)
    (es : List (LoanId × α)) :
    (es.filter fun e => e.1 != loan).lookup other = es.lookup other := by
  induction es with
  | nil => rfl
  | cons e es ih =>
    obtain ⟨k, b⟩ := e
    by_cases hk : k = loan
    · have hne : (other == k) = false := beq_false_of_ne (hk ▸ h)
      rw [List.filter_cons_of_neg (by simp [hk]), List.lookup_cons, hne, ih]
    · rw [List.filter_cons_of_pos (by simp [hk]), List.lookup_cons, List.lookup_cons, ih]

@[simp] theorem find?_erase_self (t : Table α) (loan : LoanId) :
    (t.erase loan).find? loan = none :=
  lookup_filter_self loan t.entries

theorem find?_erase_of_ne (t : Table α) {loan other : LoanId} (h : other ≠ loan) :
    (t.erase loan).find? other = t.find? other :=
  lookup_filter_of_ne h t.entries

private theorem lookup_eq_none_of_forall_lt {loan : LoanId} {es : List (LoanId × α)}
    (h : ∀ e ∈ es, loan < e.1) : es.lookup loan = none := by
  induction es with
  | nil => rfl
  | cons e es ih =>
    obtain ⟨k, b⟩ := e
    have hk : (loan == k) = false := beq_false_of_ne (Int64.ne_of_lt (h (k, b) List.mem_cons_self))
    rw [List.lookup_cons, hk]
    exact ih fun d hd => h d (List.mem_cons_of_mem _ hd)

private theorem lookup_head_ne_none (loan : LoanId) (a : α) (es : List (LoanId × α)) :
    ((loan, a) :: es).lookup loan ≠ none := by
  rw [List.lookup_cons, beq_self_eq_true]
  exact Option.some_ne_none a

/-- The first key of ascending entries is found in no entries whose first key is larger. -/
private theorem not_lt_of_lookup_eq {k l : LoanId} {b c : α} {es ds : List (LoanId × α)}
    (hl : ∀ d ∈ ds, l < d.1)
    (h : ((k, b) :: es).lookup k = ((l, c) :: ds).lookup k) : ¬k < l := by
  intro hlt
  have hnone : ((l, c) :: ds).lookup k = none := by
    apply lookup_eq_none_of_forall_lt
    intro d hd
    rcases List.mem_cons.mp hd with rfl | hd
    · exact hlt
    · exact Int64.lt_trans hlt (hl d hd)
  exact lookup_head_ne_none k b es (h.trans hnone)

private theorem entries_eq_of_lookup_eq {es ds : List (LoanId × α)}
    (hes : es.Pairwise fun a b => a.1 < b.1) (hds : ds.Pairwise fun a b => a.1 < b.1)
    (h : ∀ loan : LoanId, es.lookup loan = ds.lookup loan) : es = ds := by
  induction es generalizing ds with
  | nil =>
    cases ds with
    | nil => rfl
    | cons d ds => exact absurd (h d.1).symm (lookup_head_ne_none d.1 d.2 ds)
  | cons e es ih =>
    cases ds with
    | nil => exact absurd (h e.1) (lookup_head_ne_none e.1 e.2 es)
    | cons d ds =>
      obtain ⟨k, b⟩ := e
      obtain ⟨l, c⟩ := d
      obtain ⟨hk, hes'⟩ := List.pairwise_cons.mp hes
      obtain ⟨hl, hds'⟩ := List.pairwise_cons.mp hds
      have hkl : ¬k < l := not_lt_of_lookup_eq hl (h k)
      have hlk : ¬l < k := not_lt_of_lookup_eq hk (h l).symm
      have heq : k = l := Int64.le_antisymm (Int64.not_lt.mp hlk) (Int64.not_lt.mp hkl)
      subst heq
      have hbc : b = c := by simpa [List.lookup_cons] using h k
      have hrest : es = ds := by
        apply ih hes' hds'
        intro loan
        by_cases hloan : loan = k
        · subst hloan
          rw [lookup_eq_none_of_forall_lt hk, lookup_eq_none_of_forall_lt hl]
        · have hne : (loan == k) = false := beq_false_of_ne hloan
          simpa only [List.lookup_cons, hne] using h loan
      rw [hbc, hrest]

/-- A table is determined by what it holds for each loan. -/
theorem ext_find? {t s : Table α} (h : ∀ loan : LoanId, t.find? loan = s.find? loan) : t = s := by
  have hentries := entries_eq_of_lookup_eq t.ascending s.ascending h
  cases t
  cases s
  simpa using hentries

end Table
end LoanLedger
