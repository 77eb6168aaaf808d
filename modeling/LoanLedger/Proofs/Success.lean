import Mathlib.Data.List.Forall2
import LoanLedger.Error

/-!
Computations that can fail, read from the side of success: what the parts of a sequence or a
traversal gave when the whole of it gave a result.
-/

set_option autoImplicit false
set_option relaxedAutoImplicit false

namespace LoanLedger

universe u v

variable {ε : Type u} {α β : Type v}

theorem bind_eq_ok {x : Except ε α} {f : α → Except ε β} {b : β} :
    x >>= f = .ok b ↔ ∃ a, x = .ok a ∧ f a = .ok b := by
  cases x with
  | error e => simp [bind, Except.bind]
  | ok a => simp [bind, Except.bind]

theorem map_eq_ok {x : Except ε α} {f : α → β} {b : β} :
    x.map f = .ok b ↔ ∃ a, x = .ok a ∧ f a = b := by
  cases x with
  | error e => simp [Except.map]
  | ok a => simp [Except.map]

theorem bind_ok (a : α) (f : α → Except ε β) : Except.ok a >>= f = f a := rfl

theorem pure_eq_ok {a b : α} : (pure a : Except ε α) = .ok b ↔ a = b := by
  simp [pure, Except.pure]

theorem lift_fault_eq_ok {γ : Type} {x : Except Fault γ} {a : γ} :
    (liftM x : Except Failure γ) = .ok a ↔ x = .ok a := by
  cases x with
  | error f => simp [liftM, monadLift, MonadLift.monadLift]
  | ok b => simp [liftM, monadLift, MonadLift.monadLift]

theorem lift_refusal_eq_ok {γ : Type} {x : Except Refusal γ} {a : γ} :
    (liftM x : Except Failure γ) = .ok a ↔ x = .ok a := by
  cases x with
  | error r => simp [liftM, monadLift, MonadLift.monadLift]
  | ok b => simp [liftM, monadLift, MonadLift.monadLift]

theorem lift_fault_ok {γ : Type} (a : γ) :
    (liftM (.ok a : Except Fault γ) : Except Failure γ) = .ok a := rfl

theorem lift_fault_bind {γ δ : Type} (x : Except Fault γ) (f : γ → Except Fault δ) :
    (liftM (x >>= f) : Except Failure δ) = liftM x >>= fun a => liftM (f a) := by
  cases x <;> rfl

theorem unless_refused_eq_ok {γ : Type} {p : Prop} [Decidable p] {r : Refusal}
    {f : Unit → Except Failure γ} {a : γ} :
    (if p then refuse r >>= f else f ()) = .ok a ↔ ¬p ∧ f () = .ok a := by
  by_cases hp : p
  · rw [if_pos hp, refuse]
    simp [bind, Except.bind, hp]
  · rw [if_neg hp]
    simp [hp]

theorem foldlM_keeps {P : β → Prop} {f : β → α → Except ε β} {l : List α} {b c : β}
    (hstep : ∀ x ∈ l, ∀ b c, P b → f b x = .ok c → P c) (hb : P b)
    (h : l.foldlM f b = .ok c) : P c := by
  induction l generalizing b with
  | nil =>
    rw [List.foldlM_nil, pure_eq_ok] at h
    exact h ▸ hb
  | cons x l ih =>
    obtain ⟨d, hd, h⟩ := bind_eq_ok.mp ((List.foldlM_cons ..).symm.trans h)
    obtain ⟨hx, hstep⟩ := List.forall_mem_cons.mp hstep
    exact ih hstep (hx b d hb hd) h

/-- A fold succeeds when every step does, where a step keeps what the rest of the fold needs. -/
theorem exists_foldlM {P : List α → β → Prop} {f : β → α → Except ε β} {l : List α} {b : β}
    (hstep : ∀ x l b, P (x :: l) b → ∃ c, f b x = .ok c ∧ P l c) (hb : P l b) :
    ∃ c, l.foldlM f b = .ok c ∧ P [] c := by
  induction l generalizing b with
  | nil => exact ⟨b, rfl, hb⟩
  | cons x l ih =>
    obtain ⟨c, hc, hrest⟩ := hstep x l b hb
    obtain ⟨d, hd, hP⟩ := ih hrest
    exact ⟨d, by rw [List.foldlM_cons, hc, bind_ok, hd], hP⟩

theorem mapM_eq_ok_iff {f : α → Except ε β} {l : List α} {m : List β} :
    l.mapM f = .ok m ↔ List.Forall₂ (fun a b => f a = .ok b) l m := by
  induction l generalizing m with
  | nil => rw [List.mapM_nil, List.forall₂_nil_left_iff, pure_eq_ok, eq_comm]
  | cons a l ih =>
    rw [List.mapM_cons, bind_eq_ok, List.forall₂_cons_left_iff]
    constructor
    · rintro ⟨b, hb, hrest⟩
      obtain ⟨bs, hbs, hm⟩ := bind_eq_ok.mp hrest
      exact ⟨b, bs, hb, ih.mp hbs, (pure_eq_ok.mp hm).symm⟩
    · rintro ⟨b, bs, hb, hbs, rfl⟩
      exact ⟨b, hb, bind_eq_ok.mpr ⟨bs, ih.mpr hbs, rfl⟩⟩

theorem exists_mapM {f : α → Except ε β} {l : List α} (h : ∀ a ∈ l, ∃ b, f a = .ok b) :
    ∃ m, l.mapM f = .ok m := by
  induction l with
  | nil => exact ⟨[], rfl⟩
  | cons a l ih =>
    obtain ⟨⟨b, hb⟩, h⟩ := List.forall_mem_cons.mp h
    obtain ⟨bs, hbs⟩ := ih h
    exact ⟨b :: bs, mapM_eq_ok_iff.mpr (.cons hb (mapM_eq_ok_iff.mp hbs))⟩

end LoanLedger
