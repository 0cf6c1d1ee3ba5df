import Mathlib.Data.Prod.Lex
import Mathlib.Data.Set.Defs

/-
  Comparison functions

  A function that compares two things returns a number of which only the sign
  means something. It orders a set of things when the sign is turned round with
  the things, and "not greater" is transitive.

  Rules:
    1. `Compares.orders` — what compares keys is an order.
    2. `Compares.lex` — comparing by a second key what the first does not tell apart.
-/

namespace Lib

/-- `cmp` orders `S`, and takes for equal what `same` does. -/
structure Orders {α : Type*} (S : Set α) (same : α → α → Prop) (cmp : α → α → Int) : Prop where
  antisymm : ∀ a ∈ S, ∀ b ∈ S, (cmp a b).sign = -(cmp b a).sign
  trans : ∀ a ∈ S, ∀ b ∈ S, ∀ c ∈ S, cmp a b ≤ 0 → cmp b c ≤ 0 → cmp a c ≤ 0
  zero : ∀ a ∈ S, ∀ b ∈ S, cmp a b = 0 ↔ same a b

theorem Orders.congr {α : Type*} {S : Set α} {same same' : α → α → Prop} {cmp : α → α → Int}
    (h : Orders S same cmp) (hsame : ∀ a ∈ S, ∀ b ∈ S, (same a b ↔ same' a b)) : Orders S same' cmp :=
  ⟨h.antisymm, h.trans, fun a ha b hb => (h.zero a ha b hb).trans (hsame a ha b hb)⟩

/-- The sign of `x` compares `a` with `b`. -/
structure Compares {β : Type*} [LT β] (x : Int) (a b : β) : Prop where
  neg : x < 0 ↔ a < b
  pos : 0 < x ↔ b < a

namespace Compares

section
variable {β : Type*} [LinearOrder β] {x y : Int} {a b : β}

theorem zero (h : Compares x a b) : x = 0 ↔ a = b := by
  have hneg := h.neg
  have hpos := h.pos
  constructor
  · intro hx
    apply le_antisymm
    · exact not_lt.mp fun hlt => absurd (hpos.mpr hlt) (by omega)
    · exact not_lt.mp fun hlt => absurd (hneg.mpr hlt) (by omega)
  · intro hab
    have hnot : ¬ x < 0 := fun hx => absurd (hneg.mp hx) (hab ▸ lt_irrefl b)
    have hnot' : ¬ 0 < x := fun hx => absurd (hpos.mp hx) (hab ▸ lt_irrefl b)
    omega

theorem le (h : Compares x a b) : x ≤ 0 ↔ a ≤ b := by
  rw [← Int.not_lt, ← not_lt]
  exact not_congr h.pos

theorem same (h : a = b) : Compares 0 a b :=
  ⟨iff_of_false (by omega) (h ▸ lt_irrefl b), iff_of_false (by omega) (h ▸ lt_irrefl b)⟩

theorem of_neg (hx : x < 0) (h : a < b) : Compares x a b :=
  ⟨iff_of_true hx h, iff_of_false (by omega) (not_lt_of_gt h)⟩

/-- The same things compared twice. -/
theorem sign_eq (h : Compares x a b) (h' : Compares y a b) : x.sign = y.sign := by
  rcases lt_trichotomy a b with hab | hab | hab
  · rw [Int.sign_eq_neg_one_of_neg (h.neg.mpr hab), Int.sign_eq_neg_one_of_neg (h'.neg.mpr hab)]
  · rw [h.zero.mpr hab, h'.zero.mpr hab]
  · rw [Int.sign_eq_one_of_pos (h.pos.mpr hab), Int.sign_eq_one_of_pos (h'.pos.mpr hab)]

/-- They and the other way round. -/
theorem sign_swap (h : Compares x a b) (h' : Compares y b a) : x.sign = -y.sign := by
  rcases lt_trichotomy a b with hab | hab | hab
  · rw [Int.sign_eq_neg_one_of_neg (h.neg.mpr hab), Int.sign_eq_one_of_pos (h'.pos.mpr hab)]
  · rw [h.zero.mpr hab, h'.zero.mpr hab.symm]
    rfl
  · rw [Int.sign_eq_one_of_pos (h.pos.mpr hab), Int.sign_eq_neg_one_of_neg (h'.neg.mpr hab)]
    rfl

/-- **Keys** that are compared make an order. -/
theorem orders {α : Type*} {S : Set α} {key : α → β} {cmp : α → α → Int}
    (h : ∀ a ∈ S, ∀ b ∈ S, Compares (cmp a b) (key a) (key b)) : Orders S (fun a b => key a = key b) cmp where
  antisymm := fun a ha b hb => (h a ha b hb).sign_swap (h b hb a ha)
  trans := fun a ha b hb c hc hab hbc =>
    (h a ha c hc).le.mpr (le_trans ((h a ha b hb).le.mp hab) ((h b hb c hc).le.mp hbc))
  zero := fun a ha b hb => (h a ha b hb).zero

/-- **A second key.** -/
theorem lex {γ : Type*} [LinearOrder γ] {c d : γ} (h : Compares x a b) (h' : Compares y c d) :
    Compares (if x ≠ 0 then x else y) (toLex (a, c)) (toLex (b, d)) := by
  have hzero := h.zero
  have hback : b = a ↔ x = 0 := eq_comm.trans hzero.symm
  constructor
  · rw [Prod.Lex.toLex_lt_toLex, ← h.neg, ← hzero, ← h'.neg]
    split <;> omega
  · rw [Prod.Lex.toLex_lt_toLex, ← h.pos, ← h'.pos]
    show _ ↔ 0 < x ∨ b = a ∧ 0 < y
    rw [hback]
    split <;> omega

end

end Compares

end Lib
