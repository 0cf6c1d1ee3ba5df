import Mathlib.Data.List.Infix

/-
  First occurrences

  Where a pattern stands in a list first, with all of its elements.

  Rules:
    1. `isFirst_zero`, `IsFirst.cons` — a match at the head, and one that is
       behind a head where there is none.
    2. `isFirst_short` — a list shorter than the pattern.
    3. `IsFirst.unique` — there is one answer.
-/

namespace Lib
variable {α : Type} {pattern l : List α} {c : α}

/-- The pattern stands at this place and at none before it, or nowhere. -/
def IsFirst (pattern l : List α) : Option Nat → Prop
  | none => ∀ i, ¬ pattern <+: l.drop i
  | some i => pattern <+: l.drop i ∧ ∀ j, j < i → ¬ pattern <+: l.drop j

theorem isFirst_zero (h : pattern <+: l) : IsFirst pattern l (some 0) :=
  ⟨h, fun j hj => absurd hj (Nat.not_lt_zero j)⟩

/-- A match behind the first element. -/
theorem IsFirst.cons {o : Option Nat} (h : IsFirst pattern l o) (hno : ¬ pattern <+: c :: l) :
    IsFirst pattern (c :: l) (o.map (· + 1)) := by
  cases o with
  | none =>
    intro i
    cases i with
    | zero => exact hno
    | succ i => exact h i
  | some i =>
    refine ⟨h.1, fun j hj => ?_⟩
    cases j with
    | zero => exact hno
    | succ j => exact h.2 j (Nat.lt_of_succ_lt_succ hj)

theorem isFirst_short (h : l.length < pattern.length) : IsFirst pattern l none := by
  intro i hpre
  have hlen := hpre.length_le
  rw [List.length_drop] at hlen
  omega

/-- Neither of two first places is before the other. -/
theorem IsFirst.unique {o o' : Option Nat} (h : IsFirst pattern l o) (h' : IsFirst pattern l o') : o = o' := by
  cases o with
  | none =>
    cases o' with
    | none => rfl
    | some j => exact absurd h'.1 (h j)
  | some i =>
    cases o' with
    | none => exact absurd h.1 (h' i)
    | some j =>
      have hij : ¬ j < i := fun hlt => h.2 j hlt h'.1
      have hji : ¬ i < j := fun hlt => h'.2 i hlt h.1
      exact congrArg some (Nat.le_antisymm (Nat.not_lt.mp hij) (Nat.not_lt.mp hji))

end Lib
