import Mathlib.Data.List.Basic

/-
  Editing the first element with a property

  `editFirst p f` exchanges the first element with the property `p` for the
  elements `f` makes of it, and leaves a list without one as it is.

  Rules:
    1. `editFirst_split`, `editFirst_none` — the edit at its place, and where there
       is none.
    2. `editFirst_all` — what all elements have is kept, when what `f` makes has it.
    3. `filter_editFirst` — the elements the edit has nothing to do with stay in
       their order; `filter_dropFirst` — of those it is about, the first one goes.
-/

namespace Lib
variable {α : Type} {p q : α → Bool} {f : α → List α}

/-- The first element with the property is exchanged. -/
def editFirst (p : α → Bool) (f : α → List α) : List α → List α
  | [] => []
  | a :: l => if p a then f a ++ l else a :: editFirst p f l

theorem editFirst_none {l : List α} (h : ∀ a ∈ l, p a = false) : editFirst p f l = l := by
  induction l with
  | nil => rfl
  | cons a l ih =>
    obtain ⟨ha, hl⟩ := List.forall_mem_cons.mp h
    simp [editFirst, ha, ih hl]

theorem editFirst_split {front back : List α} {a : α} (hfront : ∀ b ∈ front, p b = false) (ha : p a = true) :
    editFirst p f (front ++ a :: back) = front ++ f a ++ back := by
  induction front with
  | nil => simp [editFirst, ha]
  | cons b front ih =>
    obtain ⟨hb, hfront⟩ := List.forall_mem_cons.mp hfront
    simp [editFirst, hb, ih hfront]

/-- What all elements have, and all that `f` makes of one of them, is kept. -/
theorem editFirst_all {C : α → Prop} (hf : ∀ a, p a = true → C a → ∀ b ∈ f a, C b) {l : List α} (h : ∀ a ∈ l, C a) :
    ∀ b ∈ editFirst p f l, C b := by
  induction l with
  | nil => exact h
  | cons a l ih =>
    obtain ⟨ha, hl⟩ := List.forall_mem_cons.mp h
    intro b hb
    by_cases hp : p a = true
    · rw [editFirst, if_pos hp] at hb
      apply (List.mem_append.mp hb).elim
      · exact hf a hp ha b
      · exact hl b
    · rw [editFirst, if_neg hp] at hb
      apply (List.mem_cons.mp hb).elim
      · exact fun heq => heq ▸ ha
      · exact ih hl b

/-- **The others stay as they are**, and in their order. -/
theorem filter_editFirst (hp : ∀ a, p a = true → q a = false) (hf : ∀ a, p a = true → ∀ b ∈ f a, q b = false)
    (l : List α) : (editFirst p f l).filter q = l.filter q := by
  induction l with
  | nil => rfl
  | cons a l ih =>
    by_cases h : p a = true
    · have hnone : (f a).filter q = [] := List.filter_eq_nil_iff.mpr fun b hb => by simp [hf a h b hb]
      simp [editFirst, h, hnone, hp a h]
    · simp [editFirst, h, List.filter_cons, ih]

/-- **The first one goes**: the others with the property stay. -/
theorem filter_dropFirst (l : List α) : (editFirst p (fun _ => []) l).filter p = (l.filter p).tail := by
  induction l with
  | nil => rfl
  | cons a l ih =>
    by_cases h : p a = true
    · simp [editFirst, h]
    · simp [editFirst, h, ih]

end Lib
