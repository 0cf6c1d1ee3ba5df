import Mathlib.Data.List.Infix

/-
  Longest suffixes inside a prefix-closed set of words

  A set of words that has the prefixes of its members is a tree of words. The
  longest suffix of a text that is a word of the tree says which words the text
  ends with, and can be followed along the text letter by letter.

  Rules:
    1. `longestSuffix_suffix`, `longestSuffix_mem`, `suffix_longestSuffix` — what
       the longest suffix is.
    2. `longestSuffix_concat` — it is followed letter by letter.
    3. `fallback`, `longestSuffix_fallback`, `fallback_concat` — what a word that
       cannot be continued is cut to, and how the cuts of longer words come from
       those of shorter ones.
    4. `suffix_iff_longestSuffix`, `suffix_iff_fallback` — the words a text ends
       with.
-/

namespace Lib
variable {α : Type}

/-- A set of words with the prefixes of its members. -/
structure PrefixClosed (P : List α → Prop) : Prop where
  nil : P []
  init : ∀ w a, P (w ++ [a]) → P w

/-- The longest suffix in the set. -/
def longestSuffix (P : List α → Prop) [DecidablePred P] : List α → List α
  | [] => []
  | a :: w => if P (a :: w) then a :: w else longestSuffix P w

/-- What a word is cut to when it cannot be continued. -/
def fallback (P : List α → Prop) [DecidablePred P] (w : List α) : List α := longestSuffix P w.tail

variable {P : List α → Prop} [DecidablePred P] {w u v : List α} {a : α}

theorem longestSuffix_suffix : ∀ w : List α, longestSuffix P w <:+ w := by
  intro w
  induction w with
  | nil => exact List.suffix_refl []
  | cons a w ih =>
    rw [longestSuffix]
    split
    · exact List.suffix_refl _
    · exact ih.trans (List.suffix_cons a w)

theorem longestSuffix_mem (hP : PrefixClosed P) : ∀ w : List α, P (longestSuffix P w) := by
  intro w
  induction w with
  | nil => exact hP.nil
  | cons a w ih =>
    rw [longestSuffix]
    split
    · next h => exact h
    · exact ih

theorem suffix_longestSuffix (hv : P v) (h : v <:+ w) : v <:+ longestSuffix P w := by
  induction w with
  | nil => exact h
  | cons a w ih =>
    rw [longestSuffix]
    split
    · exact h
    · next hno =>
      rcases List.suffix_cons_iff.mp h with heq | hw
      · exact absurd (heq ▸ hv) hno
      · exact ih hw

theorem longestSuffix_self (h : P w) : longestSuffix P w = w := by
  cases w with
  | nil => rfl
  | cons a w => rw [longestSuffix, if_pos h]

/-- Two suffixes of a text, each of which is a suffix of the other. -/
theorem suffix_antisymm (h : u <:+ v) (h' : v <:+ u) : u = v :=
  h.eq_of_length (Nat.le_antisymm h.length_le h'.length_le)

theorem longestSuffix_eq (hP : PrefixClosed P) (hv : P v) (h : v <:+ w)
    (hmax : ∀ u, P u → u <:+ w → u <:+ v) : longestSuffix P w = v :=
  suffix_antisymm (hmax _ (longestSuffix_mem hP w) (longestSuffix_suffix w)) (suffix_longestSuffix hv h)

/-- A word of the tree that ends with the new letter continues a suffix that was
a word before. -/
theorem longestSuffix_concat (hP : PrefixClosed P) (w : List α) (a : α) :
    longestSuffix P (w ++ [a]) = longestSuffix P (longestSuffix P w ++ [a]) := by
  apply longestSuffix_eq hP (longestSuffix_mem hP _)
  · have hsuf := longestSuffix_suffix (P := P) (longestSuffix P w ++ [a])
    apply hsuf.trans
    obtain ⟨t, ht⟩ := longestSuffix_suffix (P := P) w
    exact ⟨t, by rw [← List.append_assoc, ht]⟩
  · intro u hu h
    apply suffix_longestSuffix hu
    rcases List.suffix_concat_iff.mp h with hnil | ⟨t, heq, ht⟩
    · exact hnil ▸ List.nil_suffix
    · subst heq
      obtain ⟨r, hr⟩ := suffix_longestSuffix (hP.init t a hu) ht
      exact ⟨r, by rw [← List.append_assoc, hr]⟩

theorem fallback_length (h : w ≠ []) : (fallback P w).length < w.length := by
  have hle := (longestSuffix_suffix (P := P) w.tail).length_le
  have hpos := List.length_pos_iff.mpr h
  rw [List.length_tail] at hle
  rw [fallback]
  omega

/-- A word without a continuation by the letter: its fallback is continued. -/
theorem longestSuffix_fallback (hP : PrefixClosed P) (hne : w ≠ []) (hno : ¬ P (w ++ [a])) :
    longestSuffix P (w ++ [a]) = longestSuffix P (fallback P w ++ [a]) := by
  obtain ⟨b, u, rfl⟩ := List.exists_cons_of_ne_nil hne
  have hcut : ¬ P (b :: (u ++ [a])) := hno
  calc longestSuffix P (b :: (u ++ [a]))
      = longestSuffix P (u ++ [a]) := by rw [longestSuffix, if_neg hcut]
    _ = longestSuffix P (longestSuffix P u ++ [a]) := longestSuffix_concat hP u a

/-- The fallback of a continued word continues the fallback of the word. -/
theorem fallback_concat (hP : PrefixClosed P) (hne : w ≠ []) :
    fallback P (w ++ [a]) = longestSuffix P (fallback P w ++ [a]) := by
  obtain ⟨b, u, rfl⟩ := List.exists_cons_of_ne_nil hne
  exact longestSuffix_concat hP u a

/-- A text ends with the words its longest suffix ends with. -/
theorem suffix_iff_longestSuffix (hv : P v) : v <:+ w ↔ v <:+ longestSuffix P w :=
  ⟨suffix_longestSuffix hv, fun h => h.trans (longestSuffix_suffix w)⟩

/-- A text other than the empty one ends with itself and the words its fallback
ends with. -/
theorem suffix_iff_fallback (hne : w ≠ []) (hv : P v) : v <:+ w ↔ v = w ∨ v <:+ fallback P w := by
  obtain ⟨b, u, rfl⟩ := List.exists_cons_of_ne_nil hne
  rw [List.suffix_cons_iff, fallback, List.tail_cons, ← suffix_iff_longestSuffix hv]

end Lib
