import Mathlib.Data.List.Basic
import Mathlib.Data.List.Induction

/-
  A list dealt round to `n` takers

  The `k`-th element goes to the taker `k % n`. What one taker gets is every
  `n`-th element, and the shares of any two takers differ by at most one.

    1. `dealt_concat` — one more element is dealt.
    2. `dealt_turn` — where the next element of a taker stands.
    3. `dealt_get` — the `i`-th of a taker is the element at `i * n + w`.
    4. `dealt_balanced` — the shares.
-/

namespace Lib
variable {α : Type} {n w : Nat} {f : α → Nat} {l : List α} {x : α}

/-- The `k`-th element is for `k % n`. -/
def Dealt (n : Nat) (f : α → Nat) (l : List α) : Prop := ∀ k x, l[k]? = some x → f x = k % n

/-- What `w` gets. -/
def dealtTo (f : α → Nat) (w : Nat) (l : List α) : List α := l.filter fun x => decide (f x = w)

theorem dealtTo_concat (f : α → Nat) (w : Nat) (l : List α) (x : α) :
    dealtTo f w (l ++ [x]) = dealtTo f w l ++ if f x = w then [x] else [] := by
  rw [dealtTo, List.filter_append]
  by_cases h : f x = w
  · simp [dealtTo, h]
  · simp [dealtTo, h]

theorem dealt_nil : Dealt n f ([] : List α) := by
  intro k x h
  simp at h

theorem dealt_concat : Dealt n f (l ++ [x]) ↔ Dealt n f l ∧ f x = l.length % n := by
  constructor
  · intro h
    refine ⟨fun k y hy => h k y ?_, h l.length x (by simp)⟩
    rw [List.getElem?_append_left (List.getElem?_eq_some_iff.mp hy).1]
    exact hy
  · intro h k y hy
    by_cases hk : k < l.length
    · rw [List.getElem?_append_left hk] at hy
      exact h.1 k y hy
    · rw [List.getElem?_append_right (Nat.le_of_not_lt hk)] at hy
      obtain ⟨hlt, heq⟩ := List.getElem?_eq_some_iff.mp hy
      have hlast : k - l.length = 0 := Nat.lt_one_iff.mp hlt
      have hx : x = y := by simpa [hlast] using heq
      have hkl : k = l.length := by omega
      rw [← hx, hkl]
      exact h.2

/-- The turn of `w` in the window of `n` from `m` on. -/
theorem turn_iff {c m : Nat} (hw : w < n) (hle : m ≤ c * n + w) (hlt : c * n + w < m + n) :
    m % n = w ↔ c * n + w = m := by
  constructor
  · intro h
    have hdiv := Nat.div_add_mod m n
    rw [h, Nat.mul_comm] at hdiv
    have h1 : m / n ≤ c := Nat.le_of_mul_le_mul_right (by omega) (Nat.zero_lt_of_lt hw)
    have h2 : c < m / n + 1 := by
      apply Nat.lt_of_mul_lt_mul_right (a := n)
      rw [Nat.succ_mul]
      omega
    have h3 : c = m / n := by omega
    rw [h3]
    exact hdiv
  · intro h
    rw [← h, Nat.mul_add_mod_self_right, Nat.mod_eq_of_lt hw]

/-- **The next element of `w`** stands among the next `n`. -/
theorem dealt_turn (hw : w < n) (h : Dealt n f l) :
    l.length ≤ (dealtTo f w l).length * n + w ∧ (dealtTo f w l).length * n + w < l.length + n := by
  induction l using List.reverseRecOn with
  | nil => exact ⟨Nat.zero_le _, by simpa [dealtTo] using hw⟩
  | append_singleton l x ih =>
    obtain ⟨hl, hx⟩ := dealt_concat.mp h
    obtain ⟨hle, hlt⟩ := ih hl
    have hturn := turn_iff hw hle hlt
    rw [dealtTo_concat, List.length_append, List.length_append, List.length_singleton]
    by_cases heq : f x = w
    · have hnow := hturn.mp (hx.symm.trans heq)
      rw [if_pos heq, List.length_singleton, Nat.succ_mul]
      omega
    · have hnot : (dealtTo f w l).length * n + w ≠ l.length := fun hnow => heq (hx.trans (hturn.mpr hnow))
      simp only [if_neg heq, List.length_nil, Nat.add_zero]
      omega

/-- **Every `n`-th element goes to `w`.** -/
theorem dealt_get (hw : w < n) (h : Dealt n f l) (i : Nat) : (dealtTo f w l)[i]? = l[i * n + w]? := by
  induction l using List.reverseRecOn with
  | nil => rfl
  | append_singleton l x ih =>
    obtain ⟨hl, hx⟩ := dealt_concat.mp h
    obtain ⟨hle, hlt⟩ := dealt_turn hw hl
    have hturn := turn_iff hw hle hlt
    have hsame := ih hl
    rw [dealtTo_concat]
    by_cases heq : f x = w
    · have hnow := hturn.mp (hx.symm.trans heq)
      rw [if_pos heq]
      rcases Nat.lt_trichotomy i (dealtTo f w l).length with hi | hi | hi
      · have hin : i * n + w < l.length := by
          have hmul : (i + 1) * n ≤ (dealtTo f w l).length * n := Nat.mul_le_mul_right _ hi
          rw [Nat.succ_mul] at hmul
          omega
        rw [List.getElem?_append_left hi, List.getElem?_append_left hin, hsame]
      · rw [hi, hnow]
        simp
      · have hout : l.length < i * n + w := by
          have hmul : ((dealtTo f w l).length + 1) * n ≤ i * n := Nat.mul_le_mul_right _ hi
          rw [Nat.succ_mul] at hmul
          omega
        rw [List.getElem?_eq_none (by rw [List.length_append, List.length_singleton]; omega),
          List.getElem?_eq_none (by rw [List.length_append, List.length_singleton]; omega)]
    · rw [if_neg heq, List.append_nil, hsame]
      have hne : i * n + w ≠ l.length := by
        intro hlen
        apply heq
        rw [hx, ← hlen, Nat.mul_add_mod_self_right, Nat.mod_eq_of_lt hw]
      rcases Nat.lt_or_gt_of_ne hne with hin | hout
      · rw [List.getElem?_append_left hin]
      · rw [List.getElem?_eq_none (Nat.le_of_lt hout),
          List.getElem?_eq_none (by rw [List.length_append, List.length_singleton]; omega)]

/-- **The shares differ by at most one.** -/
theorem dealt_balanced {w' : Nat} (hw : w < n) (hw' : w' < n) (h : Dealt n f l) :
    (dealtTo f w l).length ≤ (dealtTo f w' l).length + 1 := by
  obtain ⟨-, hlt⟩ := dealt_turn hw h
  obtain ⟨hle, -⟩ := dealt_turn hw' h
  have hmul : (dealtTo f w l).length * n < ((dealtTo f w' l).length + 2) * n := by
    rw [Nat.add_mul]
    omega
  have hshare := Nat.lt_of_mul_lt_mul_right hmul
  omega

end Lib
