import WafProxy.Lib.Memory

/-
  Moves in a memory

  `move` takes the cells of one stretch to another one, which may have cells in
  common with it: all cells are read before one is written. It is undefined where
  a cell of the one or the other is missing.

  Rules:
    1. `at_append`, `At.room` — a list that stands in a memory, in two parts.
    2. `move_at` — a move of a list that stands there writes that list.
    3. `at_store`, `At.store`, `store_outside` — what a written stretch holds, and
       what is kept apart from it.
    4. `Room.store` — no write takes a cell away.
-/

namespace Lib.Memory
variable {β : Type} {m : Memory β} {a b : Int} {n k : Nat} {l r : List β}

/-- The list stands in the memory from `a` on. -/
def At (m : Memory β) (a : Int) (l : List β) : Prop := ∀ i : Nat, i < l.length → m (a + i) = l[i]?

instance [DecidableEq β] (m : Memory β) (a : Int) (l : List β) : Decidable (m.At a l) :=
  inferInstanceAs (Decidable (∀ i : Nat, i < l.length → m (a + i) = l[i]?))

/-- There are `n` cells from `a` on. -/
def Room (m : Memory β) (a : Int) (n : Nat) : Prop := ∀ i : Nat, i < n → ∃ b, m (a + i) = some b

/-- Two stretches have no cell in common. -/
def Apart (a : Int) (n : Nat) (b : Int) (k : Nat) : Prop := n = 0 ∨ k = 0 ∨ a + n ≤ b ∨ b + k ≤ a

instance (a : Int) (n : Nat) (b : Int) (k : Nat) : Decidable (Apart a n b k) :=
  inferInstanceAs (Decidable (n = 0 ∨ k = 0 ∨ a + n ≤ b ∨ b + k ≤ a))

/-- The list from `a` on, and all other cells as they are. -/
def store (m : Memory β) (a : Int) (l : List β) : Memory β :=
  fun i => if a ≤ i ∧ i < a + l.length then l[(i - a).toNat]? else m i

/-- `n` cells from `src` on, to the cells from `dst` on. -/
def move (m : Memory β) (dst src : Int) (n : Nat) : Option (Memory β) :=
  ((Access.slice src n).run m).bind fun l => ((Access.slice dst n).run m).map fun _ => m.store dst l

/-! ## Lists in a memory -/

theorem at_append : m.At a (l ++ r) ↔ m.At a l ∧ m.At (a + l.length) r := by
  refine ⟨fun h => ⟨fun i hi => ?_, fun i hi => ?_⟩, fun h i hi => ?_⟩
  · rw [h i (by rw [List.length_append]; omega), List.getElem?_append_left hi]
  · have hcell := h (l.length + i) (by rw [List.length_append]; omega)
    rw [List.getElem?_append_right (Nat.le_add_right _ _), Nat.add_sub_cancel_left] at hcell
    rw [← hcell, Int.natCast_add, Int.add_assoc]
  · -- a cell of the first part or of the second
    obtain ⟨hl, hr⟩ := h
    by_cases hlt : i < l.length
    · rw [hl i hlt, List.getElem?_append_left hlt]
    · have hle := Nat.not_lt.mp hlt
      have hcell := hr (i - l.length) (by rw [List.length_append] at hi; omega)
      rw [List.getElem?_append_right hle, ← hcell]
      congr 1
      omega

theorem At.room (h : m.At a l) : m.Room a l.length := by
  intro i hi
  rw [h i hi]
  exact ⟨_, List.getElem?_eq_getElem hi⟩

theorem Room.sub (h : m.Room a n) (hle : a ≤ b) (hend : b + k ≤ a + n) : m.Room b k := by
  intro i hi
  obtain ⟨c, hc⟩ := h (b - a + i).toNat (by omega)
  refine ⟨c, ?_⟩
  rw [← hc]
  congr 1
  omega

/-- A stretch with all its cells is read. -/
theorem Room.slice (h : m.Room a n) : ∃ l, (Access.slice a n).run m = some l := by
  induction n generalizing a with
  | zero => exact ⟨[], rfl⟩
  | succ n ih =>
    obtain ⟨c, hc⟩ := h 0 (Nat.zero_lt_succ n)
    rw [Int.natCast_zero, Int.add_zero] at hc
    obtain ⟨l, hl⟩ := ih (h.sub (b := a + 1) (k := n) (by omega) (by omega))
    refine ⟨c :: l, ?_⟩
    simp [Access.slice, hc, hl]

/-- Whatever is read is there. -/
theorem room_of_slice (h : (Access.slice a n).run m = some l) : m.Room a n := by
  induction n generalizing a l with
  | zero => exact fun i hi => absurd hi (Nat.not_lt_zero i)
  | succ n ih =>
    obtain ⟨c, hc, hrest⟩ := Option.bind_eq_some_iff.mp h
    obtain ⟨l', hl', -⟩ := Option.bind_eq_some_iff.mp hrest
    intro i hi
    cases i with
    | zero =>
      rw [Int.natCast_zero, Int.add_zero]
      exact ⟨c, hc⟩
    | succ i =>
      have hcell := ih hl' i (Nat.lt_of_succ_lt_succ hi)
      rwa [Int.add_assoc, Int.add_comm 1, ← Int.natCast_succ] at hcell

theorem At.slice (h : m.At a l) : (Access.slice a l.length).run m = some l := by
  induction l generalizing a with
  | nil => rfl
  | cons c l ih =>
    have hc := h 0 (Nat.zero_lt_succ _)
    rw [Int.natCast_zero, Int.add_zero] at hc
    have hrest : (Access.slice (a + 1) l.length).run m = some l := ih ((at_append (l := [c])).mp h).2
    simp [Access.slice, hc, hrest]

/-- **A move** of a list writes that list. -/
theorem move_at {dst src : Int} (h : m.At src l) (hroom : m.Room dst l.length) :
    m.move dst src l.length = some (m.store dst l) := by
  obtain ⟨old, hold⟩ := hroom.slice
  unfold move
  rw [h.slice, Option.bind_some, hold, Option.map_some]

/-! ## Written stretches -/

@[simp] theorem store_nil : m.store a [] = m := by
  funext i
  simp only [store, List.length_nil]
  exact if_neg (by omega)

theorem store_outside {i : Int} (h : i < a ∨ a + l.length ≤ i) : m.store a l i = m i := if_neg (by omega)

theorem at_store : (m.store a l).At a l := by
  intro i hi
  unfold store
  have hcell : (a + i - a).toNat = i := by omega
  rw [if_pos (by omega), hcell]

/-- A list apart from what is written. -/
theorem At.store (h : m.At a l) (hapart : Apart a l.length b r.length) : (m.store b r).At a l := by
  intro i hi
  unfold Apart at hapart
  rw [store_outside (by omega), h i hi]

theorem Room.store (h : m.Room a n) : (m.store b r).Room a n := by
  intro i hi
  by_cases hin : b ≤ a + i ∧ a + i < b + r.length
  · unfold Memory.store
    rw [if_pos hin]
    exact ⟨_, List.getElem?_eq_getElem (by omega)⟩
  · rw [store_outside (by omega)]
    exact h i hi

end Lib.Memory
