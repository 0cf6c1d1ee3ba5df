import Mathlib.Data.Int.ModEq

/-
  Rings and bounded queues

  A ring of `m` cells is walked modulo `m`. A list stands in it when it is the
  contents of the cells from some index on; the cells behind it are free, and the
  last of them is the one in front of the list.

  Rules:
    1. `index_index`, `index_inj` — steps on a ring add up, and fewer than `m` of
       them do not come back to a cell.
    2. `index_eq_self`, `index_succ_eq_self` — the end of a list is its start
       exactly when the list is empty, and the cell before its start exactly when
       all cells but one are taken.
    3. `window_concat`, `window_cons`, `window_congr` — a list grows at its end,
       shrinks at its front, and does not see the other cells.
    4. `Fifo` — the bounded queue, and what a list of operations makes of it.
-/

namespace Lib.Ring
variable {α : Type} {cell cell' : Nat → α} {m front n i j : Nat}

/-- The cell `i` steps behind `front`. -/
def index (m front i : Nat) : Nat := (front + i) % m

/-- The contents of `n` cells from `front` on. -/
def window (cell : Nat → α) (m front n : Nat) : List α := (List.range n).map fun i => cell (index m front i)

/-! ## Steps -/

theorem index_lt (hm : 0 < m) : index m front i < m := Nat.mod_lt _ hm

theorem index_zero (h : front < m) : index m front 0 = front := Nat.mod_eq_of_lt h

theorem index_index : index m (index m front i) j = index m front (i + j) := by
  unfold index
  rw [Nat.mod_add_mod, Nat.add_assoc]

/-- All the way around. -/
theorem index_size (h : front < m) : index m front m = front := by
  unfold index
  rw [Nat.add_mod_right, Nat.mod_eq_of_lt h]

theorem index_inj (hi : i < m) (hj : j < m) (h : index m front i = index m front j) : i = j :=
  Nat.ModEq.eq_of_lt_of_lt (Nat.ModEq.add_left_cancel' front h) hi hj

theorem index_eq_self (h : front < m) (hi : i < m) : index m front i = front ↔ i = 0 := by
  refine ⟨fun heq => ?_, fun hzero => by rw [hzero, index_zero h]⟩
  apply index_inj hi (Nat.lt_of_le_of_lt (Nat.zero_le front) h)
  rw [heq, index_zero h]

theorem index_succ_eq_self (h : front < m) (hi : i < m) : index m front (i + 1) = front ↔ i + 1 = m := by
  refine ⟨fun heq => ?_, fun hsize => by rw [hsize, index_size h]⟩
  apply Nat.le_antisymm hi
  apply Nat.le_of_not_lt
  intro hlt
  exact absurd ((index_eq_self h hlt).mp heq) (Nat.succ_ne_zero i)

/-! ## Lists in a ring -/

theorem window_concat : window cell m front (n + 1) = window cell m front n ++ [cell (index m front n)] := by
  simp [window, List.range_succ]

theorem window_cons (h : front < m) :
    window cell m front (n + 1) = cell front :: window cell m (index m front 1) n := by
  have hstep : ∀ i, cell (index m (index m front 1) i) = cell (index m front (i + 1)) := by
    intro i
    rw [index_index, Nat.add_comm]
  simp [window, List.range_succ_eq_map, index_zero h, hstep, Function.comp_def]

/-- Other cells do not matter. -/
theorem window_congr (h : ∀ i, i < n → cell (index m front i) = cell' (index m front i)) :
    window cell m front n = window cell' m front n := by
  apply List.map_congr_left
  intro i hi
  exact h i (List.mem_range.mp hi)

end Lib.Ring

namespace Lib.Fifo
variable {α : Type}

/-- An operation on a queue. -/
inductive Op (α : Type) where
  | put (x : α)
  | take
  deriving DecidableEq, Repr

/-- Whether an object was stored, or which one was taken. -/
inductive Result (α : Type) where
  | stored (ok : Bool)
  | taken (x : Option α)
  deriving DecidableEq, Repr

/-- One operation on a queue of `capacity` objects: a full one refuses and stays. -/
def step (capacity : Nat) (l : List α) : Op α → Result α × List α
  | .put x => if l.length = capacity then (.stored false, l) else (.stored true, l ++ [x])
  | .take => (.taken l.head?, l.tail)

/-- What the operations return. -/
def results (capacity : Nat) : List α → List (Op α) → List (Result α)
  | _, [] => []
  | l, op :: ops => (step capacity l op).1 :: results capacity (step capacity l op).2 ops

/-- The queue behind the operations. -/
def behind (capacity : Nat) : List α → List (Op α) → List α
  | l, [] => l
  | l, op :: ops => behind capacity (step capacity l op).2 ops

@[simp] theorem step_take {capacity : Nat} (l : List α) :
    step capacity l .take = (.taken l.head?, l.tail) := rfl

theorem step_full {capacity : Nat} {l : List α} (h : l.length = capacity) (x : α) :
    step capacity l (.put x) = (.stored false, l) := if_pos h

theorem step_room {capacity : Nat} {l : List α} (h : l.length ≠ capacity) (x : α) :
    step capacity l (.put x) = (.stored true, l ++ [x]) := if_neg h

end Lib.Fifo
