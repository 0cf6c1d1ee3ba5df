import Mathlib.Data.List.Basic

/-
  Allocated buffers

  A buffer has a size and a cell at every offset. A write behind its end goes to
  memory that belongs to others; it is recorded by how far the writes have gone
  (`reach`), so that "no write left the buffer" is `reach ≤ size`.

  Rules:
    1. `read_append`, `read_congr` — a stretch read in two parts; a stretch
       whose cells are the same.
    2. `read_copy`, `read_copy_before`, `read_copy_after` — a stretch that was
       just written, and one in front of or behind what was written;
       `copy_self_cell` — one that was moved to its own place.
    3. `Kept.copy`, `kept_copy_iff` — when a write stays inside.
-/

namespace Lib

/-- `size` cells; `reach` is the end of the furthest write so far. -/
structure Buffer (β : Type) where
  size : Nat
  cell : Nat → β
  reach : Nat := 0

namespace Buffer
variable {β : Type}

/-- `memmove` of `l` to the offset `i`. -/
def copy (b : Buffer β) (i : Nat) (l : List β) : Buffer β where
  size := b.size
  cell := fun j => if i ≤ j then (l[j - i]?).getD (b.cell j) else b.cell j
  reach := if l = [] then b.reach else max b.reach (i + l.length)

/-- The `n` cells from `i` on. -/
def read (b : Buffer β) (i n : Nat) : List β := (List.range' i n).map b.cell

/-- No write left the buffer. -/
def Kept (b : Buffer β) : Prop := b.reach ≤ b.size

instance (b : Buffer β) : Decidable b.Kept := inferInstanceAs (Decidable (b.reach ≤ b.size))

/-! ## Reading -/

@[simp] theorem read_length (b : Buffer β) (i n : Nat) : (b.read i n).length = n := by
  simp [read]

theorem getElem?_read (b : Buffer β) {i n k : Nat} (h : k < n) :
    (b.read i n)[k]? = some (b.cell (i + k)) := by
  simp [read, List.getElem?_range' h]

theorem read_congr {b c : Buffer β} {i n : Nat} (h : ∀ j, i ≤ j → j < i + n → b.cell j = c.cell j) :
    b.read i n = c.read i n := by
  apply List.map_congr_left
  intro j hj
  obtain ⟨hle, hlt⟩ := List.mem_range'_1.mp hj
  exact h j hle hlt

theorem read_append (b : Buffer β) (i m n : Nat) :
    b.read i (m + n) = b.read i m ++ b.read (i + m) n := by
  rw [read, read, read, ← List.map_append, List.range'_append_1]

theorem read_take (b : Buffer β) (i : Nat) {k n : Nat} (h : k ≤ n) : (b.read i n).take k = b.read i k := by
  have hsplit := b.read_append i k (n - k)
  rw [Nat.add_sub_cancel' h] at hsplit
  rw [hsplit, List.take_append_of_le_length (Nat.le_of_eq (b.read_length i k).symm)]
  exact List.take_of_length_le (Nat.le_of_eq (b.read_length i k))

theorem read_drop (b : Buffer β) (i : Nat) {k n : Nat} (h : k ≤ n) :
    (b.read i n).drop k = b.read (i + k) (n - k) := by
  have hsplit := b.read_append i k (n - k)
  rw [Nat.add_sub_cancel' h] at hsplit
  rw [hsplit, List.drop_append_of_le_length (Nat.le_of_eq (b.read_length i k).symm),
    List.drop_of_length_le (Nat.le_of_eq (b.read_length i k)), List.nil_append]

/-- A stretch is known by its cells. -/
theorem read_eq {b : Buffer β} {i : Nat} {l : List β}
    (h : ∀ k, k < l.length → l[k]? = some (b.cell (i + k))) : b.read i l.length = l := by
  apply List.ext_getElem?
  intro k
  by_cases hk : k < l.length
  · rw [getElem?_read b hk, h k hk]
  · have hk := Nat.not_lt.mp hk
    rw [List.getElem?_eq_none hk, List.getElem?_eq_none (by rw [read_length]; exact hk)]

/-! ## Writing -/

@[simp] theorem copy_size (b : Buffer β) (i : Nat) (l : List β) : (b.copy i l).size = b.size := rfl

theorem copy_cell_before (b : Buffer β) {i j : Nat} (l : List β) (h : j < i) :
    (b.copy i l).cell j = b.cell j := if_neg (Nat.not_le.mpr h)

theorem copy_cell_after (b : Buffer β) {i j : Nat} {l : List β} (h : i + l.length ≤ j) :
    (b.copy i l).cell j = b.cell j := by
  have hi : i ≤ j := by omega
  have hnone : l[j - i]? = none := List.getElem?_eq_none (by omega)
  simp [copy, hi, hnone]

theorem copy_cell (b : Buffer β) {i k : Nat} {l : List β} (h : k < l.length) :
    l[k]? = some ((b.copy i l).cell (i + k)) := by
  have hi : i ≤ i + k := Nat.le_add_right i k
  simp [copy, hi, h]

theorem copy_cell_zero (b : Buffer β) {k : Nat} {l : List β} (h : k < l.length) :
    l[k]? = some ((b.copy 0 l).cell k) := by
  have hcell := copy_cell (i := 0) b h
  rw [Nat.zero_add] at hcell
  exact hcell

theorem copy_singleton_cell (b : Buffer β) (i : Nat) (c : β) : (b.copy i [c]).cell i = c := by
  simp [copy]

theorem read_copy (b : Buffer β) (i : Nat) (l : List β) : (b.copy i l).read i l.length = l :=
  read_eq fun _ hk => copy_cell b hk

/-- A stretch moved to where it stands. -/
theorem copy_self_cell (b : Buffer β) (i n j : Nat) : (b.copy i (b.read i n)).cell j = b.cell j := by
  by_cases hlt : j < i
  · exact copy_cell_before b _ hlt
  · obtain ⟨k, rfl⟩ := Nat.exists_eq_add_of_le (Nat.not_lt.mp hlt)
    by_cases hk : k < n
    · have hcell := copy_cell (i := i) (l := b.read i n) b (by rw [read_length]; exact hk)
      rw [getElem?_read b hk] at hcell
      exact (Option.some.inj hcell).symm
    · exact copy_cell_after b (by rw [read_length]; omega)

theorem read_copy_before (b : Buffer β) {i j n : Nat} (l : List β) (h : j + n ≤ i) :
    (b.copy i l).read j n = b.read j n :=
  read_congr fun k _ hk => copy_cell_before b l (by omega)

theorem read_copy_after (b : Buffer β) {i j n : Nat} {l : List β} (h : i + l.length ≤ j) :
    (b.copy i l).read j n = b.read j n :=
  read_congr fun k hk _ => copy_cell_after b (by omega)

theorem reach_le_copy (b : Buffer β) (i : Nat) (l : List β) : b.reach ≤ (b.copy i l).reach := by
  unfold copy
  split
  · exact Nat.le_refl _
  · exact Nat.le_max_left _ _

theorem copy_reach (b : Buffer β) (i : Nat) {l : List β} (h : l ≠ []) :
    (b.copy i l).reach = max b.reach (i + l.length) := if_neg h

theorem Kept.copy {b : Buffer β} {i : Nat} {l : List β} (hb : b.Kept) (h : i + l.length ≤ b.size) :
    (b.copy i l).Kept := by
  unfold Kept at hb ⊢
  rw [copy_size, Buffer.copy]
  split
  · exact hb
  · exact Nat.max_le.mpr ⟨hb, h⟩

theorem kept_copy_iff {b : Buffer β} {i : Nat} {l : List β} (hl : l ≠ []) :
    (b.copy i l).Kept ↔ b.Kept ∧ i + l.length ≤ b.size := by
  unfold Kept
  rw [copy_size, copy_reach b i hl, Nat.max_le]

end Buffer

end Lib
