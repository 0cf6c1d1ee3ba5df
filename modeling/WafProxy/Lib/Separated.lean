import Mathlib.Data.List.Basic

/-
  Texts of a fixed number of fields with a separator between them

  A field is written by `enc` and read by `dec`. A text is accepted when writing
  what was read from it gives the text again, so every value has one text.

  Rules:
    1. `fields_some` — what is accepted is the text of the fields.
    2. `fields_join` — the text of the fields is accepted.
    3. `mem_join`, `sep_mem_join`, `join_length` — the bytes of such a text and
       their number.
-/

namespace Lib

variable {α β : Type}

/-- The fields with the separator between them. -/
def join (sep : α) (fields : List (List α)) : List α := [sep].intercalate fields

/-- The values of the fields, when there are `n` of them in their own spelling. -/
def fields [DecidableEq α] (sep : α) (enc : β → List α) (dec : List α → β) (n : Nat) (s : List α) :
    Option (List β) :=
  let a := (s.splitOn sep).map dec
  if a.length = n ∧ join sep (a.map enc) = s then some a else none

section
variable [DecidableEq α] {sep : α} {enc : β → List α} {dec : List α → β} {n : Nat}

theorem fields_some {s : List α} {a : List β} (h : fields sep enc dec n s = some a) :
    a.length = n ∧ s = join sep (a.map enc) := by
  unfold fields at h
  dsimp only at h
  split at h
  next hcond =>
    obtain rfl := Option.some.inj h
    exact ⟨hcond.1, hcond.2.symm⟩
  next => cases h

theorem fields_join (hdec : ∀ b, dec (enc b) = b) (hsep : ∀ b, sep ∉ enc b) (hn : 0 < n) {a : List β}
    (ha : a.length = n) : fields sep enc dec n (join sep (a.map enc)) = some a := by
  have hsplit : (join sep (a.map enc)).splitOn sep = a.map enc := by
    apply List.splitOn_intercalate
    · intro l hl
      obtain ⟨b, -, rfl⟩ := List.mem_map.mp hl
      exact hsep b
    · intro hnil
      rw [List.map_eq_nil_iff.mp hnil] at ha
      exact Nat.ne_of_lt hn ha
  have hread : (a.map enc).map dec = a := by
    rw [List.map_map]
    exact (List.map_congr_left fun b _ => hdec b).trans (List.map_id' a)
  unfold fields
  rw [hsplit, hread]
  exact if_pos ⟨ha, rfl⟩

end

theorem join_cons_cons (sep : α) (l l' : List α) (ls : List (List α)) :
    join sep (l :: l' :: ls) = l ++ sep :: join sep (l' :: ls) := by
  unfold join
  rw [List.intercalate_cons_cons, List.append_assoc]
  rfl

theorem mem_join {sep c : α} {ls : List (List α)} (h : c ∈ join sep ls) : c = sep ∨ ∃ l ∈ ls, c ∈ l := by
  induction ls with
  | nil => cases h
  | cons l ls ih =>
    cases ls with
    | nil =>
      unfold join at h
      rw [List.intercalate_singleton] at h
      exact Or.inr ⟨l, List.mem_cons_self, h⟩
    | cons l' ls =>
      rw [join_cons_cons] at h
      rcases List.mem_append.mp h with h | h
      · exact Or.inr ⟨l, List.mem_cons_self, h⟩
      · rcases List.mem_cons.mp h with h | h
        · exact Or.inl h
        · rcases ih h with h | ⟨x, hx, hc⟩
          · exact Or.inl h
          · exact Or.inr ⟨x, List.mem_cons_of_mem l hx, hc⟩

theorem sep_mem_join {sep : α} {ls : List (List α)} (h : 2 ≤ ls.length) : sep ∈ join sep ls := by
  match ls, h with
  | l :: l' :: ls, _ =>
    rw [join_cons_cons]
    exact List.mem_append_right l List.mem_cons_self

theorem join_length {sep : α} {k : Nat} {ls : List (List α)} (hne : ls ≠ []) (h : ∀ l ∈ ls, l.length ≤ k) :
    (join sep ls).length + 1 ≤ ls.length * (k + 1) := by
  induction ls with
  | nil => exact absurd rfl hne
  | cons l ls ih =>
    obtain ⟨hl, hls⟩ := List.forall_mem_cons.mp h
    cases ls with
    | nil =>
      unfold join
      rw [List.intercalate_singleton, List.length_singleton, Nat.one_mul]
      exact Nat.succ_le_succ hl
    | cons l' ls =>
      have hrest := ih (List.cons_ne_nil l' ls) hls
      rw [join_cons_cons, List.length_append, List.length_cons, List.length_cons, Nat.succ_mul]
      omega

end Lib
