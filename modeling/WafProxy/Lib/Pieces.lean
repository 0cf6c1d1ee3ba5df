import Mathlib.Data.List.Infix

/-
  The pieces of a list between the occurrences of a pair

  A list is cut at every place where two given, different elements stand side by
  side. The occurrences of such a pair cannot overlap, so there is one way to cut.

  Rules:
    1. `pieces_append` — a stretch without the pair is the first piece of what
       starts with it.
    2. `joined_pieces`, `pieces_free` — a list that ends with the pair is the
       concatenation of its pieces, each followed by the pair, and no piece has
       the pair in it.
    3. `pieces_joined` — these are its only such pieces.
-/

namespace Lib
variable {α : Type} {a b : α}

/-- The pieces, with the pair behind each of them. -/
def joined (a b : α) (ps : List (List α)) : List α := ps.flatMap fun s => s ++ [a, b]

/-- What stands between the pairs. -/
def pieces [DecidableEq α] (a b : α) : List α → List (List α)
  | [] => []
  | [c] => [[c]]
  | c :: d :: l =>
    if c = a ∧ d = b then [] :: pieces a b l
    else
      match pieces a b (d :: l) with
      | s :: ps => (c :: s) :: ps
      | [] => [[c]]

theorem joined_cons (s : List α) (ps : List (List α)) :
    joined a b (s :: ps) = s ++ a :: b :: joined a b ps := by
  simp [joined]

section
variable [DecidableEq α]

/-- A stretch without the pair is the first piece. -/
theorem pieces_append (hab : a ≠ b) {s : List α} (hs : ¬ [a, b] <:+: s) (l : List α) :
    pieces a b (s ++ a :: b :: l) = s :: pieces a b l := by
  induction s with
  | nil =>
    rw [List.nil_append, pieces, if_pos ⟨rfl, rfl⟩]
  | cons c s ih =>
    have hrest := ih fun h => hs (h.trans (List.suffix_cons c s).isInfix)
    cases s with
    | nil =>
      have hpair : ¬ (c = a ∧ a = b) := fun h => hab h.2
      rw [List.cons_append, List.nil_append, pieces, if_neg hpair]
      rw [List.nil_append] at hrest
      rw [hrest]
    | cons d s =>
      have hpair : ¬ (c = a ∧ d = b) := by
        rintro ⟨rfl, rfl⟩
        exact hs ⟨[], s, rfl⟩
      rw [List.cons_append, List.cons_append, pieces, if_neg hpair]
      rw [List.cons_append] at hrest
      rw [hrest]

/-- The pieces of a concatenation are the ones it was made of. -/
theorem pieces_joined (hab : a ≠ b) {ps : List (List α)} (h : ∀ s ∈ ps, ¬ [a, b] <:+: s) :
    pieces a b (joined a b ps) = ps := by
  induction ps with
  | nil => rfl
  | cons s ps ih =>
    obtain ⟨hs, hps⟩ := List.forall_mem_cons.mp h
    rw [joined_cons, pieces_append hab hs, ih hps]

theorem pieces_ne_nil (c : α) (l : List α) : pieces a b (c :: l) ≠ [] := by
  cases l with
  | nil => exact List.cons_ne_nil _ _
  | cons d l =>
    rw [pieces]
    split
    · exact List.cons_ne_nil _ _
    · split
      · exact List.cons_ne_nil _ _
      · exact List.cons_ne_nil _ _

/-- The first piece starts where the list does. -/
theorem pieces_head {c : α} {l s : List α} {ps : List (List α)} (h : pieces a b (c :: l) = s :: ps) :
    s = [] ∨ s.head? = some c := by
  cases l with
  | nil =>
    rw [pieces] at h
    obtain ⟨rfl, -⟩ := List.cons.inj h
    exact Or.inr rfl
  | cons d l =>
    rw [pieces] at h
    split at h
    · obtain ⟨rfl, -⟩ := List.cons.inj h
      exact Or.inl rfl
    · split at h
      · obtain ⟨rfl, -⟩ := List.cons.inj h
        exact Or.inr rfl
      · obtain ⟨rfl, -⟩ := List.cons.inj h
        exact Or.inr rfl

/-- No piece has the pair in it. -/
theorem pieces_free (l : List α) : ∀ s ∈ pieces a b l, ¬ [a, b] <:+: s := by
  have hshort : ∀ c : α, ¬ [a, b] <:+: [c] := by
    intro c h
    have hlen := h.length_le
    simp at hlen
  induction l using pieces.induct a b with
  | case1 =>
    intro s hs
    cases hs
  | case2 c =>
    intro s hs
    obtain rfl : s = [c] := by simpa [pieces] using hs
    exact hshort c
  | case3 c d l hpair ih =>
    intro s hs
    rw [pieces, if_pos hpair] at hs
    rcases List.mem_cons.mp hs with rfl | hs
    · intro h
      have hlen := h.length_le
      simp at hlen
    · exact ih s hs
  | case4 c d l hpair t ps heq ih =>
    intro s hs
    rw [pieces, if_neg hpair, heq] at hs
    rw [heq] at ih
    rcases List.mem_cons.mp hs with rfl | hs
    · intro h
      rcases List.infix_cons_iff.mp h with hfront | hin
      · -- the pair would start at `c`, and go on with the head of the next piece
        obtain ⟨hc, hb⟩ := List.cons_prefix_cons.mp hfront
        rcases pieces_head heq with rfl | hd
        · have hlen := hb.length_le
          simp at hlen
        · obtain ⟨rest, rfl⟩ := hb
          exact hpair ⟨hc.symm, by simpa using hd.symm⟩
      · exact ih t List.mem_cons_self hin
    · exact ih s (List.mem_cons_of_mem _ hs)
  | case5 c d l hpair heq ih => exact absurd heq (pieces_ne_nil d l)

/-- A list that ends with the pair is made of its pieces. -/
theorem joined_pieces (hab : a ≠ b) {l : List α} (h : [a, b] <:+ l) : joined a b (pieces a b l) = l := by
  induction l using pieces.induct a b with
  | case1 =>
    have hlen := h.length_le
    simp at hlen
  | case2 c =>
    have hlen := h.length_le
    simp at hlen
  | case3 c d l hpair ih =>
    obtain ⟨rfl, rfl⟩ := hpair
    rw [pieces, if_pos ⟨rfl, rfl⟩, joined_cons, List.nil_append]
    rcases List.suffix_cons_iff.mp h with heq | hsuf
    · cases heq
      rfl
    · rcases List.suffix_cons_iff.mp hsuf with heq | hsuf
      · exact absurd (List.cons.inj heq).1 hab
      · rw [ih hsuf]
  | case4 c d l hpair t ps heq ih =>
    rw [pieces, if_neg hpair, heq]
    have hsuf : [a, b] <:+ d :: l := by
      rcases List.suffix_cons_iff.mp h with heq' | hsuf
      · have hcd := List.cons.inj heq'
        exact absurd ⟨hcd.1.symm, (List.cons.inj hcd.2).1.symm⟩ hpair
      · exact hsuf
    have hrest := ih hsuf
    rw [heq, joined_cons] at hrest
    rw [joined_cons, List.cons_append, hrest]
  | case5 c d l hpair heq ih => exact absurd heq (pieces_ne_nil d l)

end

end Lib
