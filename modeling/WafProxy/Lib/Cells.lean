import Mathlib.Algebra.Group.Int.Defs
import Mathlib.Data.List.Basic

/-
  Programs that rewrite named arrays, with a log of every access

  An array has a cell at every integer. Which of them it was given is no part of
  the model: a program runs on whatever the others hold, and that it stays inside
  is a statement about the log of its accesses. A program may also log a value
  that one of its variables takes. `none` is a program that has not ended within
  the turns its loops were given.

  Rules:
    1. `At` — a list stands at an index; how it splits, and which writes keep it.
    2. `Within` — only the cells of one stretch differ.
    3. `Ends` — a program ends with a result, cells and a log that satisfy a
       postcondition; one rule for each way to build a program.
    4. `ends_copy` — copying a stretch to another array.
    5. `Inside`, `ReadFirst` — a log that keeps to the arrays, and one in which no
       cell is read after it was written; both split with the log.
    6. `LogIn`, `ValuesWithin` — a log that keeps to one stretch of one array, and one
       whose values never pass the number of cells read so far.
-/

namespace Lib

/-- An access, or a value a variable takes. -/
inductive Event (ν : Type) where
  | read (a : ν) (i : Int)
  | write (a : ν) (i : Int)
  | value (v : Int)
  deriving DecidableEq, Repr

/-- The cells of all arrays. -/
abbrev Cells (ν β : Type) := ν → Int → β

namespace Cells
variable {ν β : Type} {c c' : Cells ν β} {a a' : ν} {b : β} {i j : Int} {l r : List β}

def set [DecidableEq ν] (c : Cells ν β) (a : ν) (i : Int) (b : β) : Cells ν β :=
  fun a' j => if a' = a ∧ j = i then b else c a' j

/-- The list stands in the array from an index on. -/
def At (c : Cells ν β) (a : ν) : Int → List β → Prop
  | _, [] => True
  | i, b :: l => c a i = b ∧ At c a (i + 1) l

/-- Only cells of `a` from `lo` up to `hi` differ. -/
def Within (a : ν) (lo hi : Int) (c c' : Cells ν β) : Prop :=
  ∀ a' j, a' ≠ a ∨ j < lo ∨ hi ≤ j → c' a' j = c a' j

@[simp] theorem at_nil : At c a i [] ↔ True := Iff.rfl

@[simp] theorem at_cons : At c a i (b :: l) ↔ c a i = b ∧ At c a (i + 1) l := Iff.rfl

theorem at_append : At c a i (l ++ r) ↔ At c a i l ∧ At c a (i + l.length) r := by
  induction l generalizing i with
  | nil => simp
  | cons b l ih =>
    have hlen : i + 1 + (l.length : Int) = i + ((l.length + 1 : Nat) : Int) := by omega
    rw [List.cons_append, at_cons, at_cons, ih, List.length_cons, hlen, and_assoc]

theorem at_singleton : At c a i [b] ↔ c a i = b := by simp

/-- Only the cells of the stretch count. -/
theorem At.congr (h : At c a i l) (hc : ∀ j, i ≤ j → j < i + l.length → c' a j = c a j) : At c' a i l := by
  induction l generalizing i with
  | nil => trivial
  | cons b l ih =>
    rw [List.length_cons] at hc
    refine ⟨(hc i (by omega) (by omega)).trans h.1, ih h.2 fun j hj hlt => hc j (by omega) (by omega)⟩

theorem At.getElem? (h : At c a i l) {k : Nat} (hk : k < l.length) : l[k]? = some (c a (i + k)) := by
  induction l generalizing i k with
  | nil => exact absurd hk (Nat.not_lt_zero k)
  | cons b l ih =>
    cases k with
    | zero =>
      show some b = some (c a (i + 0))
      rw [Int.add_zero, h.1]
    | succ k =>
      rw [List.length_cons] at hk
      have hadd : i + ((k + 1 : Nat) : Int) = i + 1 + k := by omega
      rw [hadd]
      exact ih h.2 (by omega)

/-- Two lists of one length at one place are the same. -/
theorem At.inj (h : At c a i l) (h' : At c a i r) (hlen : l.length = r.length) : l = r := by
  apply List.ext_getElem?
  intro k
  rcases Nat.lt_or_ge k l.length with hk | hk
  · rw [h.getElem? hk, h'.getElem? (by omega)]
  · rw [List.getElem?_eq_none hk, List.getElem?_eq_none (by omega)]

theorem Within.refl (a : ν) (lo hi : Int) (c : Cells ν β) : Within a lo hi c c := fun _ _ _ => rfl

theorem Within.trans {c'' : Cells ν β} {lo hi : Int} (h : Within a lo hi c c') (h' : Within a lo hi c' c'') :
    Within a lo hi c c'' := fun x j hout => (h' x j hout).trans (h x j hout)

theorem Within.mono {lo hi lo' hi' : Int} (h : Within a lo hi c c') (hlo : lo' ≤ lo) (hhi : hi ≤ hi') :
    Within a lo' hi' c c' := by
  intro x j hout
  apply h
  rcases hout with hne | hlt | hge
  · exact Or.inl hne
  · exact Or.inr (Or.inl (by omega))
  · exact Or.inr (Or.inr (by omega))

theorem At.within {lo hi : Int} (h : At c a i l) (hc : Within a' lo hi c c')
    (hout : a ≠ a' ∨ i + l.length ≤ lo ∨ hi ≤ i) : At c' a i l := by
  apply h.congr
  intro j hj hlt
  apply hc
  rcases hout with hne | hle | hge
  · exact Or.inl hne
  · exact Or.inr (Or.inl (by omega))
  · exact Or.inr (Or.inr (by omega))

/-- The same list in the only stretch that differs. -/
theorem At.eq_of_within (h : At c a i l) (h' : At c' a i l) (hc : Within a i (i + l.length) c c') : c' = c := by
  funext x j
  by_cases hin : x = a ∧ i ≤ j ∧ j < i + l.length
  · obtain ⟨rfl, hle, hlt⟩ := hin
    obtain ⟨k, rfl⟩ : ∃ k : Nat, j = i + k := ⟨(j - i).toNat, by omega⟩
    exact Option.some.inj ((h'.getElem? (by omega)).symm.trans (h.getElem? (by omega)))
  · apply hc
    by_cases hx : x = a
    · refine Or.inr ?_
      by_contra hno
      exact hin ⟨hx, by omega, by omega⟩
    · exact Or.inl hx

/-- The list in every array, and `d` in all other cells. -/
def ofList (l : List β) (d : β) : Cells ν β := fun _ i => if 0 ≤ i then l.getD i.toNat d else d

theorem at_ofList (l : List β) (d : β) : (ofList l d).At a 0 l := by
  have hsuffix : ∀ r p : List β, l = p ++ r → (ofList l d).At a p.length r := by
    intro r
    induction r with
    | nil => exact fun _ _ => trivial
    | cons b r ih =>
      intro p hp
      have hnext := ih (p ++ [b]) (by rw [hp, List.append_assoc, List.singleton_append])
      rw [List.length_append] at hnext
      refine ⟨?_, hnext⟩
      rw [ofList, if_pos (Int.natCast_nonneg _), Int.toNat_natCast, hp]
      simp
  exact hsuffix l [] rfl

section
variable [DecidableEq ν]

@[simp] theorem set_same : c.set a i b a i = b := if_pos ⟨rfl, rfl⟩

theorem set_index (h : j ≠ i) : c.set a i b a' j = c a' j := if_neg fun hand => h hand.2

theorem set_array (h : a' ≠ a) : c.set a i b a' j = c a' j := if_neg fun hand => h hand.1

theorem At.set (h : At c a i l) (hout : a' ≠ a ∨ j < i ∨ i + l.length ≤ j) : At (c.set a' j b) a i l := by
  apply h.congr
  intro k hk hlt
  rcases hout with hne | hout
  · exact set_array (Ne.symm hne)
  · exact set_index (by omega)

/-- One more cell behind the list. -/
theorem At.push (h : At c a i l) (hj : j = i + l.length) : At (c.set a j b) a i (l ++ [b]) := by
  subst hj
  rw [at_append, at_singleton]
  exact ⟨h.set (Or.inr (Or.inr (Int.le_refl _))), set_same⟩

theorem Within.set {lo hi : Int} (h : Within a lo hi c c') (hlo : lo ≤ i) (hhi : i < hi) :
    Within a lo hi c (c'.set a i b) := by
  intro x j hout
  rw [← h x j hout]
  rcases hout with hne | hout
  · exact set_array hne
  · exact set_index (by omega)

end

end Cells

/-- A program: its result, the cells it leaves and the log of what it did. -/
def Prog (ν β α : Type) := Cells ν β → Option (α × Cells ν β × List (Event ν))

namespace Prog
variable {ν β α γ σ : Type}

instance : Monad (Prog ν β) where
  pure a := fun c => some (a, c, [])
  bind m f := fun c => (m c).bind fun r => (f r.1 r.2.1).map fun r' => (r'.1, r'.2.1, r.2.2 ++ r'.2.2)

/-- The cell at `i`. -/
def read (a : ν) (i : Int) : Prog ν β β := fun c => some (c a i, c, [.read a i])

/-- `b` to the cell at `i`. -/
def write [DecidableEq ν] (a : ν) (i : Int) (b : β) : Prog ν β Unit :=
  fun c => some ((), c.set a i b, [.write a i])

/-- A variable takes the value `v`. -/
def value (v : Int) : Prog ν β Unit := fun c => some ((), c, [.value v])

/-- No more turns. -/
def stuck : Prog ν β α := fun _ => none

/-- The program ends, and its result, its cells and its log satisfy `Q`. -/
def Ends (m : Prog ν β α) (c : Cells ν β) (Q : α → Cells ν β → List (Event ν) → Prop) : Prop :=
  ∃ r, m c = some r ∧ Q r.1 r.2.1 r.2.2

section
variable {m : Prog ν β α} {f : α → Prog ν β γ} {c : Cells ν β} {a : ν} {i v : Int} {b : β}

@[simp] theorem ends_pure {x : α} {Q : α → Cells ν β → List (Event ν) → Prop} :
    Ends (pure x) c Q ↔ Q x c [] := by
  refine ⟨fun ⟨r, hr, hQ⟩ => ?_, fun hQ => ⟨_, rfl, hQ⟩⟩
  cases hr
  exact hQ

@[simp] theorem ends_bind {Q : γ → Cells ν β → List (Event ν) → Prop} :
    Ends (m >>= f) c Q ↔ Ends m c fun x c' l => Ends (f x) c' fun y c'' l' => Q y c'' (l ++ l') := by
  refine ⟨fun ⟨r, hr, hQ⟩ => ?_, fun ⟨r, hr, r', hr', hQ⟩ => ?_⟩
  · obtain ⟨s, hs, hmap⟩ := Option.bind_eq_some_iff.mp hr
    obtain ⟨t, ht, rfl⟩ := Option.map_eq_some_iff.mp hmap
    exact ⟨s, hs, t, ht, hQ⟩
  · refine ⟨(r'.1, r'.2.1, r.2.2 ++ r'.2.2), ?_, hQ⟩
    show (m c).bind _ = _
    rw [hr, Option.bind_some, hr']
    rfl

@[simp] theorem ends_read {Q : β → Cells ν β → List (Event ν) → Prop} :
    Ends (read a i) c Q ↔ Q (c a i) c [.read a i] := by
  refine ⟨fun ⟨r, hr, hQ⟩ => ?_, fun hQ => ⟨_, rfl, hQ⟩⟩
  cases hr
  exact hQ

@[simp] theorem ends_write [DecidableEq ν] {Q : Unit → Cells ν β → List (Event ν) → Prop} :
    Ends (write a i b) c Q ↔ Q () (c.set a i b) [.write a i] := by
  refine ⟨fun ⟨r, hr, hQ⟩ => ?_, fun hQ => ⟨_, rfl, hQ⟩⟩
  cases hr
  exact hQ

@[simp] theorem ends_value {Q : Unit → Cells ν β → List (Event ν) → Prop} :
    Ends (value v) c Q ↔ Q () c [.value v] := by
  refine ⟨fun ⟨r, hr, hQ⟩ => ?_, fun hQ => ⟨_, rfl, hQ⟩⟩
  cases hr
  exact hQ

theorem Ends.mono {Q Q' : α → Cells ν β → List (Event ν) → Prop} (h : Ends m c Q)
    (himp : ∀ x c' l, Q x c' l → Q' x c' l) : Ends m c Q' := by
  obtain ⟨r, hr, hQ⟩ := h
  exact ⟨r, hr, himp _ _ _ hQ⟩

/-- A program has one result. -/
theorem Ends.and {Q Q' : α → Cells ν β → List (Event ν) → Prop} (h : Ends m c Q) (h' : Ends m c Q') :
    Ends m c fun x c' l => Q x c' l ∧ Q' x c' l := by
  obtain ⟨r, hr, hQ⟩ := h
  obtain ⟨r', hr', hQ'⟩ := h'
  obtain rfl : r = r' := Option.some.inj (hr.symm.trans hr')
  exact ⟨r, hr, hQ, hQ'⟩

/-- What is known of a program in front of another. -/
theorem Ends.bind {Q : α → Cells ν β → List (Event ν) → Prop} {Q' : γ → Cells ν β → List (Event ν) → Prop}
    (h : Ends m c Q) (hf : ∀ x c' l, Q x c' l → Ends (f x) c' fun y c'' l' => Q' y c'' (l ++ l')) :
    Ends (m >>= f) c Q' := ends_bind.mpr (h.mono hf)

end

/-! ## Loops -/

/-- `body` until it gives a result. -/
def loop (body : σ → Prog ν β (σ ⊕ α)) : Nat → σ → Prog ν β α
  | 0, _ => stuck
  | n + 1, s => do
    match ← body s with
    | .inl s' => loop body n s'
    | .inr x => pure x

/-- What the rest of a loop does behind a turn. -/
def afterTurn (body : σ → Prog ν β (σ ⊕ α)) (n : Nat) : σ ⊕ α → Prog ν β α
  | .inl s => loop body n s
  | .inr x => pure x

theorem loop_succ (body : σ → Prog ν β (σ ⊕ α)) (n : Nat) (s : σ) :
    loop body (n + 1) s = body s >>= afterTurn body n := rfl

/-! ## Stretches -/

/-- `n` cells of `src` from `i` on, to the same places of `dst` behind `k`. -/
def copy [DecidableEq ν] (dst src : ν) : Nat → Int → Int → Prog ν β Unit
  | 0, _, _ => pure ()
  | n + 1, k, i => do
    let b ← read src i
    write dst k b
    copy dst src n (k + 1) (i + 1)

/-- Every access is to an array, at an index from 0 up to its size. -/
def Inside (size : ν → Int) : List (Event ν) → Prop
  | [] => True
  | .read a i :: l => (0 ≤ i ∧ i < size a) ∧ Inside size l
  | .write a i :: l => (0 ≤ i ∧ i < size a) ∧ Inside size l
  | .value _ :: l => Inside size l

section
variable {size : ν → Int} {a : ν} {i v : Int} {l r : List (Event ν)}

@[simp] theorem inside_nil : Inside size ([] : List (Event ν)) ↔ True := Iff.rfl

@[simp] theorem inside_read : Inside size (.read a i :: l) ↔ (0 ≤ i ∧ i < size a) ∧ Inside size l := Iff.rfl

@[simp] theorem inside_write : Inside size (.write a i :: l) ↔ (0 ≤ i ∧ i < size a) ∧ Inside size l := Iff.rfl

@[simp] theorem inside_value : Inside size (.value v :: l) ↔ Inside size l := Iff.rfl

@[simp] theorem inside_append : Inside size (l ++ r) ↔ Inside size l ∧ Inside size r := by
  induction l with
  | nil => simp
  | cons e l ih => cases e <;> simp [ih, and_assoc]

end

theorem Inside.read_mem {size : ν → Int} {a : ν} {i : Int} {l : List (Event ν)} (h : Inside size l)
    (hmem : .read a i ∈ l) : 0 ≤ i ∧ i < size a := by
  induction l with
  | nil => exact absurd hmem List.not_mem_nil
  | cons e l ih =>
    rcases List.mem_cons.mp hmem with rfl | hmem
    · exact h.1
    · apply ih _ hmem
      cases e with
      | read => exact h.2
      | write => exact h.2
      | value => exact h

/-! ## One array -/

/-- Accesses to one stretch of `a`, and values up to its end. -/
def LogIn (a : ν) (lo hi : Int) (l : List (Event ν)) : Prop := ∀ e ∈ l,
  match e with
  | .read b i => b = a ∧ lo ≤ i ∧ i < hi
  | .write b i => b = a ∧ lo ≤ i ∧ i < hi
  | .value v => 0 ≤ v ∧ v ≤ hi

namespace LogIn
variable {a : ν} {i v lo hi lo' hi' : Int} {l r : List (Event ν)}

theorem nil : LogIn a lo hi ([] : List (Event ν)) := fun _ h => absurd h List.not_mem_nil

theorem append (hl : LogIn a lo hi l) (hr : LogIn a lo hi r) : LogIn a lo hi (l ++ r) :=
  fun e he => (List.mem_append.mp he).elim (hl e) (hr e)

theorem read (h : LogIn a lo hi l) (hin : lo ≤ i ∧ i < hi) : LogIn a lo hi (.read a i :: l) :=
  List.forall_mem_cons.mpr ⟨⟨rfl, hin⟩, h⟩

theorem write (h : LogIn a lo hi l) (hin : lo ≤ i ∧ i < hi) : LogIn a lo hi (.write a i :: l) :=
  List.forall_mem_cons.mpr ⟨⟨rfl, hin⟩, h⟩

theorem value (h : LogIn a lo hi l) (hv : 0 ≤ v ∧ v ≤ hi) : LogIn a lo hi (.value v :: l) :=
  List.forall_mem_cons.mpr ⟨hv, h⟩

theorem mono (h : LogIn a lo hi l) (hlo : lo' ≤ lo) (hhi : hi ≤ hi') : LogIn a lo' hi' l := by
  intro e he
  have hin := h e he
  cases e with
  | read b i => exact ⟨hin.1, by omega, by omega⟩
  | write b i => exact ⟨hin.1, by omega, by omega⟩
  | value v => exact ⟨hin.1, by omega⟩

theorem inside {size : ν → Int} (h : LogIn a 0 hi l) (hsize : hi ≤ size a) : Inside size l := by
  induction l with
  | nil => trivial
  | cons e l ih =>
    obtain ⟨hin, hrest⟩ := List.forall_mem_cons.mp h
    cases e with
    | read b i =>
      obtain ⟨rfl, hlo, hlt⟩ := hin
      exact ⟨⟨hlo, by omega⟩, ih hrest⟩
    | write b i =>
      obtain ⟨rfl, hlo, hlt⟩ := hin
      exact ⟨⟨hlo, by omega⟩, ih hrest⟩
    | value v => exact ih hrest

end LogIn

section
variable [DecidableEq ν]

/-- Every value is at least 0 and at most the number of reads of `a` in front of it, with `k` reads
in front of the log. -/
def ValuesWithin (a : ν) : Int → List (Event ν) → Prop
  | _, [] => True
  | k, .read b _ :: l => ValuesWithin a (if b = a then k + 1 else k) l
  | k, .write _ _ :: l => ValuesWithin a k l
  | k, .value v :: l => (0 ≤ v ∧ v ≤ k) ∧ ValuesWithin a k l

/-- In front of what follows, a log that does not read `a`. -/
theorem LogIn.valuesWithin {a b : ν} {lo k : Int} {l r : List (Event ν)} (h : LogIn b lo k l) (hne : b ≠ a)
    (hr : ValuesWithin a k r) : ValuesWithin a k (l ++ r) := by
  induction l with
  | nil => exact hr
  | cons e l ih =>
    obtain ⟨hin, hrest⟩ := List.forall_mem_cons.mp h
    cases e with
    | read b' i =>
      obtain ⟨rfl, -⟩ := hin
      show ValuesWithin a (if b' = a then k + 1 else k) (l ++ r)
      rw [if_neg hne]
      exact ih hrest
    | write b' i => exact ih hrest
    | value v => exact ⟨hin, ih hrest⟩

end

/-- No cell is read after it was written. -/
def ReadFirst (l : List (Event ν)) : Prop :=
  l.Pairwise fun e e' => ∀ a i, e = .write a i → e' ≠ .read a i

/-- No cell in front of `k` is read. -/
def ReadsFrom (k : Int) (l : List (Event ν)) : Prop := ∀ a i, .read a i ∈ l → k ≤ i

/-- Only cells in front of `k` are written. -/
def WritesBelow (k : Int) (l : List (Event ν)) : Prop := ∀ a i, .write a i ∈ l → i < k

section
variable {l r : List (Event ν)} {a : ν} {i k k' v : Int}

@[simp] theorem readsFrom_nil : ReadsFrom k ([] : List (Event ν)) ↔ True := by simp [ReadsFrom]

@[simp] theorem readsFrom_read : ReadsFrom k (.read a i :: l) ↔ k ≤ i ∧ ReadsFrom k l := by
  simp only [ReadsFrom, List.mem_cons, Event.read.injEq]
  refine ⟨fun h => ⟨h a i (Or.inl ⟨rfl, rfl⟩), fun b j hmem => h b j (Or.inr hmem)⟩, ?_⟩
  rintro ⟨hle, h⟩ b j (⟨rfl, rfl⟩ | hmem)
  · exact hle
  · exact h b j hmem

@[simp] theorem readsFrom_write : ReadsFrom k (.write a i :: l) ↔ ReadsFrom k l := by
  simp [ReadsFrom]

@[simp] theorem writesBelow_nil : WritesBelow k ([] : List (Event ν)) ↔ True := by simp [WritesBelow]

@[simp] theorem writesBelow_read : WritesBelow k (.read a i :: l) ↔ WritesBelow k l := by
  simp [WritesBelow]

@[simp] theorem writesBelow_write : WritesBelow k (.write a i :: l) ↔ i < k ∧ WritesBelow k l := by
  simp only [WritesBelow, List.mem_cons, Event.write.injEq]
  refine ⟨fun h => ⟨h a i (Or.inl ⟨rfl, rfl⟩), fun b j hmem => h b j (Or.inr hmem)⟩, ?_⟩
  rintro ⟨hle, h⟩ b j (⟨rfl, rfl⟩ | hmem)
  · exact hle
  · exact h b j hmem

@[simp] theorem readFirst_nil : ReadFirst ([] : List (Event ν)) ↔ True := by simp [ReadFirst]

@[simp] theorem readFirst_read : ReadFirst (.read a i :: l) ↔ ReadFirst l := by
  simp [ReadFirst, List.pairwise_cons]

@[simp] theorem readFirst_write : ReadFirst (.write a i :: l) ↔ .read a i ∉ l ∧ ReadFirst l := by
  simp only [ReadFirst, List.pairwise_cons, Event.write.injEq]
  refine and_congr_left fun _ => ⟨fun h hmem => h _ hmem a i ⟨rfl, rfl⟩ rfl, ?_⟩
  rintro h e he b j ⟨rfl, rfl⟩ rfl
  exact h he

theorem ReadsFrom.mono (h : ReadsFrom k l) (hle : k' ≤ k) : ReadsFrom k' l :=
  fun a i hmem => Int.le_trans hle (h a i hmem)

theorem WritesBelow.mono (h : WritesBelow k l) (hle : k ≤ k') : WritesBelow k' l :=
  fun a i hmem => Int.lt_of_lt_of_le (h a i hmem) hle

theorem ReadsFrom.append (hl : ReadsFrom k l) (hr : ReadsFrom k r) : ReadsFrom k (l ++ r) :=
  fun a i hmem => (List.mem_append.mp hmem).elim (hl a i) (hr a i)

theorem WritesBelow.append (hl : WritesBelow k l) (hr : WritesBelow k r) : WritesBelow k (l ++ r) :=
  fun a i hmem => (List.mem_append.mp hmem).elim (hl a i) (hr a i)

/-- What is read later stands behind what was written. -/
theorem ReadFirst.append (hl : ReadFirst l) (hr : ReadFirst r) (hw : WritesBelow k l) (hread : ReadsFrom k r) :
    ReadFirst (l ++ r) := by
  refine List.pairwise_append.mpr ⟨hl, hr, ?_⟩
  intro e he e' he' a i hwrite heq
  subst hwrite heq
  have hlt := hw a i he
  have hle := hread a i he'
  omega

end

section
variable [DecidableEq ν] {dst src : ν} {c : Cells ν β}

/-- Copying to another array. -/
theorem ends_copy {size : ν → Int} (hne : dst ≠ src) : ∀ (l : List β) (k i : Int) (c : Cells ν β), c.At src i l →
    0 ≤ i → i + l.length ≤ size src → 0 ≤ k → k + l.length ≤ size dst →
    Ends (copy dst src l.length k i) c fun _ c' log =>
      c'.At dst k l ∧ Cells.Within dst k (k + l.length) c c' ∧ Inside size log := by
  intro l
  induction l with
  | nil =>
    intro k i c _ _ _ _ _
    exact ends_pure.mpr ⟨trivial, Cells.Within.refl _ _ _ _, trivial⟩
  | cons b l ih =>
    intro k i c h hi hsrc hk hdst
    rw [List.length_cons] at hsrc hdst ⊢
    simp only [copy, ends_bind, ends_read, ends_write, h.1]
    have hrest : (c.set dst k b).At src (i + 1) l := h.2.set (Or.inl hne)
    refine (ih (k + 1) (i + 1) _ hrest (by omega) (by omega) (by omega) (by omega)).mono ?_
    rintro _ c' log ⟨hat, hwithin, hinside⟩
    refine ⟨⟨?_, hat⟩, ?_, ?_⟩
    · rw [hwithin dst k (Or.inr (Or.inl (by omega)))]
      exact Cells.set_same
    · have hstep : Cells.Within dst k (k + ((l.length + 1 : Nat) : Int)) c (c.set dst k b) :=
        (Cells.Within.refl _ _ _ _).set (Int.le_refl _) (by omega)
      exact hstep.trans (hwithin.mono (by omega) (by omega))
    · simp only [List.cons_append, List.nil_append, inside_read, inside_write]
      exact ⟨⟨hi, by omega⟩, ⟨hk, by omega⟩, hinside⟩

end

end Prog

end Lib
