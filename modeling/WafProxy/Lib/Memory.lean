import Mathlib.Data.Option.Basic

/-
  Byte memories and the computations that read them

  A memory gives the cell at an address, where there is one. Reading where
  there is none is undefined, so a computation that reads a memory ends in
  `none` there. `Access` is the type of these computations; each carries the
  proof that a result obtained in a memory is the result in every larger one,
  so whatever is built from `pure`, `bind`, `read`, `fail` and `from` has the
  property by construction.

  Rules:
    1. `Access.run_of_le` — a result obtained in a memory stays the result when
       the memory grows.
    2. `ofList_le_append`, `above_ofList` — the cells of a list inside a longer
       list, seen from its start and from its end.
    3. `Access.slice_ofList`, `slice_run`, `slice_above` — reading a stretch of a list,
       from its start or from a pointer on.
    4. `Access.Ensures` — what every result satisfies, one rule for each way to
       build a computation.
    5. `Access.Maps` — a computation that does what another one does, up to a map
       of the results; again one rule for each way to build it.
-/

namespace Lib

/-- The cell at an address, where there is one. -/
abbrev Memory (β : Type) := Int → Option β

namespace Memory
variable {β : Type}

/-- The cells of `l` from address 0 on. -/
def ofList (l : List β) : Memory β
  | .ofNat i => l[i]?
  | .negSucc _ => none

/-- Every cell of `m` is a cell of `m'`. -/
def Le (m m' : Memory β) : Prop := ∀ a b, m a = some b → m' a = some b

/-- The memory a pointer to `a` shows: its cells from `a` on. -/
def above (a : Int) (m : Memory β) : Memory β := fun i => if 0 ≤ i then m (a + i) else none

theorem Le.refl (m : Memory β) : m.Le m := fun _ _ h => h

theorem Le.above {m m' : Memory β} (h : m.Le m') (a : Int) : (above a m).Le (above a m') := by
  intro i b hi
  unfold Memory.above at hi ⊢
  by_cases h0 : 0 ≤ i
  · rw [if_pos h0] at hi ⊢
    exact h _ _ hi
  · rw [if_neg h0] at hi
    cases hi

@[simp] theorem ofList_natCast (l : List β) (i : Nat) : ofList l (i : Int) = l[i]? := rfl

theorem ofList_le_append (l r : List β) : (ofList l).Le (ofList (l ++ r)) := by
  intro a b h
  cases a with
  | ofNat i =>
    simp only [ofList] at h ⊢
    rw [List.getElem?_append_left (List.getElem?_eq_some_iff.mp h).1]
    exact h
  | negSucc i => cases h

theorem above_ofList (l r : List β) : above l.length (ofList (l ++ r)) = ofList r := by
  funext i
  cases i with
  | ofNat i =>
    have hi : (0 : Int) ≤ Int.ofNat i := Int.natCast_nonneg i
    have hadd : (l.length : Int) + Int.ofNat i = ((l.length + i : Nat) : Int) := rfl
    rw [above, if_pos hi, hadd, ofList_natCast,
      List.getElem?_append_right (Nat.le_add_right _ _), Nat.add_sub_cancel_left]
    rfl
  | negSucc i => rfl

end Memory

/-- A computation that reads a memory. `stable`: its result does not change
when the memory grows. -/
structure Access (β α : Type) where
  run : Memory β → Option α
  stable : ∀ m m' r, m.Le m' → run m = some r → run m' = some r

namespace Access
variable {β α γ : Type}

instance : Monad (Access β) where
  pure a := ⟨fun _ => some a, fun _ _ _ _ h => h⟩
  bind x f :=
    { run := fun m => (x.run m).bind fun a => (f a).run m
      stable := by
        intro m m' r hle h
        obtain ⟨a, ha, hf⟩ := Option.bind_eq_some_iff.mp h
        exact Option.bind_eq_some_iff.mpr ⟨a, x.stable m m' a hle ha, (f a).stable m m' r hle hf⟩ }

/-- The cell at `a`. -/
def read (a : Int) : Access β β := ⟨fun m => m a, fun _ _ _ hle h => hle _ _ h⟩

/-- An undefined step. -/
def fail : Access β α := ⟨fun _ => none, fun _ _ _ _ h => by cases h⟩

/-- A step that reads nothing. -/
def ofOption : Option α → Access β α
  | some a => pure a
  | none => fail

/-- The computation that is given the pointer `a`. -/
def atPtr (a : Int) (x : Access β α) : Access β α :=
  ⟨fun m => x.run (m.above a), fun _ _ r hle h => x.stable _ _ r (hle.above a) h⟩

/-- The `n` cells from `a` on. -/
def slice (a : Int) : Nat → Access β (List β)
  | 0 => pure []
  | n + 1 => do
    let b ← read a
    let l ← slice (a + 1) n
    pure (b :: l)

@[simp] theorem run_pure (a : α) (m : Memory β) : (pure a : Access β α).run m = some a := rfl

@[simp] theorem run_bind (x : Access β α) (f : α → Access β γ) (m : Memory β) :
    (x >>= f).run m = (x.run m).bind fun a => (f a).run m := rfl

@[simp] theorem run_read (a : Int) (m : Memory β) : (read a).run m = m a := rfl

@[simp] theorem run_ofOption (o : Option α) (m : Memory β) : (ofOption o).run m = o := by
  cases o <;> rfl

@[simp] theorem run_atPtr (a : Int) (x : Access β α) (m : Memory β) :
    (atPtr a x).run m = x.run (m.above a) := rfl

@[simp] theorem run_ite {c : Prop} [Decidable c] (x y : Access β α) (m : Memory β) :
    (if c then x else y).run m = if c then x.run m else y.run m := by
  split <;> rfl

/-- **A result obtained in a memory is the result in every larger one.** -/
theorem run_of_le {x : Access β α} {m m' : Memory β} {r : α} (hle : m.Le m')
    (h : x.run m = some r) : x.run m' = some r :=
  x.stable m m' r hle h

/-- A stretch of a list, when the list has that many cells there. -/
theorem slice_ofList (pre l post : List β) :
    (slice (pre.length : Int) l.length).run (Memory.ofList (pre ++ l ++ post)) = some l := by
  induction l generalizing pre with
  | nil => rfl
  | cons b l ih =>
    have hb : Memory.ofList (pre ++ b :: l ++ post) (pre.length : Int) = some b := by
      rw [Memory.ofList_natCast]
      simp
    have hl : (slice ((pre.length : Int) + 1) l.length).run (Memory.ofList (pre ++ b :: l ++ post))
        = some l := by
      have h := ih (pre ++ [b])
      simpa using h
    simp only [List.length_cons, slice, run_bind, run_read, hb, Option.bind_some, hl, run_pure]

/-- A stretch that was read is the list's. -/
theorem slice_some {l : List β} (n : Nat) : ∀ {a : Nat} {d : List β},
    (slice (a : Int) n).run (Memory.ofList l) = some d → d = (l.drop a).take n ∧ d.length = n := by
  induction n with
  | zero =>
    intro a d h
    cases h
    exact ⟨by simp, rfl⟩
  | succ n ih =>
    intro a d h
    obtain ⟨b, hb, h⟩ := Option.bind_eq_some_iff.mp h
    obtain ⟨d', hd, h⟩ := Option.bind_eq_some_iff.mp h
    cases h
    have hcast : (a : Int) + 1 = ((a + 1 : Nat) : Int) := rfl
    rw [hcast] at hd
    obtain ⟨heq, hlen⟩ := ih hd
    obtain ⟨hlt, hget⟩ := List.getElem?_eq_some_iff.mp hb
    refine ⟨?_, by simp [hlen]⟩
    rw [List.drop_eq_getElem_cons hlt, List.take_succ_cons, hget, heq]

/-- Reading a stretch, inside the list or not. -/
theorem slice_run (l : List β) (a n : Nat) : (slice (a : Int) n).run (Memory.ofList l) =
    if n ≤ (l.drop a).length then some ((l.drop a).take n) else none := by
  cases hrun : (slice (a : Int) n).run (Memory.ofList l) with
  | some d =>
    obtain ⟨hd, hlen⟩ := slice_some n hrun
    have htake := congrArg List.length hd
    rw [List.length_take, hlen] at htake
    rw [if_pos (by omega), hd]
  | none =>
    split
    next h =>
      have hle : a ≤ l.length ∨ n = 0 := by
        rw [List.length_drop] at h
        omega
      have hin : (slice (a : Int) n).run (Memory.ofList l) ≠ none := by
        rcases hle with hle | rfl
        · have hs := slice_ofList (l.take a) ((l.drop a).take n) ((l.drop a).drop n)
          rw [List.append_assoc, List.take_append_drop, List.take_append_drop, List.length_take,
            List.length_take, Nat.min_eq_left hle, Nat.min_eq_left h] at hs
          rw [hs]
          exact Option.some_ne_none _
        · exact Option.some_ne_none _
      exact absurd hrun hin
    next => rfl

/-- Reading from a pointer on. -/
theorem slice_above {m : Memory β} {d : Int} (n : Nat) : ∀ {a : Int}, 0 ≤ a →
    (slice a n).run (m.above d) = (slice (d + a) n).run m := by
  induction n with
  | zero => exact fun _ => rfl
  | succ n ih =>
    intro a h
    have hcell : m.above d a = m (d + a) := if_pos h
    have hrest := @ih (a + 1) (by omega)
    rw [← Int.add_assoc] at hrest
    rw [slice, slice, run_bind, run_bind, run_read, run_read, hcell]
    cases m (d + a) with
    | none => rfl
    | some b =>
      rw [Option.bind_some, Option.bind_some, run_bind, run_bind, hrest]
      rfl

/-! ## What a result satisfies -/

/-- Every result satisfies `P`. -/
def Ensures (x : Access β α) (P : α → Prop) : Prop := ∀ m r, x.run m = some r → P r

theorem ensures_pure {P : α → Prop} {a : α} (h : P a) : (pure a : Access β α).Ensures P := by
  intro m r hr
  cases hr
  exact h

theorem ensures_ofOption {P : α → Prop} {o : Option α} (h : ∀ a, o = some a → P a) :
    (ofOption o : Access β α).Ensures P := by
  intro m r hr
  rw [run_ofOption] at hr
  exact h r hr

theorem Ensures.bind {x : Access β α} {f : α → Access β γ} {P : α → Prop} {Q : γ → Prop}
    (hx : x.Ensures P) (hf : ∀ a, P a → (f a).Ensures Q) : (x >>= f).Ensures Q := by
  intro m r hr
  obtain ⟨a, ha, hfr⟩ := Option.bind_eq_some_iff.mp hr
  exact hf a (hx m a ha) m r hfr

/-- Whatever the first part of a computation reads. -/
theorem ensures_then {x : Access β α} {f : α → Access β γ} {Q : γ → Prop}
    (hf : ∀ a, (f a).Ensures Q) : (x >>= f).Ensures Q := by
  intro m r hr
  obtain ⟨a, -, hfr⟩ := Option.bind_eq_some_iff.mp hr
  exact hf a m r hfr

/-- A branch that only chooses what is read before the rest of a computation. -/
theorem ensures_ite_then {c : Prop} [Decidable c] {x y : Access β α} {f : α → Access β γ}
    {Q : γ → Prop} (hf : ∀ a, (f a).Ensures Q) : (if c then x >>= f else y >>= f).Ensures Q := by
  split
  · exact ensures_then hf
  · exact ensures_then hf

theorem Ensures.mono {x : Access β α} {P Q : α → Prop} (hx : x.Ensures P) (h : ∀ a, P a → Q a) :
    x.Ensures Q := fun m r hr => h r (hx m r hr)

theorem Ensures.atPtr {x : Access β α} {P : α → Prop} (hx : x.Ensures P) (a : Int) :
    (atPtr a x).Ensures P := fun m r hr => hx (m.above a) r hr

/-! ## The same computation up to a map -/

/-- `y` does what `x` does, and its result is the image of the one of `x`. -/
def Maps {δ : Type} (u : α → δ) (x : Access β α) (y : Access β δ) : Prop :=
  ∀ m, y.run m = (x.run m).map u

section
variable {δ ε : Type} {u : α → δ} {v : γ → ε}

theorem maps_pure (a : α) : Maps u (pure a : Access β α) (pure (u a)) := fun _ => rfl

theorem maps_ofOption {o : Option α} {o' : Option δ} (h : o' = o.map u) :
    Maps u (ofOption o : Access β α) (ofOption o') := by
  intro m
  rw [run_ofOption, run_ofOption, h]

theorem Maps.bind {x : Access β α} {y : Access β δ} {f : α → Access β γ} {g : δ → Access β ε}
    (h : Maps u x y) (hf : ∀ a, Maps v (f a) (g (u a))) : Maps v (x >>= f) (y >>= g) := by
  intro m
  rw [run_bind, run_bind, h m]
  cases x.run m with
  | none => rfl
  | some a => exact hf a m

/-- Both read the same first, in one memory. -/
theorem map_run_then {x : Access β α} {f : α → Access β γ} {g : α → Access β ε} {m : Memory β}
    (hf : ∀ a, x.run m = some a → (g a).run m = ((f a).run m).map v) :
    (x >>= g).run m = ((x >>= f).run m).map v := by
  rw [run_bind, run_bind]
  cases hx : x.run m with
  | none => rfl
  | some a => exact hf a hx

theorem maps_then {x : Access β α} {f : α → Access β γ} {g : α → Access β ε}
    (hf : ∀ a, Maps v (f a) (g a)) : Maps v (x >>= f) (x >>= g) :=
  fun m => map_run_then fun a _ => hf a m

theorem Maps.ite {c : Prop} [Decidable c] {x x' : Access β α} {y y' : Access β δ}
    (h : Maps u x y) (h' : Maps u x' y') :
    Maps u (if c then x else x') (if c then y else y') := by
  split
  · exact h
  · exact h'

/-- A branch that only chooses what both read first. -/
theorem maps_ite_then {c : Prop} [Decidable c] {x y : Access β α} {f : α → Access β γ}
    {g : α → Access β ε} (hf : ∀ a, Maps v (f a) (g a)) :
    Maps v (if c then x >>= f else y >>= f) (if c then x >>= g else y >>= g) :=
  Maps.ite (maps_then hf) (maps_then hf)

theorem Maps.atPtr {x : Access β α} {y : Access β δ} (h : Maps u x y) (a : Int) :
    Maps u (atPtr a x) (atPtr a y) := fun m => h (m.above a)

theorem Maps.comp {w : δ → ε} {x : Access β α} {y : Access β δ} {z : Access β ε} (h : Maps u x y)
    (h' : Maps w y z) : Maps (w ∘ u) x z := by
  intro m
  rw [h' m, h m, Option.map_map]

end

end Access
end Lib
