import WafProxy.Lib.FirstMatch
import WafProxy.Lib.Move
import WafProxy.Http.Basic

/-
  The search in a stretch — `strlstr` of http_basic.c

  `strlstr` compares `plen` bytes, moves on and then asks whether it is behind the
  last place at which the pattern fits. In a stretch at least as long as the
  pattern it looks at these places only. In a shorter one there are none, and it
  still compares once, with bytes that are behind the stretch; `x_memcasestr`
  looks at the lengths first.

  What is proved:
    1. `strlstrLoop_isFirst` — the loop finds the first match in the rest.
    2. `strlstr_behind` — a pattern that is longer than the stretch is found where
       it stands at the start of the stretch and goes on behind it.
    3. `searches_iff` — the search is one in the stretch exactly when the stretch
       is at least as long as the pattern.

  Correspondence (C ↔ Lean):
    `strlstr`   ↔ `strlstr` (Basic)
-/

namespace WafProxy
open Lib

/-- With `l` at `src`, whatever else there is, the search for the pattern in `l`
returns its first occurrence inside of `l`, or null when there is none. -/
def Searches (src : Int) (l pattern : List Byte) : Prop :=
  ∃ o, IsFirst pattern l o ∧ ∀ m : Memory Byte, m.At src l →
    (strlstr src l.length pattern).run m = some (o.map fun i : Nat => src + i)

section
variable {m : Memory Byte} {l pattern : List Byte} {src : Int}

/-- The window compared at the start of the rest. -/
theorem slice_window (h : m.At src l) (hle : pattern.length ≤ l.length) :
    (Access.slice src pattern.length).run m = some (l.take pattern.length) := by
  have hsplit := List.take_append_drop pattern.length l
  rw [← hsplit] at h
  have hwindow := (Memory.at_append.mp h).1.slice
  rwa [List.length_take_of_le hle] at hwindow

/-- **The loop**, with one turn for each place at which the pattern fits in the rest. -/
theorem strlstrLoop_isFirst (hp : pattern ≠ []) {n : Nat} (h : m.At src l)
    (hn : n + pattern.length = l.length + 1) :
    ∃ o, IsFirst pattern l o ∧ (strlstrLoop pattern n src).run m = some (o.map fun i : Nat => src + i) := by
  have hpos := List.length_pos_iff.mpr hp
  induction n generalizing src l with
  | zero => exact ⟨none, isFirst_short (by omega), rfl⟩
  | succ n ih =>
    have hwindow : (Access.slice src pattern.length).run m = some (l.take pattern.length) :=
      slice_window h (by omega)
    rw [strlstrLoop, Access.run_bind, hwindow, Option.bind_some]
    by_cases heq : l.take pattern.length = pattern
    · refine ⟨some 0, isFirst_zero (heq ▸ List.take_prefix _ _), ?_⟩
      rw [if_pos heq]
      simp
    · -- no match here: the first one is the first one behind this byte
      rw [if_neg heq]
      cases l with
      | nil =>
        rw [List.length_nil] at hn
        omega
      | cons c l =>
        have hrest : m.At (src + 1) l := ((Memory.at_append (l := [c])).mp h).2
        rw [List.length_cons] at hn
        obtain ⟨o, ho, hrun⟩ := ih hrest (by omega)
        refine ⟨o.map (· + 1), ho.cons fun hpre => heq (List.prefix_iff_eq_take.mp hpre).symm, ?_⟩
        rw [hrun, Option.map_map]
        congr 2
        funext i
        show src + 1 + (i : Int) = src + ((i + 1 : Nat) : Int)
        omega

/-- A stretch with a place for the pattern is searched at these places. -/
theorem strlstr_inside (hp : pattern ≠ []) (h : m.At src l) (hle : pattern.length ≤ l.length) :
    ∃ o, IsFirst pattern l o ∧ (strlstr src l.length pattern).run m = some (o.map fun i : Nat => src + i) := by
  have hturns : (max 1 ((l.length : Int) - pattern.length + 1)).toNat + pattern.length = l.length + 1 := by omega
  exact strlstrLoop_isFirst hp h hturns

/-- **A pattern longer than the stretch** is compared with what is behind the stretch. -/
theorem strlstr_behind {slen : Nat} (h : m.At src pattern) (hlt : slen < pattern.length) :
    (strlstr src slen pattern).run m = some (some src) := by
  have hturns : (max 1 ((slen : Int) - pattern.length + 1)).toNat = 1 := by omega
  unfold strlstr
  rw [hturns, strlstrLoop, Access.run_bind, h.slice, Option.bind_some, if_pos rfl]
  rfl

/-- **Exactly the stretches at least as long as the pattern** are searched inside. -/
theorem searches_iff (hp : pattern ≠ []) (src : Int) (l : List Byte) :
    Searches src l pattern ↔ pattern.length ≤ l.length := by
  constructor
  · intro h
    obtain ⟨o, -, hall⟩ := h
    apply Nat.le_of_not_lt
    intro hlt
    -- a memory that ends with the stretch, where the comparison reads one byte too many
    have hrun := hall (Memory.store (fun _ => none) src l) Memory.at_store
    have hturns : (max 1 ((l.length : Int) - pattern.length + 1)).toNat = 1 := by omega
    unfold strlstr at hrun
    rw [hturns, strlstrLoop, Access.run_bind] at hrun
    obtain ⟨window, hwindow, -⟩ := Option.bind_eq_some_iff.mp hrun
    obtain ⟨c, hc⟩ := Memory.room_of_slice hwindow l.length hlt
    rw [Memory.store_outside (Or.inr (Int.le_refl _))] at hc
    cases hc
  · intro hle
    -- the first occurrence is the same in every memory
    obtain ⟨o, ho, -⟩ := strlstr_inside hp (Memory.at_store (m := fun _ => none) (a := src)) hle
    refine ⟨o, ho, fun m hm => ?_⟩
    obtain ⟨o', ho', hrun⟩ := strlstr_inside hp hm hle
    rw [ho.unique ho', hrun]

/-- A semicolon in two bytes is found. -/
theorem searches_semicolon : Searches 0 [97, 59] [59] ↔ [59].length ≤ [97, 59].length :=
  searches_iff (List.cons_ne_nil _ _) 0 [97, 59]

/-- Nothing is searched, and the semicolon behind it is found. -/
theorem searches_nothing : (strlstr 5 0 [59]).run (Memory.store (fun _ => none) 5 [59]) = some (some 5) ∧
    ¬ Searches 5 [] [59] := by
  have hfound := strlstr_behind (Memory.at_store (m := fun _ => none) (a := 5) (l := [59])) (Nat.zero_lt_succ 0)
  refine ⟨hfound, fun h => ?_⟩
  obtain ⟨o, ho, hall⟩ := h
  have hnone : o = none := ho.unique (isFirst_short (Nat.zero_lt_succ 0))
  have hrun := hall _ (Memory.at_append.mp (Memory.at_store (m := fun _ => none) (a := 5) (l := [] ++ [59]))).1
  rw [hnone] at hrun
  exact absurd (hfound.symm.trans hrun) (by decide)

end

end WafProxy
