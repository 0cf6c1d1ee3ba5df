import Mathlib.Data.List.Count

/-
  Runs of a stack

  A move puts an element on the stack, takes the top away, or leaves the stack as it
  is. Only taking from the empty stack fails.

  Rules:
    1. `run_append` — moves behind each other.
    2. `run_length` — the height is what was there, and the pushes, less the pops.
    3. `run_forall` — what holds of all that is pushed holds of all that is on the stack.
    4. `run_eq_none_iff` — a run fails exactly at a pop in front of which there are
       no more pushes than pops.
-/

namespace Lib

/-- What is done with a stack. -/
inductive Move (α : Type) where
  | stay
  | push (a : α)
  | pop
  deriving DecidableEq, Repr

namespace Move
variable {α : Type} {st st' : List α}

def apply : Move α → List α → Option (List α)
  | .stay, st => some st
  | .push a, st => some (a :: st)
  | .pop, [] => none
  | .pop, _ :: st => some st

/-- The moves in their order; the top of the stack is its head. -/
def run : List α → List (Move α) → Option (List α)
  | st, [] => some st
  | st, m :: ms => (m.apply st).bind fun st => run st ms

def pushes : List (Move α) → Nat
  | [] => 0
  | .stay :: ms => pushes ms
  | .push _ :: ms => pushes ms + 1
  | .pop :: ms => pushes ms

def pops : List (Move α) → Nat
  | [] => 0
  | .stay :: ms => pops ms
  | .push _ :: ms => pops ms
  | .pop :: ms => pops ms + 1

example : run [] [.push 1, .stay, .push 2, .pop] = some [1] ∧ run [] [.push 1, .pop, .pop] = none := by decide

@[simp] theorem run_nil : run st ([] : List (Move α)) = some st := rfl

@[simp] theorem run_push (a : α) (ms : List (Move α)) : run st (.push a :: ms) = run (a :: st) ms := rfl

theorem run_map_push (l : List α) : run st (l.map .push) = some (l.reverse ++ st) := by
  induction l generalizing st with
  | nil => rfl
  | cons a l ih =>
    rw [List.map_cons, run_push, ih, List.reverse_cons, List.append_assoc]
    rfl

theorem run_append (ms ms' : List (Move α)) : run st (ms ++ ms') = (run st ms).bind fun st' => run st' ms' := by
  induction ms generalizing st with
  | nil => rfl
  | cons m ms ih =>
    rw [List.cons_append, run, run, Option.bind_assoc]
    congr 1
    funext st
    exact ih

/-- **The height** of the stack behind a run. -/
theorem run_length {ms : List (Move α)} (h : run st ms = some st') :
    st'.length + pops ms = st.length + pushes ms := by
  induction ms generalizing st with
  | nil =>
    obtain rfl : st = st' := Option.some.inj h
    rfl
  | cons m ms ih =>
    cases m with
    | stay => exact ih h
    | push a =>
      have hrest := ih h
      rw [List.length_cons] at hrest
      rw [pops, pushes]
      omega
    | pop =>
      cases st with
      | nil => cases h
      | cons a st =>
        have hrest := ih h
        rw [pops, pushes, List.length_cons]
        omega

theorem apply_forall {P : α → Prop} {m : Move α} (hm : ∀ a, m = .push a → P a) (hst : ∀ x ∈ st, P x)
    (h : m.apply st = some st') : ∀ x ∈ st', P x := by
  cases m with
  | stay =>
    obtain rfl : st = st' := Option.some.inj h
    exact hst
  | push a =>
    obtain rfl : a :: st = st' := Option.some.inj h
    exact List.forall_mem_cons.mpr ⟨hm a rfl, hst⟩
  | pop =>
    cases st with
    | nil => cases h
    | cons a st =>
      obtain rfl : st = st' := Option.some.inj h
      exact (List.forall_mem_cons.mp hst).2

theorem run_forall {P : α → Prop} {ms : List (Move α)} (hms : ∀ a, .push a ∈ ms → P a) (hst : ∀ x ∈ st, P x)
    (h : run st ms = some st') : ∀ x ∈ st', P x := by
  induction ms generalizing st with
  | nil =>
    obtain rfl : st = st' := Option.some.inj h
    exact hst
  | cons m ms ih =>
    obtain ⟨st₁, hm, hrest⟩ := Option.bind_eq_some_iff.mp h
    refine ih (fun a ha => hms a (List.mem_cons_of_mem m ha)) (apply_forall ?_ hst hm) hrest
    rintro a rfl
    exact hms a List.mem_cons_self

/-- **A run fails** exactly at a pop that meets no more pushes than pops. -/
theorem run_eq_none_iff {ms : List (Move α)} : run st ms = none ↔
    ∃ front behind, ms = front ++ .pop :: behind ∧ st.length + pushes front ≤ pops front := by
  constructor
  · intro h
    induction ms generalizing st with
    | nil => cases h
    | cons m ms ih =>
      cases m with
      | stay =>
        obtain ⟨front, behind, rfl, hle⟩ := ih h
        exact ⟨.stay :: front, behind, rfl, hle⟩
      | push a =>
        obtain ⟨front, behind, rfl, hle⟩ := ih h
        rw [List.length_cons] at hle
        refine ⟨.push a :: front, behind, rfl, ?_⟩
        rw [pops, pushes]
        omega
      | pop =>
        cases st with
        | nil => exact ⟨[], ms, rfl, Nat.le_refl _⟩
        | cons a st =>
          obtain ⟨front, behind, rfl, hle⟩ := ih h
          refine ⟨.pop :: front, behind, rfl, ?_⟩
          rw [pops, pushes, List.length_cons]
          omega
  · rintro ⟨front, behind, rfl, hle⟩
    rw [run_append]
    cases hrun : run st front with
    | none => rfl
    | some st' =>
      -- the height in front of the pop is 0
      have hheight := run_length hrun
      obtain rfl : st' = [] := List.eq_nil_of_length_eq_zero (by omega)
      rfl

end Move

end Lib
