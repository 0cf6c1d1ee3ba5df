/-
  Steps that answer

  A step takes an input and a state to an answer and the state behind it, or is
  undefined. `answers` makes one step for each of a list of inputs. `answersOf` does
  the same with an abstract step, which is always defined.

  Rules:
    1. `answers_refines` — when related states give the same answer to an input
       that is ready, and related states behind it, a list of ready inputs gets the
       same answers.
    2. `answersOf_kept` — what no step changes has not changed behind them all.
-/

namespace Lib
variable {σ α ι ο : Type}

/-- The answers to a list of inputs, and the state behind them. -/
def answers (step : ι → σ → Option (ο × σ)) : List ι → σ → Option (List ο × σ)
  | [], s => some ([], s)
  | i :: is, s => (step i s).bind fun r => (answers step is r.2).map fun rs => (r.1 :: rs.1, rs.2)

/-- The same with a step that is always defined. -/
def answersOf (step : ι → α → ο × α) : List ι → α → List ο × α
  | [], a => ([], a)
  | i :: is, a => ((step i a).1 :: (answersOf step is (step i a).2).1, (answersOf step is (step i a).2).2)

/-- **The same answers**: a step of the one is a step of the other. -/
theorem answers_refines {step : ι → σ → Option (ο × σ)} {abs : ι → α → ο × α} {R : α → σ → Prop} {Ready : ι → Prop}
    (hstep : ∀ i a s, Ready i → R a s → ∃ s', step i s = some ((abs i a).1, s') ∧ R (abs i a).2 s') (is : List ι) :
    ∀ {a : α} {s : σ}, (∀ i ∈ is, Ready i) → R a s →
      ∃ s', answers step is s = some ((answersOf abs is a).1, s') ∧ R (answersOf abs is a).2 s' := by
  induction is with
  | nil => exact fun _ h => ⟨_, rfl, h⟩
  | cons i is ih =>
    intro a s hready h
    obtain ⟨s1, hrun, h1⟩ := hstep i a s (hready i List.mem_cons_self) h
    obtain ⟨s2, hrest, h2⟩ := ih (fun j hj => hready j (List.mem_cons_of_mem i hj)) h1
    refine ⟨s2, ?_, h2⟩
    rw [answers, hrun, Option.bind_some, hrest]
    rfl

/-- **What no step changes** has not changed at the end. -/
theorem answersOf_kept {β : Type} {step : ι → α → ο × α} (f : α → β) (is : List ι) :
    (∀ i ∈ is, ∀ a, f (step i a).2 = f a) → ∀ a, f (answersOf step is a).2 = f a := by
  induction is with
  | nil => exact fun _ _ => rfl
  | cons i is ih =>
    intro h a
    have hrest := ih (fun j hj => h j (List.mem_cons_of_mem i hj)) (step i a).2
    exact hrest.trans (h i List.mem_cons_self a)

end Lib
