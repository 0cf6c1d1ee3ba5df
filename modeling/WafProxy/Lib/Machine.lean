/-
  Step machines with refusable inputs — runs, conditions along a run, and the
  induction rules every invariant of this development is proved with

  A machine has a first state and a step that takes one input; `none` says the
  input is not possible in that state. `run` takes a list of inputs, `Meets C`
  says that every step of the run meets `C`, a condition on the state before
  the step and on its input.

  Rules:
    1. `run_inv` — an invariant every step that meets `C` preserves holds after
       every run whose steps meet `C`.
    2. `run_append` — a run splits at any point, so a statement about the end
       of every run is a statement about every state a run passes through.
    3. `meets_of_mem`, `meets_and`, `meets_congr`, `meets_congr_while`, `meets_congr_run` — conditions
       along a run conjoin, and agree when they agree under an invariant.
    4. `run_iff` — what a step keeps exactly when it meets `C` holds at the end of
       a run exactly when every step met `C`.
    5. `run_observe` — a machine that is only watched runs as it does unwatched.
-/

namespace Lib

/-- A first state and a step; `none` refuses the input. -/
structure Machine (σ ι : Type) where
  init : σ
  step : σ → ι → Option σ

namespace Machine
variable {σ ι : Type} (M : Machine σ ι)

/-- The state after a list of inputs, when every one of them was possible. -/
def run : σ → List ι → Option σ
  | s, [] => some s
  | s, i :: is => (M.step s i).bind fun s' => run s' is

/-- Every step the inputs make from `s` meets `C`. -/
def Meets (C : σ → ι → Prop) : σ → List ι → Prop
  | _, [] => True
  | s, i :: is => C s i ∧ ∀ s', M.step s i = some s' → Meets C s' is

/-- `Meets C` can be checked along a run when `C` can. -/
instance decidableMeets (C : σ → ι → Prop) [∀ s i, Decidable (C s i)] :
    ∀ (s : σ) (is : List ι), Decidable (M.Meets C s is)
  | _, [] => .isTrue trivial
  | s, i :: is =>
    match hs : M.step s i with
    | none => decidable_of_iff (C s i) (by simp [Meets, hs])
    | some s' =>
      have := decidableMeets C s' is
      decidable_of_iff (C s i ∧ M.Meets C s' is) (by simp [Meets, hs])

variable {M}

@[simp] theorem run_nil (s : σ) : M.run s [] = some s := rfl

theorem run_cons {s t : σ} {i : ι} {is : List ι} :
    M.run s (i :: is) = some t ↔ ∃ s', M.step s i = some s' ∧ M.run s' is = some t := by
  simp only [run, Option.bind_eq_some_iff]

theorem run_append (s : σ) (is js : List ι) :
    M.run s (is ++ js) = (M.run s is).bind fun t => M.run t js := by
  induction is generalizing s with
  | nil => rfl
  | cons i is ih =>
    simp only [List.cons_append, run]
    cases M.step s i with
    | none => rfl
    | some s' => exact ih s'

theorem meets_and {C D : σ → ι → Prop} {s : σ} {is : List ι} :
    M.Meets (fun s i => C s i ∧ D s i) s is ↔ M.Meets C s is ∧ M.Meets D s is := by
  induction is generalizing s with
  | nil => simp [Meets]
  | cons i is ih =>
    simp only [Meets, ih]
    constructor
    · rintro ⟨⟨hc, hd⟩, h⟩
      exact ⟨⟨hc, fun s' hs => (h s' hs).1⟩, hd, fun s' hs => (h s' hs).2⟩
    · rintro ⟨⟨hc, h1⟩, hd, h2⟩
      exact ⟨⟨hc, hd⟩, fun s' hs => ⟨h1 s' hs, h2 s' hs⟩⟩

/-- What every input of the list meets, in any state, every step of the run meets. -/
theorem meets_of_mem {C : σ → ι → Prop} {is : List ι} (h : ∀ i ∈ is, ∀ s, C s i) (s : σ) :
    M.Meets C s is := by
  induction is generalizing s with
  | nil => trivial
  | cons i is ih =>
    exact ⟨h i List.mem_cons_self s, fun s' _ => ih (fun j hj => h j (List.mem_cons_of_mem i hj)) s'⟩

/-- Conditions that agree under an invariant agree along a run, when the steps that
meet them preserve it. -/
theorem meets_congr_while {C D : σ → ι → Prop} {I : σ → Prop}
    (hstep : ∀ s i s', C s i → I s → M.step s i = some s' → I s') (hcd : ∀ s i, I s → (C s i ↔ D s i))
    {s : σ} {is : List ι} (hs : I s) : M.Meets C s is ↔ M.Meets D s is := by
  induction is generalizing s with
  | nil => exact Iff.rfl
  | cons i is ih =>
    simp only [Meets, ← hcd s i hs]
    refine and_congr_right fun hc => forall_congr' fun s' => ?_
    exact imp_congr_right fun h => ih (hstep s i s' hc hs h)

/-- Under an invariant, conditions that agree step by step agree along a run. -/
theorem meets_congr {C D : σ → ι → Prop} {I : σ → Prop}
    (hstep : ∀ s i s', I s → M.step s i = some s' → I s') (hcd : ∀ s i, I s → (C s i ↔ D s i))
    {s : σ} {is : List ι} (hs : I s) : M.Meets C s is ↔ M.Meets D s is :=
  meets_congr_while (fun s i s' _ => hstep s i s') hcd hs

/-- Conditions that agree on every step possible under an invariant agree along
a run, when the steps that meet them preserve it. -/
theorem meets_congr_run {C D : σ → ι → Prop} {I : σ → Prop}
    (hstep : ∀ s i s', C s i → I s → M.step s i = some s' → I s')
    (hcd : ∀ s i s', I s → M.step s i = some s' → (C s i ↔ D s i)) :
    ∀ (is : List ι) {s t : σ}, I s → M.run s is = some t → (M.Meets C s is ↔ M.Meets D s is) := by
  intro is
  induction is with
  | nil =>
    intro s t _ _
    exact Iff.rfl
  | cons i is ih =>
    intro s t hs hr
    obtain ⟨s', hst, hr'⟩ := run_cons.mp hr
    simp only [Meets, ← hcd s i s' hs hst, hst, Option.some.injEq, forall_eq']
    exact and_congr_right fun hc => ih (hstep s i s' hc hs hst) hr'

/-- **The invariant rule.** What every step meeting `C` preserves holds after
every run whose steps meet `C`. -/
theorem run_inv {C : σ → ι → Prop} {I : σ → Prop}
    (hstep : ∀ s i s', C s i → I s → M.step s i = some s' → I s') :
    ∀ (is : List ι) {s t : σ}, I s → M.Meets C s is → M.run s is = some t → I t := by
  intro is
  induction is with
  | nil =>
    intro s t hs _ hr
    simp only [run_nil, Option.some.injEq] at hr
    exact hr ▸ hs
  | cons i is ih =>
    intro s t hs hm hr
    obtain ⟨s', hst, hr'⟩ := run_cons.mp hr
    exact ih (hstep s i s' hm.1 hs hst) (hm.2 s' hst) hr'

/-- The rule without a condition on the steps. -/
theorem run_inv' {I : σ → Prop} (hstep : ∀ s i s', I s → M.step s i = some s' → I s')
    {is : List ι} {s t : σ} (hs : I s) (hr : M.run s is = some t) : I t := by
  exact run_inv (C := fun _ _ => True) (fun s i s' _ => hstep s i s') is hs
    (meets_of_mem (fun _ _ _ => trivial) s) hr

/-- A property that a step keeps exactly when it meets `C` holds at the end of a
run exactly when it held at its start and every step met `C`. -/
theorem run_iff {C : σ → ι → Prop} {I P : σ → Prop}
    (hstep : ∀ s i s', I s → M.step s i = some s' → I s')
    (hiff : ∀ s i s', I s → M.step s i = some s' → (P s' ↔ P s ∧ C s i)) :
    ∀ (is : List ι) {s t : σ}, I s → M.run s is = some t → (P t ↔ P s ∧ M.Meets C s is) := by
  intro is
  induction is with
  | nil =>
    intro s t _ hr
    cases hr
    exact (and_iff_left trivial).symm
  | cons i is ih =>
    intro s t hs hr
    obtain ⟨s', hst, hr'⟩ := run_cons.mp hr
    rw [ih (hstep s i s' hs hst) hr', hiff s i s' hs hst, and_assoc]
    refine and_congr_right fun _ => and_congr_right fun _ => ⟨fun h s'' hs'' => ?_, fun h => h s' hst⟩
    rw [hst] at hs''
    cases hs''
    exact h

/-- The machine with a record beside its state, which every step may extend and
no step reads. -/
def observe {τ : Type} (M : Machine σ ι) (note : σ → ι → τ → τ) (t : τ) : Machine (σ × τ) ι where
  init := (M.init, t)
  step st i := (M.step st.1 i).map fun s' => (s', note st.1 i st.2)

/-- A watched run is a run. -/
theorem run_observe {τ : Type} {note : σ → ι → τ → τ} {t₀ : τ} (is : List ι) : ∀ {s s' : σ} {t t' : τ},
    (M.observe note t₀).run (s, t) is = some (s', t') → M.run s is = some s' := by
  induction is with
  | nil =>
    intro s s' t t' h
    cases h
    rfl
  | cons i is ih =>
    intro s s' t t' h
    obtain ⟨⟨s1, t1⟩, hstep, hrun⟩ := run_cons.mp h
    obtain ⟨s2, hs, heq⟩ := Option.map_eq_some_iff.mp hstep
    cases heq
    exact run_cons.mpr ⟨s1, hs, ih hrun⟩

end Machine
end Lib
