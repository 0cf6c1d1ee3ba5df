import WafProxy.Lib.LongestSuffix
import WafProxy.Rules.Acsm

/-
  The states of the patterns — AddPatternStates

  Every state stands for a word: the bytes that lead to it from state 0. The words
  are the prefixes of the patterns, each has one state, and the patterns that are a
  word are in the match list of its state.

  What is proved:
    1. `matchStates_spec` — the first loop follows the pattern as far as there are
       states.
    2. `IsTrie.addState`, `addStates_spec` — a new state stands for a new word.
    3. `addPatternStates_spec` — a pattern more.
    4. `addPatterns_spec` — all the patterns, inside the table.
-/

namespace WafProxy.Acsm
open Lib

variable {ι : Type} {a : Struct ι} {label : Nat → List Byte}

theorem Struct.entry_lt {s : Nat} (h : s < a.acsmMaxStates) : a.entry s = some (a.acsmStateTable s) :=
  if_pos h

/-- The table with another entry. -/
def Struct.set (a : Struct ι) (s : Nat) (e : StateTable ι) : Struct ι :=
  { a with acsmStateTable := Function.update a.acsmStateTable s e }

theorem Struct.put_lt {s : Nat} {e : StateTable ι} (h : s < a.acsmMaxStates) : a.put s e = some (a.set s e) :=
  if_pos h

theorem Struct.set_same {s : Nat} {e : StateTable ι} : (a.set s e).acsmStateTable s = e :=
  Function.update_self _ _ _

theorem Struct.set_other {s t : Nat} {e : StateTable ι} (h : t ≠ s) :
    (a.set s e).acsmStateTable t = a.acsmStateTable t :=
  Function.update_of_ne h _ _

theorem Struct.set_set {s : Nat} {e e' : StateTable ι} : (a.set s e).set s e' = a.set s e' := by
  simp [Struct.set]

theorem Struct.set_self {s : Nat} : a.set s (a.acsmStateTable s) = a := by
  simp [Struct.set]

/-! ## Words and states -/

/-- The words of a list of patterns. -/
def Word (ps : List (Pattern ι)) (w : List Byte) : Prop := w = [] ∨ ∃ p ∈ ps, w <+: p.patrn

instance (ps : List (Pattern ι)) : DecidablePred (Word ps) := fun _ => inferInstanceAs (Decidable (_ ∨ _))

theorem word_prefixClosed (ps : List (Pattern ι)) : PrefixClosed (Word ps) where
  nil := Or.inl rfl
  init w c h := by
    rcases h with hnil | ⟨p, hp, hpre⟩
    · exact absurd hnil (List.append_ne_nil_of_right_ne_nil w (List.cons_ne_nil c []))
    · exact Or.inr ⟨p, hp, (List.prefix_append w [c]).trans hpre⟩

/-- The states form a tree of words. -/
structure IsTrie (a : Struct ι) (label : Nat → List Byte) : Prop where
  root : label 0 = []
  inj : ∀ s, s ≤ a.acsmNumStates → ∀ t, t ≤ a.acsmNumStates → label s = label t → s = t
  next_iff : ∀ s, s ≤ a.acsmNumStates → ∀ c t, (a.acsmStateTable s).nextState c = some t ↔
    t ≤ a.acsmNumStates ∧ label t = label s ++ [c]
  closed : ∀ t, t ≤ a.acsmNumStates → ∀ w c, label t = w ++ [c] → ∃ s, s ≤ a.acsmNumStates ∧ label s = w
  fresh : ∀ s, a.acsmNumStates < s → (a.acsmStateTable s).nextState = fun _ => none
  depth_le : ∀ s, s ≤ a.acsmNumStates → (label s).length ≤ s

/-- A state stands for the word. -/
def Labelled (a : Struct ι) (label : Nat → List Byte) (w : List Byte) : Prop :=
  ∃ s, s ≤ a.acsmNumStates ∧ label s = w

/-- The trie of a list of patterns; the newest pattern is the first. -/
structure TrieOf (ps : List (Pattern ι)) (a : Struct ι) (label : Nat → List Byte) : Prop extends
    IsTrie a label where
  words : ∀ w, Labelled a label w ↔ Word ps w
  own : ∀ s, (s ≤ a.acsmNumStates →
    (a.acsmStateTable s).matchList = ps.filter fun p => p.patrn = label s) ∧
    (a.acsmNumStates < s → (a.acsmStateTable s).matchList = [])
  fail : ∀ s, (a.acsmStateTable s).failState = 0
  size : a.acsmNumStates ≤ (ps.map fun p => p.n).sum

theorem Pattern.patrn_length (p : Pattern ι) : p.patrn.length = p.n := by
  rw [p.upper, convertCaseEx, List.length_map, p.size]

/-! ## Following a pattern -/

/-- What is left after the first loop has no state to go to. -/
theorem matchStates_spec (ht : IsTrie a label) (hmax : a.acsmNumStates < a.acsmMaxStates) :
    ∀ (w : List Byte) (s : Nat), s ≤ a.acsmNumStates →
    ∃ s' u w', matchStates a s w = some (s', w') ∧ s' ≤ a.acsmNumStates ∧ w = u ++ w' ∧
      label s' = label s ++ u ∧ ∀ c ∈ w'.head?, (a.acsmStateTable s').nextState c = none := by
  intro w
  induction w with
  | nil =>
    intro s hs
    refine ⟨s, [], [], rfl, hs, rfl, (List.append_nil _).symm, fun c hc => ?_⟩
    cases hc
  | cons c w ih =>
    intro s hs
    cases hnext : (a.acsmStateTable s).nextState c with
    | none =>
      refine ⟨s, [], c :: w, ?_, hs, rfl, (List.append_nil _).symm, fun d hd => ?_⟩
      · simp [matchStates, Struct.entry_lt (Nat.lt_of_le_of_lt hs hmax), hnext]
      · cases hd
        exact hnext
    | some t =>
      obtain ⟨ht', hlabel⟩ := (ht.next_iff s hs c t).mp hnext
      obtain ⟨s', u, w', hrun, hs', hw, hl, hnone⟩ := ih t ht'
      refine ⟨s', c :: u, w', ?_, hs', congrArg (c :: ·) hw, ?_, hnone⟩
      · simp [matchStates, Struct.entry_lt (Nat.lt_of_le_of_lt hs hmax), hnext, hrun]
      · rw [hl, hlabel, List.append_assoc]
        rfl

/-! ## New states -/

/-- The table with a new state behind state `s`. -/
def Struct.addState (a : Struct ι) (s : Nat) (c : Byte) : Struct ι :=
  { a with
    acsmNumStates := a.acsmNumStates + 1
    acsmStateTable := Function.update a.acsmStateTable s { a.acsmStateTable s with
      nextState := Function.update (a.acsmStateTable s).nextState c (some (a.acsmNumStates + 1)) } }

/-- The words with that of the new state. -/
def newLabel (a : Struct ι) (label : Nat → List Byte) (s : Nat) (c : Byte) : Nat → List Byte :=
  Function.update label (a.acsmNumStates + 1) (label s ++ [c])

section
variable {s : Nat} {c : Byte}

theorem newLabel_old {t : Nat} (h : t ≤ a.acsmNumStates) : newLabel a label s c t = label t :=
  Function.update_of_ne (by omega) _ _

theorem newLabel_new : newLabel a label s c (a.acsmNumStates + 1) = label s ++ [c] :=
  Function.update_self _ _ _

theorem addState_nextState (t : Nat) (d : Byte) : ((a.addState s c).acsmStateTable t).nextState d =
    if t = s ∧ d = c then some (a.acsmNumStates + 1) else (a.acsmStateTable t).nextState d := by
  by_cases hs : t = s
  · subst hs
    by_cases hc : d = c
    · simp [Struct.addState, hc]
    · simp [Struct.addState, hc]
  · simp [Struct.addState, hs]

@[simp] theorem addState_matchList (t : Nat) :
    ((a.addState s c).acsmStateTable t).matchList = (a.acsmStateTable t).matchList := by
  by_cases hs : t = s
  · subst hs
    simp [Struct.addState]
  · simp [Struct.addState, hs]

@[simp] theorem addState_failState (t : Nat) :
    ((a.addState s c).acsmStateTable t).failState = (a.acsmStateTable t).failState := by
  by_cases hs : t = s
  · subst hs
    simp [Struct.addState]
  · simp [Struct.addState, hs]

/-- The word of a new state is new. -/
theorem IsTrie.unlabelled (ht : IsTrie a label) (hs : s ≤ a.acsmNumStates)
    (hnone : (a.acsmStateTable s).nextState c = none) : ¬ Labelled a label (label s ++ [c]) := by
  intro h
  obtain ⟨t, htn, hl⟩ := h
  have hsome := (ht.next_iff s hs c t).mpr ⟨htn, hl⟩
  rw [hnone] at hsome
  cases hsome

theorem IsTrie.addState (ht : IsTrie a label) (hs : s ≤ a.acsmNumStates)
    (hnone : (a.acsmStateTable s).nextState c = none) :
    IsTrie (a.addState s c) (newLabel a label s c) := by
  have hnew := ht.unlabelled hs hnone
  -- a state of the new table is an old one or the new one
  have hcases : ∀ t, t ≤ a.acsmNumStates + 1 → t ≤ a.acsmNumStates ∨ t = a.acsmNumStates + 1 := by omega
  refine ⟨?_, ?_, ?_, ?_, ?_, ?_⟩
  · rw [newLabel_old (Nat.zero_le _), ht.root]
  · intro t htn u hun heq
    rcases hcases t htn with ht' | rfl
    · rcases hcases u hun with hu' | rfl
      · rw [newLabel_old ht', newLabel_old hu'] at heq
        exact ht.inj t ht' u hu' heq
      · rw [newLabel_old ht', newLabel_new] at heq
        exact absurd ⟨t, ht', heq⟩ hnew
    · rcases hcases u hun with hu' | rfl
      · rw [newLabel_old hu', newLabel_new] at heq
        exact absurd ⟨u, hu', heq.symm⟩ hnew
      · rfl
  · intro t htn d u
    rw [addState_nextState]
    rcases hcases t htn with ht' | rfl
    · rw [newLabel_old ht']
      split
      · next hsc =>
        obtain ⟨rfl, rfl⟩ := hsc
        constructor
        · intro h
          cases h
          exact ⟨Nat.le_refl _, newLabel_new⟩
        · intro h
          obtain ⟨hu, hl⟩ := h
          rcases hcases u hu with hu' | rfl
          · rw [newLabel_old hu'] at hl
            exact absurd ⟨u, hu', hl⟩ hnew
          · rfl
      · next hsc =>
        rw [ht.next_iff t ht' d u]
        constructor
        · intro h
          exact ⟨Nat.le_succ_of_le h.1, (newLabel_old h.1).trans h.2⟩
        · intro h
          obtain ⟨hu, hl⟩ := h
          rcases hcases u hu with hu' | rfl
          · rw [newLabel_old hu'] at hl
            exact ⟨hu', hl⟩
          · -- the new word has one parent
            rw [newLabel_new] at hl
            obtain ⟨hlabel, hcd⟩ := List.append_inj' hl rfl
            exact absurd ⟨ht.inj t ht' s hs hlabel.symm, (List.singleton_inj.mp hcd).symm⟩ hsc
    · -- the new state leads nowhere
      have hne : ¬ (a.acsmNumStates + 1 = s ∧ d = c) := by omega
      rw [if_neg hne, ht.fresh _ (Nat.lt_succ_self _), newLabel_new]
      constructor
      · intro h
        cases h
      · intro h
        obtain ⟨hu, hl⟩ := h
        rcases hcases u hu with hu' | rfl
        · rw [newLabel_old hu'] at hl
          exact absurd (ht.closed u hu' _ _ hl) hnew
        · rw [newLabel_new] at hl
          have hlen := congrArg List.length hl
          rw [@List.length_append _ _ [d], List.length_singleton] at hlen
          omega
  · intro t htn w d hl
    rcases hcases t htn with ht' | rfl
    · rw [newLabel_old ht'] at hl
      obtain ⟨u, hu, hlu⟩ := ht.closed t ht' w d hl
      exact ⟨u, Nat.le_succ_of_le hu, (newLabel_old hu).trans hlu⟩
    · rw [newLabel_new] at hl
      exact ⟨s, Nat.le_succ_of_le hs, (newLabel_old hs).trans (List.append_inj' hl rfl).1⟩
  · intro t htn
    have hlt : a.acsmNumStates + 1 < t := htn
    funext d
    have hne : ¬ (t = s ∧ d = c) := by omega
    rw [addState_nextState, if_neg hne, ht.fresh t (by omega)]
  · intro t htn
    rcases hcases t htn with ht' | rfl
    · rw [newLabel_old ht']
      exact ht.depth_le t ht'
    · have hle := ht.depth_le s hs
      rw [newLabel_new, List.length_append, List.length_singleton]
      omega

theorem labelled_addState (w : List Byte) :
    Labelled (a.addState s c) (newLabel a label s c) w ↔ Labelled a label w ∨ w = label s ++ [c] := by
  constructor
  · intro h
    obtain ⟨t, htn, hl⟩ := h
    have htn' : t ≤ a.acsmNumStates + 1 := htn
    rcases Nat.le_or_eq_of_le_succ htn' with ht' | rfl
    · exact Or.inl ⟨t, ht', (newLabel_old ht').symm.trans hl⟩
    · exact Or.inr (hl.symm.trans newLabel_new)
  · intro h
    rcases h with ⟨t, ht', hl⟩ | heq
    · exact ⟨t, Nat.le_succ_of_le ht', (newLabel_old ht').trans hl⟩
    · exact ⟨a.acsmNumStates + 1, Nat.le_refl _, newLabel_new.trans heq.symm⟩

end

/-- What the second loop leaves as it was. -/
structure Extends (a a' : Struct ι) (label label' : Nat → List Byte) : Prop where
  num : a.acsmNumStates ≤ a'.acsmNumStates
  max : a'.acsmMaxStates = a.acsmMaxStates
  patterns : a'.acsmPatterns = a.acsmPatterns
  label : ∀ t, t ≤ a.acsmNumStates → label' t = label t
  matchList : ∀ t, (a'.acsmStateTable t).matchList = (a.acsmStateTable t).matchList
  failState : ∀ t, (a'.acsmStateTable t).failState = (a.acsmStateTable t).failState

/-- The second loop: a state for every longer prefix. -/
theorem addStates_spec : ∀ (w : List Byte) (a : Struct ι) (label : Nat → List Byte) (s : Nat),
    IsTrie a label → s ≤ a.acsmNumStates → a.acsmNumStates + w.length < a.acsmMaxStates →
    (∀ c ∈ w.head?, (a.acsmStateTable s).nextState c = none) →
    ∃ a' s' label', addStates a s w = some (a', s') ∧ IsTrie a' label' ∧ Extends a a' label label' ∧
      s' ≤ a'.acsmNumStates ∧ label' s' = label s ++ w ∧ a'.acsmNumStates = a.acsmNumStates + w.length ∧
      ∀ v, Labelled a' label' v ↔ Labelled a label v ∨ ∃ u, u <+: w ∧ v = label s ++ u := by
  intro w
  induction w with
  | nil =>
    intro a label s ht hs _ _
    refine ⟨a, s, label, rfl, ht, ⟨Nat.le_refl _, rfl, rfl, fun _ _ => rfl, fun _ => rfl, fun _ => rfl⟩, hs,
      (List.append_nil _).symm, rfl, fun v => ?_⟩
    constructor
    · exact Or.inl
    · intro h
      rcases h with h | ⟨u, hu, hv⟩
      · exact h
      · rw [List.prefix_nil.mp hu, List.append_nil] at hv
        exact ⟨s, hs, hv.symm⟩
  | cons c w ih =>
    intro a label s ht hs hroom hhead
    have hnone := hhead c rfl
    rw [List.length_cons] at hroom
    have hs1 : a.acsmNumStates + 1 ≤ (a.addState s c).acsmNumStates := Nat.le_refl _
    have hroom1 : (a.addState s c).acsmNumStates + w.length < (a.addState s c).acsmMaxStates := by
      show a.acsmNumStates + 1 + w.length < a.acsmMaxStates
      omega
    have hhead1 : ∀ d ∈ w.head?, ((a.addState s c).acsmStateTable (a.acsmNumStates + 1)).nextState d = none := by
      intro d _
      have hne : ¬ (a.acsmNumStates + 1 = s ∧ d = c) := by omega
      rw [addState_nextState, if_neg hne, ht.fresh _ (Nat.lt_succ_self _)]
    obtain ⟨a', s', label', hrun, ht', hext, hs', hl, hnum, hwords⟩ :=
      ih (a.addState s c) (newLabel a label s c) (a.acsmNumStates + 1) (ht.addState hs hnone) hs1 hroom1
        hhead1
    refine ⟨a', s', label', ?_, ht', ⟨?_, hext.max, hext.patterns, ?_, ?_, ?_⟩, hs', ?_, ?_,
      fun v => ?_⟩
    · have hput : Struct.put { a with acsmNumStates := a.acsmNumStates + 1 } s { a.acsmStateTable s with
          nextState := Function.update (a.acsmStateTable s).nextState c (some (a.acsmNumStates + 1)) } =
          some (a.addState s c) := if_pos (show s < a.acsmMaxStates by omega)
      simp only [addStates, Struct.entry_lt (show s < a.acsmMaxStates by omega), Option.bind_eq_bind,
        Option.bind_some, hput, hrun]
    · exact Nat.le_trans (Nat.le_succ _) hext.num
    · intro t htn
      exact (hext.label t (Nat.le_succ_of_le htn)).trans (newLabel_old htn)
    · intro t
      rw [hext.matchList, addState_matchList]
    · intro t
      rw [hext.failState, addState_failState]
    · rw [hl, newLabel_new, List.append_assoc]
      rfl
    · rw [hnum, List.length_cons]
      show a.acsmNumStates + 1 + w.length = _
      omega
    · rw [hwords, labelled_addState, newLabel_new]
      constructor
      · intro h
        rcases h with (h | heq) | ⟨u, hu, hv⟩
        · exact Or.inl h
        · exact Or.inr ⟨[c], List.prefix_cons_inj c |>.mpr List.nil_prefix, heq⟩
        · refine Or.inr ⟨c :: u, (List.prefix_cons_inj c).mpr hu, ?_⟩
          rw [hv, List.append_assoc]
          rfl
      · intro h
        rcases h with h | ⟨u, hu, hv⟩
        · exact Or.inl (Or.inl h)
        · rcases List.prefix_cons_iff.mp hu with rfl | ⟨u', rfl, hu'⟩
          · exact Or.inl (Or.inl ⟨s, hs, by rw [hv, List.append_nil]⟩)
          · refine Or.inr ⟨u', hu', ?_⟩
            rw [hv, List.append_assoc]
            rfl

/-! ## A pattern -/

/-- The prefixes of a word put together from two parts. -/
theorem prefix_append_iff {v u w : List Byte} : v <+: u ++ w ↔ v <+: u ∨ ∃ t, t <+: w ∧ v = u ++ t := by
  constructor
  · intro h
    rcases List.prefix_or_prefix_of_prefix h (List.prefix_append u w) with hv | ⟨t, rfl⟩
    · exact Or.inl hv
    · exact Or.inr ⟨t, (List.prefix_append_right_inj u).mp h, rfl⟩
  · intro h
    rcases h with hv | ⟨t, ht, rfl⟩
    · exact hv.trans (List.prefix_append u w)
    · exact (List.prefix_append_right_inj u).mpr ht

theorem word_cons {ps : List (Pattern ι)} {p : Pattern ι} {w : List Byte} :
    Word (p :: ps) w ↔ Word ps w ∨ w <+: p.patrn := by
  rw [Word, List.exists_mem_cons_iff, Word, or_assoc, or_comm (a := w <+: p.patrn)]

theorem word_front {ps : List (Pattern ι)} {v w : List Byte} (hw : Word ps w) (h : v <+: w) : Word ps v := by
  rcases hw with rfl | ⟨p, hp, hpre⟩
  · exact Or.inl (List.prefix_nil.mp h)
  · exact Or.inr ⟨p, hp, h.trans hpre⟩

/-- No earlier pattern is the word of a new state. -/
theorem TrieOf.own_extends {ps : List (Pattern ι)} {a' : Struct ι} {label' : Nat → List Byte}
    (h : TrieOf ps a label) (ht : IsTrie a' label') (hext : Extends a a' label label') {t : Nat}
    (htn : t ≤ a'.acsmNumStates) :
    (a'.acsmStateTable t).matchList = ps.filter fun p => p.patrn = label' t := by
  rw [hext.matchList]
  rcases Nat.lt_or_ge a.acsmNumStates t with hlt | hle
  · rw [(h.own t).2 hlt]
    symm
    apply List.filter_eq_nil_iff.mpr
    intro q hq heq
    obtain ⟨t0, ht0, hl0⟩ := (h.words q.patrn).mpr (Or.inr ⟨q, hq, List.prefix_refl _⟩)
    have hsame := ht.inj t0 (Nat.le_trans ht0 hext.num) t htn
      ((hext.label t0 ht0).trans (hl0.trans (of_decide_eq_true heq)))
    omega
  · rw [(h.own t).1 hle, hext.label t hle]

/-- A pattern more in the tree, and in the match list of its state. -/
theorem addPatternStates_spec {ps : List (Pattern ι)} (h : TrieOf ps a label) (p : Pattern ι)
    (hroom : ((p :: ps).map fun q => q.n).sum < a.acsmMaxStates) :
    ∃ a' label', addPatternStates a p = some a' ∧ TrieOf (p :: ps) a' label' ∧
      a'.acsmMaxStates = a.acsmMaxStates ∧ a'.acsmPatterns = a.acsmPatterns := by
  have hsize := h.size
  rw [List.map_cons, List.sum_cons] at hroom
  obtain ⟨s, u, w, hfollow, hs, hpat, hlabel, hhead⟩ :=
    matchStates_spec h.toIsTrie (by omega) p.patrn 0 (Nat.zero_le _)
  have hlen : u.length + w.length = p.n := by
    rw [← p.patrn_length, hpat, List.length_append]
  rw [h.root, List.nil_append] at hlabel
  obtain ⟨a1, s1, label1, hadd, ht1, hext, hs1, hl1, hnum, hwords⟩ :=
    addStates_spec w a label s h.toIsTrie hs (by omega) hhead
  rw [hlabel, ← hpat] at hl1
  have hmax : s1 < a1.acsmMaxStates := by
    rw [hext.max]
    omega
  let e := a1.acsmStateTable s1
  let a2 : Struct ι := a1.set s1 { e with matchList := p :: e.matchList }
  have hnext : ∀ t, (a2.acsmStateTable t).nextState = (a1.acsmStateTable t).nextState := by
    intro t
    by_cases hts : t = s1
    · rw [hts, Struct.set_same]
    · rw [Struct.set_other hts]
  have hwords' : ∀ v, Labelled a1 label1 v ↔ Word (p :: ps) v := by
    intro v
    rw [hwords, h.words, word_cons, hpat, prefix_append_iff, hlabel]
    constructor
    · intro hv
      rcases hv with hv | hv
      · exact Or.inl hv
      · exact Or.inr (Or.inr hv)
    · intro hv
      rcases hv with hv | hv | hv
      · exact Or.inl hv
      · exact Or.inl (word_front ((h.words u).mp ⟨s, hs, hlabel⟩) hv)
      · exact Or.inr hv
  refine ⟨a2, label1, ?_, ⟨⟨ht1.root, ht1.inj, ?_, ht1.closed, ?_, ht1.depth_le⟩, hwords', ?_, ?_, ?_⟩,
    hext.max, hext.patterns⟩
  · simp only [addPatternStates, hfollow, hadd, addMatchListEntry, Struct.entry_lt hmax, Option.bind_eq_bind,
      Option.bind_some]
    exact Struct.put_lt hmax
  · intro t htn c t'
    rw [hnext]
    exact ht1.next_iff t htn c t'
  · intro t htn
    rw [hnext]
    exact ht1.fresh t htn
  · intro t
    by_cases hts : t = s1
    · subst hts
      refine ⟨fun _ => ?_, fun hlt => absurd hs1 (Nat.not_le.mpr hlt)⟩
      rw [Struct.set_same]
      show p :: (a1.acsmStateTable t).matchList = _
      rw [h.own_extends ht1 hext hs1]
      have hcons : (p :: ps).filter (fun q => decide (q.patrn = label1 t)) =
          p :: ps.filter fun q => decide (q.patrn = label1 t) :=
        List.filter_cons_of_pos (decide_eq_true hl1.symm)
      exact hcons.symm
    · rw [Struct.set_other hts]
      refine ⟨fun htn => ?_, fun hlt => ?_⟩
      · have hne : ¬ (decide (p.patrn = label1 t)) = true := by
          intro heq
          exact hts (ht1.inj t htn s1 hs1 ((of_decide_eq_true heq).symm.trans hl1.symm))
        rw [h.own_extends ht1 hext htn]
        have hcons : (p :: ps).filter (fun q => decide (q.patrn = label1 t)) =
            ps.filter fun q => decide (q.patrn = label1 t) := List.filter_cons_of_neg hne
        exact hcons.symm
      · rw [hext.matchList]
        exact (h.own t).2 (Nat.lt_of_le_of_lt hext.num hlt)
  · intro t
    have hfail : (a2.acsmStateTable t).failState = (a1.acsmStateTable t).failState := by
      by_cases hts : t = s1
      · rw [hts, Struct.set_same]
      · rw [Struct.set_other hts]
    rw [hfail, hext.failState]
    exact h.fail t
  · show a1.acsmNumStates ≤ _
    rw [List.map_cons, List.sum_cons, hnum]
    omega

/-! ## All the patterns -/

/-- The table `acsmCompile` starts with. -/
theorem trieOf_nil {max : Nat} {qs : List (Pattern ι)} :
    TrieOf [] { acsmMaxStates := max, acsmNumStates := 0, acsmPatterns := qs } fun _ => [] where
  root := rfl
  inj s hs t ht _ := (Nat.le_zero.mp hs).trans (Nat.le_zero.mp ht).symm
  next_iff s _ c t := by
    constructor
    · intro h
      cases h
    · intro h
      exact absurd h.2.symm (List.append_ne_nil_of_right_ne_nil _ (List.cons_ne_nil c []))
  closed t _ w c h := absurd h.symm (List.append_ne_nil_of_right_ne_nil w (List.cons_ne_nil c []))
  fresh _ _ := rfl
  depth_le _ _ := Nat.zero_le _
  words w := by
    constructor
    · intro h
      obtain ⟨_, _, hl⟩ := h
      exact Or.inl hl.symm
    · intro h
      rcases h with rfl | ⟨p, hp, _⟩
      · exact ⟨0, Nat.le_refl _, rfl⟩
      · cases hp
  own _ := ⟨fun _ => rfl, fun _ => rfl⟩
  fail _ := rfl
  size := Nat.le_refl _

theorem addPatterns_spec : ∀ (qs ps : List (Pattern ι)) (a : Struct ι) (label : Nat → List Byte),
    TrieOf ps a label → ((qs.map fun q => q.n).sum + (ps.map fun q => q.n).sum) < a.acsmMaxStates →
    ∃ a' label', qs.foldlM addPatternStates a = some a' ∧ TrieOf (qs.reverse ++ ps) a' label' ∧
      a'.acsmMaxStates = a.acsmMaxStates ∧ a'.acsmPatterns = a.acsmPatterns := by
  intro qs
  induction qs with
  | nil => exact fun ps a label h _ => ⟨a, label, rfl, h, rfl, rfl⟩
  | cons q qs ih =>
    intro ps a label h hroom
    rw [List.map_cons, List.sum_cons] at hroom
    have hroom1 : ((q :: ps).map fun p => p.n).sum < a.acsmMaxStates := by
      rw [List.map_cons, List.sum_cons]
      omega
    obtain ⟨a1, label1, hadd, h1, hmax1, hpat1⟩ := addPatternStates_spec h q hroom1
    have hroom2 : (qs.map fun p => p.n).sum + ((q :: ps).map fun p => p.n).sum < a1.acsmMaxStates := by
      rw [List.map_cons, List.sum_cons, hmax1]
      omega
    obtain ⟨a', label', hrun, h', hmax', hpat'⟩ := ih (q :: ps) a1 label1 h1 hroom2
    refine ⟨a', label', ?_, ?_, hmax'.trans hmax1, hpat'.trans hpat1⟩
    · rw [List.foldlM_cons, hadd]
      exact hrun
    · rwa [List.reverse_cons, List.append_assoc]

end WafProxy.Acsm
