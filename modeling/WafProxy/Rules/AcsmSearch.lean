import Mathlib.Data.Multiset.Bind
import WafProxy.Rules.AcsmConvert

/-
  Searching with the automaton — acsmSearch

  After a text the automaton is in the state of the longest suffix that is a word,
  so the match list of the state has the patterns the text ends with.

  What is proved:
    1. `StateOf.step` — the state follows the text byte by byte.
    2. `searchStates_spec` — the two loops, as a list of calls of `Match`.
    3. `textCalls_perm`, `textCalls_sorted` — the calls are the occurrences, in the
       order of their ends.
    4. `search_occurrences` — every occurrence of every pattern is reported once.
    5. `search_pieces` — a text in pieces, with the state handed on.
-/

namespace WafProxy.Acsm
open Lib

variable {ι δ : Type} {a : Struct ι} {label : Nat → List Byte} {ps : List (Pattern ι)}

/-! ## States and texts -/

/-- The state the automaton is in after a text (in upper case). -/
def StateOf (ps : List (Pattern ι)) (a : Struct ι) (label : Nat → List Byte) (s : Nat) (u : List Byte) : Prop :=
  s ≤ a.acsmNumStates ∧ label s = longestSuffix (Word ps) u

theorem stateOf_root (h : IsAutomaton ps a label) : StateOf ps a label 0 [] :=
  ⟨Nat.zero_le _, h.root⟩

theorem StateOf.step (h : IsAutomaton ps a label) {s : Nat} {u : List Byte} (hs : StateOf ps a label s u)
    (c : Byte) : ∃ t, (a.acsmStateTable s).nextState c = some t ∧ StateOf ps a label t (u ++ [c]) := by
  obtain ⟨t, hnext, ht, hl⟩ := h.next s hs.1 c
  refine ⟨t, hnext, ht, ?_⟩
  rw [hl, hs.2, ← longestSuffix_concat (word_prefixClosed ps)]

/-- The match list of a state has the patterns the text ends with. -/
theorem StateOf.matchList (h : IsAutomaton ps a label) {s : Nat} {u : List Byte} (hs : StateOf ps a label s u) :
    (a.acsmStateTable s).matchList.Perm (endings ps u) := by
  have hsame : endings ps (label s) = endings ps u := by
    apply List.filter_congr
    intro p hp
    rw [hs.2]
    exact decide_eq_decide.mpr (suffix_iff_longestSuffix (Or.inr ⟨p, hp, List.prefix_refl _⟩)).symm
  exact hsame ▸ h.lists s hs.1

/-- The state after some more text. -/
def afterText (a : Struct ι) : Nat → List Byte → Nat
  | s, [] => s
  | s, c :: T =>
    match (a.acsmStateTable s).nextState c with
    | none => s
    | some t => afterText a t T

theorem StateOf.after (h : IsAutomaton ps a label) : ∀ (T : List Byte) {s : Nat} {u : List Byte},
    StateOf ps a label s u → StateOf ps a label (afterText a s T) (u ++ T) := by
  intro T
  induction T with
  | nil => exact fun {s u} hs => (List.append_nil u).symm ▸ hs
  | cons c T ih =>
    intro s u hs
    obtain ⟨t, hnext, ht⟩ := hs.step h c
    have hrest := ih ht
    rw [List.append_assoc] at hrest
    rw [afterText, hnext]
    exact hrest

/-! ## The calls of Match -/

/-- Calls, one after the other, until one of them ends the search. -/
def runCalls (hook : ι → Int → δ → Int × δ) : List (Pattern ι × Int) → Found δ → Found δ
  | [], f => f
  | call :: calls, f =>
    let f := callMatch hook call.1 call.2 f
    if f.stop then f else runCalls hook calls f

/-- The calls for the byte at `pos`, with this match list. -/
def listCalls (Tx : List Byte) (pos : Nat) (l : List (Pattern ι)) : List (Pattern ι × Int) :=
  (l.filter fun p => p.nocase ≠ 0 ∨ (Tx.drop (pos + 1 - p.n)).take p.n = p.casepatrn).map
    fun p => (p, (pos : Int) + 1 - p.n)

/-- The calls for what is left of the text. -/
def textCalls (a : Struct ι) (Tx : List Byte) : Nat → Nat → List Byte → List (Pattern ι × Int)
  | _, _, [] => []
  | pos, state, c :: T =>
    match (a.acsmStateTable state).nextState c with
    | none => []
    | some t => listCalls Tx pos (a.acsmStateTable t).matchList ++ textCalls a Tx (pos + 1) t T

section
variable (hook : ι → Int → δ → Int × δ)

theorem runCalls_append (xs ys : List (Pattern ι × Int)) (f : Found δ) (hf : f.stop = false) :
    runCalls hook (xs ++ ys) f =
      if (runCalls hook xs f).stop then runCalls hook xs f else runCalls hook ys (runCalls hook xs f) := by
  induction xs generalizing f with
  | nil => simp [runCalls, hf]
  | cons x xs ih =>
    rw [List.cons_append, runCalls, runCalls]
    by_cases hstop : (callMatch hook x.1 x.2 f).stop = true
    · simp [hstop]
    · simp only [hstop]
      exact ih _ (Bool.not_eq_true _ ▸ hstop)

/-- The inner `for`, when no comparison reads in front of the text. -/
theorem searchList_spec (Tx : List Byte) {pos : Nat} : ∀ (l : List (Pattern ι)) (f : Found δ),
    (∀ p ∈ l, p.nocase ≠ 0 ∨ p.n ≤ pos + 1) → f.stop = false →
    searchList hook Tx pos l f = some (runCalls hook (listCalls Tx pos l) f) := by
  intro l
  induction l with
  | nil => exact fun _ _ _ => rfl
  | cons p l ih =>
    intro f hin hf
    have hin' := fun q hq => hin q (List.mem_cons_of_mem p hq)
    rw [searchList]
    by_cases hcase : p.nocase ≠ 0
    · have hcalls : listCalls Tx pos (p :: l) = (p, (pos : Int) + 1 - p.n) :: listCalls Tx pos l := by
        simp [listCalls, hcase]
      rw [if_pos hcase, hcalls, runCalls]
      by_cases hstop : (callMatch hook p ((pos : Int) + 1 - p.n) f).stop = true
      · simp [hstop]
      · simp only [hstop]
        exact ih _ hin' (Bool.not_eq_true _ ▸ hstop)
    · have hle : p.n ≤ pos + 1 := (hin p List.mem_cons_self).resolve_left hcase
      have hindex : ¬ ((pos : Int) + 1 - p.n < 0) := by omega
      have hnat : ((pos : Int) + 1 - p.n).toNat = pos + 1 - p.n := by omega
      rw [if_neg hcase, if_neg hindex, hnat]
      by_cases heq : (Tx.drop (pos + 1 - p.n)).take p.n = p.casepatrn
      · have hcalls : listCalls Tx pos (p :: l) = (p, (pos : Int) + 1 - p.n) :: listCalls Tx pos l := by
          simp [listCalls, heq]
        rw [if_pos heq, hcalls, runCalls]
        by_cases hstop : (callMatch hook p ((pos : Int) + 1 - p.n) f).stop = true
        · simp [hstop]
        · simp only [hstop]
          exact ih _ hin' (Bool.not_eq_true _ ▸ hstop)
      · have hcalls : listCalls Tx pos (p :: l) = listCalls Tx pos l := by
          simp [listCalls, heq, not_not.mp hcase]
        rw [if_neg heq, hcalls]
        exact ih f hin' hf

/-- **The two loops**: the calls for the text, and the state of the text that was read. -/
theorem searchStates_spec (h : IsAutomaton ps a label) {u : List Byte} (Tx : List Byte)
    (hcase : u = [] ∨ ∀ p ∈ ps, p.nocase ≠ 0) : ∀ (T : List Byte) (pos state : Nat) (f : Found δ),
    (convertCaseEx Tx).drop pos = T → StateOf ps a label state (u ++ (convertCaseEx Tx).take pos) →
    f.stop = false → ∃ s, searchStates hook a Tx pos state T f =
      some (s, runCalls hook (textCalls a Tx pos state T) f) ∧
      ((runCalls hook (textCalls a Tx pos state T) f).stop = false → s = afterText a state T) := by
  intro T
  induction T with
  | nil => exact fun pos state f _ _ _ => ⟨state, rfl, fun _ => rfl⟩
  | cons c T ih =>
    intro pos state f hT hs hf
    have hin : ∀ t, t ≤ a.acsmNumStates → t < a.acsmMaxStates := fun t ht => Nat.lt_of_le_of_lt ht h.bound
    obtain ⟨t, hnext, ht⟩ := hs.step h c
    have hpos : (convertCaseEx Tx).take (pos + 1) = (convertCaseEx Tx).take pos ++ [c] := by
      have hget : (convertCaseEx Tx)[pos]? = some c := by
        rw [← List.head?_drop, hT]
        rfl
      rw [List.take_add_one, hget, Option.toList_some]
    rw [List.append_assoc, ← hpos] at ht
    have hinside : ∀ p ∈ (a.acsmStateTable t).matchList, p.nocase ≠ 0 ∨ p.n ≤ pos + 1 := by
      intro p hp
      obtain ⟨hps, hsuf⟩ := List.mem_filter.mp ((ht.matchList h).mem_iff.mp hp)
      rcases hcase with hu | hall
      · have hle := (of_decide_eq_true hsuf).length_le
        rw [hu, List.nil_append, p.patrn_length, List.length_take] at hle
        exact Or.inr (Nat.le_trans hle (Nat.min_le_left _ _))
      · exact Or.inl (hall p hps)
    have hlist := searchList_spec hook Tx _ f hinside hf
    rw [textCalls, afterText, hnext]
    simp only [searchStates, Struct.entry_lt (hin state hs.1), Option.bind_eq_bind, Option.bind_some, hnext,
      Struct.entry_lt (hin t ht.1), hlist]
    rw [runCalls_append hook _ _ f hf]
    by_cases hstop : (runCalls hook (listCalls Tx pos (a.acsmStateTable t).matchList) f).stop = true
    · exact ⟨t, by simp [hstop], by simp [hstop]⟩
    · simp only [hstop]
      have hT' : (convertCaseEx Tx).drop (pos + 1) = T := by
        rw [← List.drop_drop, hT]
        rfl
      exact ih (pos + 1) t _ hT' ht (Bool.not_eq_true _ ▸ hstop)

end

/-! ## Calls and occurrences -/

theorem listCalls_perm {Tx : List Byte} {pos : Nat} {l l' : List (Pattern ι)} (h : l.Perm l') :
    (listCalls Tx pos l).Perm (listCalls Tx pos l') :=
  (h.filter _).map _

/-- The calls for the text: for every byte, the patterns the text ends with there. -/
theorem textCalls_perm (h : IsAutomaton ps a label) {u : List Byte} (Tx : List Byte) :
    ∀ (T : List Byte) (pos state : Nat),
    (convertCaseEx Tx).drop pos = T → StateOf ps a label state (u ++ (convertCaseEx Tx).take pos) →
    (textCalls a Tx pos state T).Perm ((List.range' pos T.length).flatMap fun k =>
      listCalls Tx k (endings ps (u ++ (convertCaseEx Tx).take (k + 1)))) := by
  intro T
  induction T with
  | nil => exact fun _ _ _ _ => List.Perm.refl _
  | cons c T ih =>
    intro pos state hT hs
    obtain ⟨t, hnext, ht⟩ := hs.step h c
    have hget : (convertCaseEx Tx)[pos]? = some c := by
      rw [← List.head?_drop, hT]
      rfl
    have hpos : (convertCaseEx Tx).take (pos + 1) = (convertCaseEx Tx).take pos ++ [c] := by
      rw [List.take_add_one, hget, Option.toList_some]
    have hT' : (convertCaseEx Tx).drop (pos + 1) = T := by
      rw [← List.drop_drop, hT]
      rfl
    rw [List.append_assoc, ← hpos] at ht
    rw [textCalls, hnext, List.length_cons, List.range'_succ, List.flatMap_cons]
    exact (listCalls_perm (ht.matchList h)).append (ih (pos + 1) t hT' ht)

/-- Behind the last byte of the occurrence a call is for. -/
def callEnd (call : Pattern ι × Int) : Int := call.2 + call.1.n

theorem mem_listCalls {Tx : List Byte} {pos : Nat} {l : List (Pattern ι)} {call : Pattern ι × Int}
    (h : call ∈ listCalls Tx pos l) : call.1 ∈ l ∧ callEnd call = pos + 1 := by
  obtain ⟨p, hp, rfl⟩ := List.mem_map.mp h
  refine ⟨(List.mem_filter.mp hp).1, ?_⟩
  show (pos : Int) + 1 - p.n + p.n = pos + 1
  omega

/-- The calls come in the order of the ends of the occurrences. -/
theorem textCalls_sorted {Tx : List Byte} : ∀ (T : List Byte) (pos state : Nat),
    (textCalls a Tx pos state T).Pairwise (fun x y => callEnd x ≤ callEnd y) ∧
      ∀ call ∈ textCalls a Tx pos state T, (pos : Int) < callEnd call := by
  intro T
  induction T with
  | nil => exact fun _ _ => ⟨List.Pairwise.nil, fun _ hmem => absurd hmem List.not_mem_nil⟩
  | cons c T ih =>
    intro pos state
    rw [textCalls]
    cases (a.acsmStateTable state).nextState c with
    | none => exact ⟨List.Pairwise.nil, fun _ hmem => absurd hmem List.not_mem_nil⟩
    | some t =>
      dsimp only
      obtain ⟨hsorted, hafter⟩ := ih (pos + 1) t
      constructor
      · apply List.pairwise_append.mpr
        refine ⟨List.pairwise_iff_forall_sublist.mpr fun hsub => ?_, hsorted, fun x hx y hy => ?_⟩
        · have hx := (mem_listCalls (hsub.subset List.mem_cons_self)).2
          have hy := (mem_listCalls (hsub.subset (List.mem_cons_of_mem _ List.mem_cons_self))).2
          exact Int.le_of_eq (hx.trans hy.symm)
        · have hx' := (mem_listCalls hx).2
          have hy' := hafter y hy
          omega
      · intro call hmem
        rcases List.mem_append.mp hmem with hmem | hmem
        · have hend := (mem_listCalls hmem).2
          omega
        · have hend := hafter call hmem
          omega

/-- A pattern stands at a place of a text. -/
def StandsAt (p : Pattern ι) (Tx : List Byte) (i : Nat) : Prop :=
  i + p.n ≤ Tx.length ∧
    if p.nocase ≠ 0 then convertCaseEx ((Tx.drop i).take p.n) = p.patrn
    else (Tx.drop i).take p.n = p.casepatrn

instance (p : Pattern ι) (Tx : List Byte) (i : Nat) : Decidable (StandsAt p Tx i) :=
  inferInstanceAs (Decidable (i + p.n ≤ Tx.length ∧
    if p.nocase ≠ 0 then convertCaseEx ((Tx.drop i).take p.n) = p.patrn
    else (Tx.drop i).take p.n = p.casepatrn))

/-- Every occurrence of every pattern, once for each time the pattern is registered. -/
def patternOccurrences (ps : List (Pattern ι)) (Tx : List Byte) : List (Pattern ι × Int) :=
  ps.flatMap fun p => ((List.range Tx.length).filter fun i => StandsAt p Tx i).map fun i : Nat => (p, (i : Int))

/-- What is called for a pattern at a byte: it stands there with its last byte. -/
theorem called_iff {p : Pattern ι} {Tx : List Byte} {k : Nat} (hk : k < Tx.length) :
    (p.patrn <:+ (convertCaseEx Tx).take (k + 1) ∧
      (p.nocase ≠ 0 ∨ (Tx.drop (k + 1 - p.n)).take p.n = p.casepatrn)) ↔
    p.n ≤ k + 1 ∧ StandsAt p Tx (k + 1 - p.n) := by
  have hlen : ((convertCaseEx Tx).take (k + 1)).length = k + 1 := by
    rw [List.length_take, convertCaseEx, List.length_map]
    omega
  -- the last bytes of the text so far
  have hslice : p.n ≤ k + 1 → ((convertCaseEx Tx).take (k + 1)).drop (k + 1 - p.n) =
      convertCaseEx ((Tx.drop (k + 1 - p.n)).take p.n) := by
    intro hle
    rw [convertCaseEx, convertCaseEx, List.map_take, List.map_drop, List.drop_take]
    congr 1
    omega
  have hsuffix : p.patrn <:+ (convertCaseEx Tx).take (k + 1) ↔
      p.n ≤ k + 1 ∧ convertCaseEx ((Tx.drop (k + 1 - p.n)).take p.n) = p.patrn := by
    rw [List.suffix_iff_eq_drop, hlen, p.patrn_length]
    constructor
    · intro heq
      have hle : p.n ≤ k + 1 := by
        have hl := congrArg List.length heq
        rw [p.patrn_length, List.length_drop, hlen] at hl
        omega
      exact ⟨hle, (hslice hle).symm.trans heq.symm⟩
    · intro h
      exact ((hslice h.1).trans h.2).symm
  rw [hsuffix, StandsAt]
  by_cases hcase : p.nocase ≠ 0
  · rw [if_pos hcase]
    constructor
    · intro h
      obtain ⟨⟨hle, heq⟩, _⟩ := h
      exact ⟨hle, by omega, heq⟩
    · intro h
      exact ⟨⟨h.1, h.2.2⟩, Or.inl hcase⟩
  · rw [if_neg hcase]
    constructor
    · intro h
      obtain ⟨⟨hle, _⟩, hor⟩ := h
      exact ⟨hle, by omega, hor.resolve_left hcase⟩
    · intro h
      obtain ⟨hle, _, heq⟩ := h
      refine ⟨⟨hle, ?_⟩, Or.inr heq⟩
      rw [heq, p.upper]

/-- The places where a pattern ends, and those where it begins. -/
theorem ends_perm_begins {p : Pattern ι} (hne : p.patrn ≠ []) (Tx : List Byte) :
    ((List.range Tx.length).filter fun k => p.n ≤ k + 1 ∧ StandsAt p Tx (k + 1 - p.n)).map
      (fun k : Nat => (p, (k : Int) + 1 - p.n)) |>.Perm
    (((List.range Tx.length).filter fun i => StandsAt p Tx i).map fun i : Nat => (p, (i : Int))) := by
  have hpos : 0 < p.n := by
    rw [← p.patrn_length]
    exact List.length_pos_iff.mpr hne
  apply (List.perm_ext_iff_of_nodup ?_ ?_).mpr
  · intro call
    simp only [List.mem_map, List.mem_filter, List.mem_range, decide_eq_true_eq]
    constructor
    · intro h
      obtain ⟨k, ⟨_, hle, hs⟩, rfl⟩ := h
      have hend := hs.1
      refine ⟨k + 1 - p.n, ⟨by omega, hs⟩, ?_⟩
      exact congrArg (Prod.mk p) (by omega)
    · intro h
      obtain ⟨i, ⟨_, hs⟩, rfl⟩ := h
      have hend := hs.1
      have hback : i + p.n - 1 + 1 - p.n = i := by omega
      refine ⟨i + p.n - 1, ⟨by omega, by omega, hback.symm ▸ hs⟩, ?_⟩
      exact congrArg (Prod.mk p) (by omega)
  · apply List.Nodup.map _ (List.nodup_range.filter _)
    intro k k' heq
    have hsnd := congrArg Prod.snd heq
    dsimp only at hsnd
    omega
  · apply List.Nodup.map _ (List.nodup_range.filter _)
    intro i i' heq
    exact Int.ofNat.inj (congrArg Prod.snd heq)

theorem filter_map_eq_flatMap {α β : Type} (l : List α) (q : α → Bool) (f : α → β) :
    (l.filter q).map f = l.flatMap fun x => if q x then [f x] else [] := by
  induction l with
  | nil => rfl
  | cons x l ih =>
    rw [List.flatMap_cons, ← ih]
    cases hq : q x with
    | true => rw [List.filter_cons_of_pos hq, if_pos rfl]; rfl
    | false => rw [List.filter_cons_of_neg (Bool.eq_false_iff.mp hq)]; rfl

/-- Two loops, one inside the other, in either order. -/
theorem flatMap_comm_perm {α β γ : Type} (l : List α) (m : List β) (f : α → β → List γ) :
    (l.flatMap fun x => m.flatMap fun y => f x y).Perm (m.flatMap fun y => l.flatMap fun x => f x y) := by
  apply Multiset.coe_eq_coe.mp
  simp only [← Multiset.coe_bind]
  exact Multiset.bind_bind _ _

/-- **The calls of the search are the occurrences.** -/
theorem textCalls_occurrences (h : IsAutomaton ps a label) (hne : ∀ p ∈ ps, p.patrn ≠ []) (Tx : List Byte) :
    (textCalls a Tx 0 0 (convertCaseEx Tx)).Perm (patternOccurrences ps Tx) := by
  have hlen : (convertCaseEx Tx).length = Tx.length := List.length_map _
  have hcalls := textCalls_perm h (u := []) Tx (convertCaseEx Tx) 0 0 rfl (stateOf_root h)
  rw [hlen, ← List.range_eq_range'] at hcalls
  have hbyte : ∀ k ∈ List.range Tx.length, listCalls Tx k (endings ps ([] ++ (convertCaseEx Tx).take (k + 1))) =
      ps.flatMap fun p => if decide (p.n ≤ k + 1 ∧ StandsAt p Tx (k + 1 - p.n)) then
        [(p, (k : Int) + 1 - p.n)] else [] := by
    intro k hk
    rw [← filter_map_eq_flatMap, listCalls, endings, List.filter_filter, List.nil_append]
    congr 1
    apply List.filter_congr
    intro p _
    rw [← Bool.decide_and]
    exact decide_eq_decide.mpr (and_comm.trans (called_iff (List.mem_range.mp hk)))
  have hpattern : ∀ p ∈ ps, ((List.range Tx.length).flatMap fun k =>
      if decide (p.n ≤ k + 1 ∧ StandsAt p Tx (k + 1 - p.n)) then [(p, (k : Int) + 1 - p.n)] else []).Perm
      (((List.range Tx.length).filter fun i => StandsAt p Tx i).map fun i : Nat => (p, (i : Int))) := by
    intro p hp
    rw [← filter_map_eq_flatMap]
    exact ends_perm_begins (hne p hp) Tx
  calc textCalls a Tx 0 0 (convertCaseEx Tx)
      |>.Perm _ := hcalls
    _ |>.Perm _ := List.Perm.flatMap_left _ fun k hk => List.Perm.of_eq (hbyte k hk)
    _ |>.Perm _ := flatMap_comm_perm _ _ _
    _ |>.Perm _ := List.Perm.flatMap_left _ hpattern

/-! ## The search -/

/-- A search from state 0, on a compiled table. -/
theorem acsmSearch_spec (h : IsAutomaton ps a label) {Tx : List Byte} (hlen : Tx.length ≤ TC_SIZE)
    (hook : ι → Int → δ → Int × δ) (data : δ) :
    ∃ s, acsmSearch hook a Tx data (some 0) =
      some ((runCalls hook (textCalls a Tx 0 0 (convertCaseEx Tx)) ⟨0, data, false⟩).nfound,
        (runCalls hook (textCalls a Tx 0 0 (convertCaseEx Tx)) ⟨0, data, false⟩).data, some s) := by
  obtain ⟨s, hrun, _⟩ := searchStates_spec hook h (u := []) Tx (Or.inl rfl) (convertCaseEx Tx) 0 0
    ⟨0, data, false⟩ rfl (stateOf_root h) rfl
  refine ⟨s, ?_⟩
  simp only [acsmSearch, if_neg (Nat.not_lt.mpr hlen), hrun, Option.bind_eq_bind, Option.bind_some]

/-- **Registered patterns are found**: the table compiles inside its bounds, and a search
calls `Match` once for every occurrence of every pattern in the text, in the order of
the ends of the occurrences, until a call ends it. -/
theorem search_occurrences (a : Struct ι) (hsize : STATETABLE_SIZE * maxStates a.acsmPatterns < 2 ^ 31)
    (hne : ∀ p ∈ a.acsmPatterns, p.patrn ≠ []) :
    ∃ a', acsmCompile a = some a' ∧ ∀ Tx : List Byte, Tx.length ≤ TC_SIZE →
      ∃ calls : List (Pattern ι × Int), calls.Perm (patternOccurrences a.acsmPatterns Tx) ∧
        calls.Pairwise (fun x y => callEnd x ≤ callEnd y) ∧
        ∀ (δ : Type) (hook : ι → Int → δ → Int × δ) (data : δ), ∃ s, acsmSearch hook a' Tx data (some 0) =
          some ((runCalls hook calls ⟨0, data, false⟩).nfound,
            (runCalls hook calls ⟨0, data, false⟩).data, some s) := by
  obtain ⟨a', label, hcompile, hauto⟩ := acsmCompile_spec a hsize hne
  refine ⟨a', hcompile, fun Tx hlen => ⟨textCalls a' Tx 0 0 (convertCaseEx Tx), ?_,
    (textCalls_sorted _ 0 0).1, fun δ hook data => acsmSearch_spec hauto hlen hook data⟩⟩
  have hperm := textCalls_occurrences hauto (fun p hp => hne p (List.mem_reverse.mp hp)) Tx
  exact hperm.trans ((List.reverse_perm _).flatMap_right _)

/-- Two patterns, the second of them a suffix of the first. -/
def nestedPatterns : Struct Nat where
  acsmPatterns := [⟨convertCaseEx [97, 98], [97, 98], 2, 1, 0, 0, 0, 0, rfl, rfl⟩,
    ⟨convertCaseEx [98], [98], 1, 0, 0, 0, 1, 1, rfl, rfl⟩]

theorem search_occurrences_nested : ∃ a', acsmCompile nestedPatterns = some a' ∧
    ∃ calls : List (Pattern Nat × Int), calls.Perm (patternOccurrences nestedPatterns.acsmPatterns [120, 65, 98]) ∧
      ∃ s, acsmSearch (fun id i d => (0, (id, i) :: d)) a' [120, 65, 98] [] (some 0) =
        some ((runCalls (fun id i d => (0, (id, i) :: d)) calls ⟨0, [], false⟩).nfound,
          (runCalls (fun id i d => (0, (id, i) :: d)) calls ⟨0, [], false⟩).data, some s) := by
  obtain ⟨a', hcompile, hall⟩ := search_occurrences nestedPatterns (by decide) (by decide)
  obtain ⟨calls, hperm, _, hrun⟩ := hall [120, 65, 98] (by decide)
  exact ⟨a', hcompile, calls, hperm, hrun _ _ _⟩

/-! ## A text in pieces -/

/-- The pieces of a text, one search each, with the state handed on; `off` is where the
next piece begins. -/
def searchPieces (hook : ι → Int → δ → Int × δ) (a : Struct ι) :
    Nat → List (List Byte) → Nat → δ → Option Nat → Option (Nat × δ × Option Nat)
  | _, [], n, data, state => some (n, data, state)
  | off, T :: Ts, n, data, state => do
    let (nfound, data, state) ← acsmSearch (fun id index => hook id (index + off)) a T data state
    searchPieces hook a (off + T.length) Ts (n + nfound) data state

/-- A call with its place moved. -/
def moveCall (off : Nat) (call : Pattern ι × Int) : Pattern ι × Int := (call.1, call.2 + off)

theorem runCalls_never {hook : ι → Int → δ → Int × δ} (hgo : ∀ id i d, (hook id i d).1 ≤ 0) :
    ∀ (calls : List (Pattern ι × Int)) (n : Nat) (d : δ), runCalls hook calls ⟨n, d, false⟩ =
      ⟨n + calls.length, calls.foldl (fun d call => (hook call.1.id call.2 d).2) d, false⟩ := by
  intro calls
  induction calls with
  | nil => exact fun _ _ => rfl
  | cons call calls ih =>
    intro n d
    have hstop : callMatch hook call.1 call.2 ⟨n, d, false⟩ = ⟨n + 1, (hook call.1.id call.2 d).2, false⟩ := by
      have hle : ¬ 0 < (hook call.1.id call.2 d).1 := Int.not_lt.mpr (hgo call.1.id call.2 d)
      exact congrArg (Found.mk _ _) (decide_eq_false hle)
    rw [runCalls, hstop]
    dsimp only
    rw [if_neg Bool.false_ne_true, ih, List.length_cons, List.foldl_cons, Nat.add_right_comm, Nat.add_assoc]

section
variable (h : IsAutomaton ps a label) (hcase : ∀ p ∈ ps, p.nocase ≠ 0)
include h

/-- What is called for two texts, one behind the other. -/
theorem textCalls_append {W : List Byte} : ∀ (X : List Byte) (pos s : Nat) (u Y : List Byte),
    StateOf ps a label s u → textCalls a W pos s (X ++ Y) =
      textCalls a W pos s X ++ textCalls a W (pos + X.length) (afterText a s X) Y := by
  intro X
  induction X with
  | nil => exact fun pos s u Y _ => rfl
  | cons c X ih =>
    intro pos s u Y hs
    obtain ⟨t, hnext, ht⟩ := hs.step h c
    rw [List.cons_append, textCalls, textCalls, afterText, hnext]
    dsimp only
    rw [ih (pos + 1) t (u ++ [c]) Y ht, List.append_assoc, List.length_cons, Nat.add_right_comm, Nat.add_assoc]

include hcase

/-- A text that is searched elsewhere. -/
theorem textCalls_move (W T : List Byte) (off : Nat) : ∀ (X : List Byte) (pos s : Nat) (u : List Byte),
    StateOf ps a label s u →
    textCalls a W (off + pos) s X = (textCalls a T pos s X).map (moveCall off) := by
  intro X
  induction X with
  | nil => exact fun _ _ _ _ => rfl
  | cons c X ih =>
    intro pos s u hs
    obtain ⟨t, hnext, ht⟩ := hs.step h c
    have hall : ∀ p ∈ (a.acsmStateTable t).matchList, p.nocase ≠ 0 := by
      intro p hp
      exact hcase p (List.mem_filter.mp ((ht.matchList h).mem_iff.mp hp)).1
    have hlist : ∀ (V : List Byte) (k : Nat), listCalls V k (a.acsmStateTable t).matchList =
        (a.acsmStateTable t).matchList.map fun p => (p, (k : Int) + 1 - p.n) := by
      intro V k
      rw [listCalls, List.filter_eq_self.mpr fun p hp => decide_eq_true (Or.inl (hall p hp))]
    rw [textCalls, textCalls, hnext]
    dsimp only
    rw [List.map_append, hlist, hlist, Nat.add_assoc, ih (pos + 1) t (u ++ [c]) ht, List.map_map]
    congr 1
    apply List.map_congr_left
    intro p _
    exact congrArg (Prod.mk p) (by push_cast; omega)

/-- The pieces that are left, from the state of what was read. -/
theorem searchPieces_spec {hook : ι → Int → δ → Int × δ} (hgo : ∀ id i d, (hook id i d).1 ≤ 0)
    {W : List Byte} : ∀ (Ts : List (List Byte)) (u : List Byte) (off n s : Nat) (data : δ),
    (∀ T ∈ Ts, T.length ≤ TC_SIZE) → StateOf ps a label s u →
    ∃ s', searchPieces hook a off Ts n data (some s) =
      some (n + (textCalls a W off s (convertCaseEx Ts.flatten)).length,
        (textCalls a W off s (convertCaseEx Ts.flatten)).foldl (fun d call => (hook call.1.id call.2 d).2) data,
        some s') := by
  intro Ts
  induction Ts with
  | nil => exact fun u off n s data _ _ => ⟨s, rfl⟩
  | cons T Ts ih =>
    intro u off n s data hlen hs
    let hook' : ι → Int → δ → Int × δ := fun id index => hook id (index + off)
    obtain ⟨s1, hrun, hall⟩ := searchStates_spec hook' h (u := u) T (Or.inr hcase)
      (convertCaseEx T) 0 s ⟨0, data, false⟩ rfl ((List.append_nil u).symm ▸ hs) rfl
    rw [runCalls_never (fun id i d => hgo id (i + off) d)] at hrun hall
    obtain rfl := hall rfl
    have hsearch : acsmSearch hook' a T data (some s) = some ((textCalls a T 0 s (convertCaseEx T)).length,
        (textCalls a T 0 s (convertCaseEx T)).foldl (fun d call => (hook call.1.id (call.2 + off) d).2) data,
        some (afterText a s (convertCaseEx T))) := by
      simp only [acsmSearch, if_neg (Nat.not_lt.mpr (hlen T List.mem_cons_self)), hrun, Option.bind_eq_bind,
        Option.bind_some, Nat.zero_add]
    obtain ⟨s', hrest⟩ := ih (u ++ convertCaseEx T) (off + T.length)
      (n + (textCalls a T 0 s (convertCaseEx T)).length) _
      ((textCalls a T 0 s (convertCaseEx T)).foldl (fun d call => (hook call.1.id (call.2 + off) d).2) data)
      (fun T' hT' => hlen T' (List.mem_cons_of_mem T hT')) (hs.after h (convertCaseEx T))
    have hcat : convertCaseEx (T :: Ts).flatten = convertCaseEx T ++ convertCaseEx Ts.flatten := List.map_append
    have hmove := textCalls_move h hcase W T off (convertCaseEx T) 0 s u hs
    rw [Nat.add_zero] at hmove
    have hlength : (convertCaseEx T).length = T.length := List.length_map _
    have hcalls : textCalls a W off s (convertCaseEx (T :: Ts).flatten) =
        (textCalls a T 0 s (convertCaseEx T)).map (moveCall off) ++
          textCalls a W (off + T.length) (afterText a s (convertCaseEx T)) (convertCaseEx Ts.flatten) := by
      rw [hcat, textCalls_append h _ off s u _ hs, hmove, hlength]
    refine ⟨s', ?_⟩
    rw [searchPieces]
    show (acsmSearch hook' a T data (some s)).bind _ = _
    rw [hsearch, Option.bind_some]
    refine hrest.trans ?_
    rw [hcalls, List.length_append, List.length_map, List.foldl_append, List.foldl_map, Nat.add_assoc]
    rfl

end

/-- **A text in pieces**: with the state handed on, the searches of the pieces together make
the calls of the whole text, whatever the pieces are: every occurrence is reported once, also
one that lies across pieces. -/
theorem search_pieces (a : Struct ι) (hsize : STATETABLE_SIZE * maxStates a.acsmPatterns < 2 ^ 31)
    (hne : ∀ p ∈ a.acsmPatterns, p.patrn ≠ []) (hcase : ∀ p ∈ a.acsmPatterns, p.nocase ≠ 0) :
    ∃ a', acsmCompile a = some a' ∧ ∀ text : List Byte,
      ∃ calls : List (Pattern ι × Int), calls.Perm (patternOccurrences a.acsmPatterns text) ∧
        calls.Pairwise (fun x y => callEnd x ≤ callEnd y) ∧
        ∀ Ts : List (List Byte), Ts.flatten = text → (∀ T ∈ Ts, T.length ≤ TC_SIZE) →
          ∀ (δ : Type) (hook : ι → Int → δ → Int × δ) (data : δ), (∀ id i d, (hook id i d).1 ≤ 0) →
            ∃ s, searchPieces hook a' 0 Ts 0 data (some 0) = some (calls.length,
              calls.foldl (fun d call => (hook call.1.id call.2 d).2) data, some s) := by
  obtain ⟨a', label, hcompile, hauto⟩ := acsmCompile_spec a hsize hne
  refine ⟨a', hcompile, fun text => ⟨textCalls a' text 0 0 (convertCaseEx text), ?_,
    (textCalls_sorted _ 0 0).1, fun Ts htext hlen δ hook data hgo => ?_⟩⟩
  · have hperm := textCalls_occurrences hauto (fun p hp => hne p (List.mem_reverse.mp hp)) text
    exact hperm.trans ((List.reverse_perm _).flatMap_right _)
  · subst htext
    obtain ⟨s, hrun⟩ := searchPieces_spec hauto (fun p hp => hcase p (List.mem_reverse.mp hp)) hgo
      (W := Ts.flatten) Ts [] 0 0 0 data hlen (stateOf_root hauto)
    rw [Nat.zero_add] at hrun
    exact ⟨s, hrun⟩

/-- A pattern that lies across two pieces. -/
def splitPattern : Struct Nat where
  acsmPatterns := [⟨convertCaseEx [97, 98], [97, 98], 2, 1, 0, 0, 0, 0, rfl, rfl⟩]

/-- It is reported with the text in two pieces, and with the whole text, by the same calls. -/
theorem search_pieces_split : ∃ a', acsmCompile splitPattern = some a' ∧
    ∃ calls : List (Pattern Nat × Int), calls.Perm (patternOccurrences splitPattern.acsmPatterns [120, 65, 98]) ∧
      ∀ Ts ∈ [[[120, 65], [98]], [[120, 65, 98]]],
        ∃ s, searchPieces (fun id i d => (0, (id, i) :: d)) a' 0 Ts 0 [] (some 0) =
          some (calls.length, calls.foldl (fun d call => (call.1.id, call.2) :: d) [], some s) := by
  obtain ⟨a', hcompile, hall⟩ := search_pieces splitPattern (by decide) (by decide) (by decide)
  obtain ⟨calls, hperm, _, hrun⟩ := hall [120, 65, 98]
  refine ⟨a', hcompile, calls, hperm, fun Ts hTs => ?_⟩
  rcases List.mem_cons.mp hTs with rfl | hTs
  · exact hrun _ rfl (by decide) _ _ _ fun _ _ _ => Int.le_refl 0
  · rw [List.mem_singleton.mp hTs]
    exact hrun _ rfl (by decide) _ _ _ fun _ _ _ => Int.le_refl 0

end WafProxy.Acsm
