import WafProxy.Rules.AcsmBuild

/-
  The automaton — Convert_NFA_To_DFA and acsmCompile

  Where a state has no transition, it gets that of its failure state, which is done
  before it.

  What is proved:
    1. `convertBytes_spec` — one state.
    2. `convertNFAToDFA_spec` — every transition leads to the longest suffix.
    3. `acsmCompile_spec` — the compiled table is an automaton for the patterns.
-/

namespace WafProxy.Acsm
open Lib

variable {ι : Type} {a₀ a : Struct ι} {label : Nat → List Byte} {ps : List (Pattern ι)}

/-! ## One state -/

/-- A row, with the row of the failure state where it is empty. -/
def mergeRow (next fail : Byte → Option Nat) (done : List Byte) (c : Byte) : Option Nat :=
  if c ∈ done then (next c).or (fail c) else next c

theorem convertByte_spec {r f : Nat} (hr : r < a.acsmMaxStates) (hf : (a.acsmStateTable r).failState = f)
    (hfm : f < a.acsmMaxStates) (c : Byte) (q : List Nat) :
    convertByte r (a, q) c = some (a.setRow r (mergeRow (a.acsmStateTable r).nextState
      (a.acsmStateTable f).nextState [c]), q ++ ((a.acsmStateTable r).nextState c).toList) := by
  have hmerge : mergeRow (a.acsmStateTable r).nextState (a.acsmStateTable f).nextState [c] =
      Function.update (a.acsmStateTable r).nextState c
        (((a.acsmStateTable r).nextState c).or ((a.acsmStateTable f).nextState c)) := by
    funext d
    by_cases hd : d = c
    · rw [hd, Function.update_self, mergeRow, if_pos (List.mem_singleton.mpr rfl)]
    · rw [Function.update_of_ne hd, mergeRow, if_neg (fun hm => hd (List.mem_singleton.mp hm))]
  subst hf
  rw [hmerge]
  cases hnext : (a.acsmStateTable r).nextState c with
  | some s =>
    have hself : Function.update (a.acsmStateTable r).nextState c (some s) = (a.acsmStateTable r).nextState := by
      rw [← hnext, Function.update_eq_self]
    simp only [convertByte, Struct.entry_lt hr, Option.bind_eq_bind, Option.bind_some, hnext, Option.some_or,
      hself, setRow_self, Option.toList_some]
  | none =>
    simp only [convertByte, Struct.entry_lt hr, Option.bind_eq_bind, Option.bind_some, hnext,
      Struct.entry_lt hfm, put_setRow hr, Option.none_or, Option.toList_none, List.append_nil]

theorem convertBytes_spec {r f : Nat} (hrf : f ≠ r) : ∀ (l : List Byte) (a : Struct ι) (q : List Nat),
    l.Nodup → r < a.acsmMaxStates → (a.acsmStateTable r).failState = f → f < a.acsmMaxStates →
    l.foldlM (convertByte r) (a, q) = some (a.setRow r (mergeRow (a.acsmStateTable r).nextState
      (a.acsmStateTable f).nextState l), q ++ l.filterMap (a.acsmStateTable r).nextState) := by
  intro l
  induction l with
  | nil =>
    intro a q _ _ _ _
    have hself : mergeRow (a.acsmStateTable r).nextState (a.acsmStateTable f).nextState [] =
        (a.acsmStateTable r).nextState := funext fun c => if_neg List.not_mem_nil
    rw [hself, setRow_self, List.filterMap_nil, List.append_nil]
    rfl
  | cons c l ih =>
    intro a q hnd hr hf hfm
    obtain ⟨hc, hnd⟩ := List.nodup_cons.mp hnd
    rw [List.foldlM_cons, convertByte_spec hr hf hfm, Option.bind_eq_bind, Option.bind_some,
      ih (a.setRow r _) _ hnd hr (by rw [setRow_failState, hf]) hfm, setRow_setRow, setRow_nextState,
      if_pos rfl, setRow_nextState, if_neg hrf, List.append_assoc]
    -- the bytes that follow have not been looked at
    have hlater : ∀ d ∈ l, mergeRow (a.acsmStateTable r).nextState (a.acsmStateTable f).nextState [c] d =
        (a.acsmStateTable r).nextState d := by
      intro d hd
      have hne : d ∉ [c] := fun hm => hc (List.mem_singleton.mp hm ▸ hd)
      exact if_neg hne
    have hqueue : ((a.acsmStateTable r).nextState c).toList ++
        l.filterMap (mergeRow (a.acsmStateTable r).nextState (a.acsmStateTable f).nextState [c]) =
        (c :: l).filterMap (a.acsmStateTable r).nextState := by
      rw [List.filterMap_congr hlater]
      cases hnext : (a.acsmStateTable r).nextState c with
      | none => rw [List.filterMap_cons_none hnext]; rfl
      | some s => rw [List.filterMap_cons_some hnext]; rfl
    have hmerge : mergeRow (mergeRow (a.acsmStateTable r).nextState (a.acsmStateTable f).nextState [c])
        (a.acsmStateTable f).nextState l =
        mergeRow (a.acsmStateTable r).nextState (a.acsmStateTable f).nextState (c :: l) := by
      funext d
      by_cases hd : d ∈ l
      · rw [mergeRow, if_pos hd, hlater d hd, mergeRow, if_pos (List.mem_cons_of_mem c hd)]
      · rw [mergeRow, if_neg hd, mergeRow, mergeRow]
        simp only [List.mem_cons, hd, List.not_mem_nil]
    rw [hqueue, hmerge]

/-! ## Convert_NFA_To_DFA -/

/-- Where the transitions of a state lead. -/
def RowComplete (ps : List (Pattern ι)) (num : Nat) (label : Nat → List Byte) (s : Nat)
    (next : Byte → Option Nat) : Prop :=
  ∀ c, ∃ t, next c = some t ∧ t ≤ num ∧ label t = longestSuffix (Word ps) (label s ++ [c])

/-- The table while the transitions are filled; the states in `done` have theirs. -/
structure Converting (ps : List (Pattern ι)) (a₀ : Struct ι) (label : Nat → List Byte) (done : List Nat)
    (a : Struct ι) : Prop where
  max : a.acsmMaxStates = a₀.acsmMaxStates
  num : a.acsmNumStates = a₀.acsmNumStates
  fail : ∀ s, s ≤ a₀.acsmNumStates → s ≠ 0 → (a.acsmStateTable s).failState ≤ a₀.acsmNumStates ∧
    label (a.acsmStateTable s).failState = fallback (Word ps) (label s)
  lists : ∀ s, s ≤ a₀.acsmNumStates → (a.acsmStateTable s).matchList.Perm (endings ps (label s))
  complete : ∀ s, s ∈ done → s ≤ a₀.acsmNumStates →
    RowComplete ps a₀.acsmNumStates label s (a.acsmStateTable s).nextState
  rest : ∀ s, s ∉ done → (a.acsmStateTable s).nextState = row a₀ s

/-- One state: the states above its level are done. -/
theorem convertState_spec (h : TrieOf ps a₀ label) (hmax : a₀.acsmNumStates < a₀.acsmMaxStates)
    {done queue : List Nat} {r : Nat}
    (hsw : Sweep (states a₀) (kids a₀) (fun s => (label s).length) 0 done (r :: queue))
    (hc : Converting ps a₀ label done a) :
    ∃ a', convertState r (a, queue) = some (a', queue ++ kids a₀ r) ∧
      Converting ps a₀ label (done ++ [r]) a' := by
  have hr := head_le hsw
  have hr0 := head_ne_root hsw
  have hrne := h.label_ne_nil hr hr0
  have hin : ∀ t, t ≤ a₀.acsmNumStates → t < a.acsmMaxStates := by
    intro t ht
    rw [hc.max]
    exact Nat.lt_of_le_of_lt ht hmax
  obtain ⟨hf, hlf⟩ := hc.fail r hr hr0
  have hless : (label (a.acsmStateTable r).failState).length < (label r).length := by
    rw [hlf]
    exact fallback_length hrne
  have hrf : (a.acsmStateTable r).failState ≠ r := fun heq =>
    Nat.ne_of_lt hless (congrArg (fun t => (label t).length) heq)
  have hrd : r ∉ done := fun hd =>
    (List.nodup_append.mp hsw.nodup).2.2 r hd r List.mem_cons_self rfl
  have hrow : (a.acsmStateTable r).nextState = (a₀.acsmStateTable r).nextState := by
    rw [hc.rest r hrd]
    exact funext fun c => if_neg hr0
  have hfd : (a.acsmStateTable r).failState ∈ done :=
    (hsw.seen_of_depth (trie_isTree h.toIsTrie) (mem_states.mpr hf) (Nat.le_of_lt hless)).2 hless
  have hrun := convertBytes_spec hrf alphabet a queue alphabet_nodup (hin r hr) rfl (hin _ hf)
  rw [hrow] at hrun
  refine ⟨_, hrun, ⟨hc.max, hc.num, ?_, ?_, ?_, ?_⟩⟩
  · intro s hs hs0
    rw [setRow_failState]
    exact hc.fail s hs hs0
  · intro s hs
    rw [setRow_matchList]
    exact hc.lists s hs
  · intro s hs hsn
    rw [setRow_nextState]
    split
    · next heq =>
      subst heq
      intro c
      rw [mergeRow, if_pos (mem_alphabet c)]
      cases hnext : (a₀.acsmStateTable s).nextState c with
      | some t =>
        obtain ⟨ht, hl⟩ := (h.next_iff s hr c t).mp hnext
        refine ⟨t, rfl, ht, ?_⟩
        rw [longestSuffix_self ((h.words _).mp ⟨t, ht, hl⟩), hl]
      | none =>
        obtain ⟨t, hft, ht, hl⟩ := hc.complete _ hfd hf c
        refine ⟨t, hft, ht, ?_⟩
        rw [hl, hlf]
        exact (longestSuffix_fallback (word_prefixClosed ps) hrne ((h.none_iff hr c).mp hnext)).symm
    · next hne =>
      rcases List.mem_append.mp hs with hd | hd
      · exact hc.complete s hd hsn
      · exact absurd (List.mem_singleton.mp hd) hne
  · intro s hs
    have hne : s ≠ r := fun heq => hs (heq ▸ List.mem_append_right done (List.mem_singleton.mpr rfl))
    rw [setRow_nextState, if_neg hne]
    exact hc.rest s fun hd => hs (List.mem_append_left _ hd)

/-- A deterministic automaton for the patterns: every state stands for a word, and
leads by every byte to the longest suffix that is a word; its match list has the
patterns its word ends with. -/
structure IsAutomaton (ps : List (Pattern ι)) (a : Struct ι) (label : Nat → List Byte) : Prop where
  bound : a.acsmNumStates < a.acsmMaxStates
  root : label 0 = []
  next : ∀ s, s ≤ a.acsmNumStates →
    RowComplete ps a.acsmNumStates label s (a.acsmStateTable s).nextState
  lists : ∀ s, s ≤ a.acsmNumStates → (a.acsmStateTable s).matchList.Perm (endings ps (label s))

theorem convertNFAToDFA_spec (h : TrieOf ps a₀ label) (hmax : a₀.acsmNumStates < a₀.acsmMaxStates)
    (hb : Building ps a₀ label (fun _ => True) a) :
    ∃ a', convertNFAToDFA a = some a' ∧ IsAutomaton ps a' label := by
  have ht := trie_isTree h.toIsTrie
  have hstart : Converting ps a₀ label [0] a := by
    refine ⟨hb.max, hb.num, fun s hs h0 => hb.fail s hs h0 trivial, fun s hs => hb.lists s hs trivial, ?_,
      fun s _ => hb.rows s⟩
    intro s hs hsn c
    rw [List.mem_singleton.mp hs] at hsn ⊢
    have hrow : row a₀ 0 c = some (((a₀.acsmStateTable 0).nextState c).getD 0) := if_pos rfl
    obtain ⟨htn, hl⟩ := h.row_some hsn hrow
    exact ⟨_, (congrFun (hb.rows 0) c).trans hrow, htn, hl⟩
  have hroots := queueRoot_spec h.toIsTrie false hb.rows (fun hfalse => by cases hfalse)
    (hb.max.symm ▸ hmax) alphabet []
  have hfuel : (states a₀).length ≤ a.acsmMaxStates := by
    rw [states, List.length_range, hb.max]
    exact hmax
  obtain ⟨done, a', hrun, hc, hall⟩ := queueLoop_rule ht convertState
    (Converting ps a₀ label) (fun done r queue a hsw hc => convertState_spec h hmax hsw hc) hstart hfuel
  refine ⟨a', ?_, ⟨?_, h.root, ?_, ?_⟩⟩
  · rw [convertNFAToDFA, hroots, Option.bind_eq_bind, Option.bind_some]
    exact hrun
  · rw [hc.num, hc.max]
    exact hmax
  · intro s hs
    rw [hc.num] at hs ⊢
    exact hc.complete s (hall s (mem_states.mpr hs)) hs
  · intro s hs
    rw [hc.num] at hs
    exact hc.lists s hs

/-! ## acsmCompile -/

/-- **`acsmCompile` ends, never leaves the state table, and makes an automaton for the
patterns, in the order of their registration.** -/
theorem acsmCompile_spec (a : Struct ι) (hsize : STATETABLE_SIZE * maxStates a.acsmPatterns < 2 ^ 31)
    (hne : ∀ p ∈ a.acsmPatterns, p.patrn ≠ []) :
    ∃ a' label, acsmCompile a = some a' ∧ IsAutomaton a.acsmPatterns.reverse a' label := by
  let start : Struct ι := { a with
    acsmMaxStates := maxStates a.acsmPatterns, acsmNumStates := 0, acsmStateTable := fun _ => {} }
  have hroom : (a.acsmPatterns.map fun q => q.n).sum + (([] : List (Pattern ι)).map fun q => q.n).sum <
      start.acsmMaxStates := by
    show _ < 1 + _
    simp
  obtain ⟨a₀, label, hadd, h, hmax, _⟩ := addPatterns_spec a.acsmPatterns [] start _ trieOf_nil hroom
  rw [List.append_nil] at h
  have hlt : a₀.acsmNumStates < a₀.acsmMaxStates := by
    have hle := h.size
    rw [List.map_reverse, List.sum_reverse] at hle
    rw [hmax]
    show _ < 1 + _
    omega
  obtain ⟨a1, hfill, ha1, hrow⟩ := fillRoot_row (a := a₀) (Nat.lt_of_le_of_lt (Nat.zero_le _) hlt)
  obtain ⟨a2, hbuild, hb⟩ := buildNFA_spec h hlt (fun p hp => hne p (List.mem_reverse.mp hp)) ha1 hrow
  obtain ⟨a3, hconv, hauto⟩ := convertNFAToDFA_spec h hlt hb
  refine ⟨a3, label, ?_, hauto⟩
  rw [acsmCompile, if_pos hsize]
  show (a.acsmPatterns.foldlM addPatternStates start >>= fun a => _) = _
  rw [hadd]
  simp only [Option.bind_eq_bind, Option.bind_some, hfill, hbuild, hconv]

end WafProxy.Acsm
