import Mathlib.Data.List.Nodup
import WafProxy.Rules.AcsmTrie

/-
  The failure states — Build_NFA

  `Build_NFA` takes the states in breadth-first order, and gives every state the
  state of its longest proper suffix that is a word, with the matches of that state.

  What is proved:
    1. `trie_isTree` — the states are a tree.
    2. `fillRoot_row`, `queueRoot_spec` — the two loops over state 0.
    3. `nextValid_spec` — the inner `while` ends, at the longest suffix.
    4. `buildByte_spec`, `buildBytes_spec` — a byte, and all the bytes of a state.
    5. `buildNFA_spec` — the failure states and the match lists.

  The proofs keep the table `a₀` of the patterns beside the table that is changed.
-/

namespace WafProxy.Acsm
open Lib

variable {ι : Type} {a₀ a : Struct ι} {label : Nat → List Byte} {ps : List (Pattern ι)}

/-! ## The tree of the states -/

theorem mem_alphabet (c : Byte) : c ∈ alphabet :=
  List.mem_map.mpr ⟨c.toNat, List.mem_range.mpr c.toNat_lt, UInt8.ofNat_toNat⟩

theorem alphabet_nodup : alphabet.Nodup := by
  apply List.Nodup.map_on _ List.nodup_range
  intro m hm n hn heq
  have hmod := congrArg UInt8.toNat heq
  rwa [UInt8.toNat_ofNat', UInt8.toNat_ofNat', Nat.mod_eq_of_lt (List.mem_range.mp hm),
    Nat.mod_eq_of_lt (List.mem_range.mp hn)] at hmod

/-- The states a state leads to, in the order of the bytes. -/
def kids (a : Struct ι) (s : Nat) : List Nat := alphabet.filterMap (a.acsmStateTable s).nextState

theorem mem_kids {s t : Nat} : t ∈ kids a s ↔ ∃ c, (a.acsmStateTable s).nextState c = some t := by
  rw [kids, List.mem_filterMap]
  constructor
  · intro h
    obtain ⟨c, _, hc⟩ := h
    exact ⟨c, hc⟩
  · intro h
    obtain ⟨c, hc⟩ := h
    exact ⟨c, mem_alphabet c, hc⟩

def states (a : Struct ι) : List Nat := List.range (a.acsmNumStates + 1)

theorem mem_states {s : Nat} : s ∈ states a ↔ s ≤ a.acsmNumStates := by
  rw [states, List.mem_range, Nat.lt_succ_iff]

/-- A state and the two ways to a state it leads to. -/
theorem IsTrie.kid (ht : IsTrie a label) {s t : Nat} (hs : s ≤ a.acsmNumStates) (hk : t ∈ kids a s) :
    t ≤ a.acsmNumStates ∧ ∃ c, label t = label s ++ [c] := by
  obtain ⟨c, hc⟩ := mem_kids.mp hk
  obtain ⟨htn, hl⟩ := (ht.next_iff s hs c t).mp hc
  exact ⟨htn, c, hl⟩

theorem trie_isTree (ht : IsTrie a label) :
    IsTree (states a) (kids a) (fun s => (label s).length) 0 where
  root_mem := mem_states.mpr (Nat.zero_le _)
  kids_mem p hp x hx := mem_states.mpr (ht.kid (mem_states.mp hp) hx).1
  reached x hx := by
    have hxn := mem_states.mp hx
    rcases List.eq_nil_or_concat (label x) with hnil | ⟨w, c, hl⟩
    · exact Or.inl (ht.inj x hxn 0 (Nat.zero_le _) (hnil.trans ht.root.symm))
    · rw [List.concat_eq_append] at hl
      obtain ⟨s, hs, hls⟩ := ht.closed x hxn w c hl
      refine Or.inr ⟨s, mem_states.mpr hs, mem_kids.mpr ⟨c, ?_⟩⟩
      exact (ht.next_iff s hs c x).mpr ⟨hxn, hls ▸ hl⟩
  root_depth := congrArg List.length ht.root
  kid_depth p hp x hx := by
    obtain ⟨_, c, hl⟩ := ht.kid (mem_states.mp hp) hx
    rw [hl, List.length_append, List.length_singleton]
  kids_nodup p hp := by
    apply List.Nodup.filterMap _ alphabet_nodup
    intro c d t hc hd
    have hlc := ((ht.next_iff p (mem_states.mp hp) c t).mp hc).2
    have hld := ((ht.next_iff p (mem_states.mp hp) d t).mp hd).2
    exact List.singleton_inj.mp (List.append_inj' (hlc.symm.trans hld) rfl).2
  parent p hp q hq x hxp hxq := by
    obtain ⟨_, c, hlc⟩ := ht.kid (mem_states.mp hp) hxp
    obtain ⟨_, d, hld⟩ := ht.kid (mem_states.mp hq) hxq
    exact ht.inj p (mem_states.mp hp) q (mem_states.mp hq) (List.append_inj' (hlc.symm.trans hld) rfl).1

/-! ## State 0 -/

/-- The transitions after state 0 has been filled. -/
def row (a₀ : Struct ι) (s : Nat) (c : Byte) : Option Nat :=
  if s = 0 then some (((a₀.acsmStateTable 0).nextState c).getD 0) else (a₀.acsmStateTable s).nextState c

/-- The table with another row of transitions. -/
def Struct.setRow (a : Struct ι) (s : Nat) (next : Byte → Option Nat) : Struct ι :=
  a.set s { a.acsmStateTable s with nextState := next }

theorem setRow_nextState {s : Nat} {next : Byte → Option Nat} (t : Nat) :
    ((a.setRow s next).acsmStateTable t).nextState = if t = s then next else (a.acsmStateTable t).nextState := by
  by_cases h : t = s
  · rw [h, Struct.setRow, Struct.set_same, if_pos rfl]
  · rw [Struct.setRow, Struct.set_other h, if_neg h]

@[simp] theorem setRow_failState {s : Nat} {next : Byte → Option Nat} (t : Nat) :
    ((a.setRow s next).acsmStateTable t).failState = (a.acsmStateTable t).failState := by
  by_cases h : t = s
  · rw [h, Struct.setRow, Struct.set_same]
  · rw [Struct.setRow, Struct.set_other h]

@[simp] theorem setRow_matchList {s : Nat} {next : Byte → Option Nat} (t : Nat) :
    ((a.setRow s next).acsmStateTable t).matchList = (a.acsmStateTable t).matchList := by
  by_cases h : t = s
  · rw [h, Struct.setRow, Struct.set_same]
  · rw [Struct.setRow, Struct.set_other h]

theorem setRow_setRow {s : Nat} {next next' : Byte → Option Nat} :
    (a.setRow s next).setRow s next' = a.setRow s next' := by
  rw [Struct.setRow, Struct.setRow, Struct.set_set, Struct.set_same]
  rfl

theorem setRow_self {s : Nat} : a.setRow s (a.acsmStateTable s).nextState = a := Struct.set_self

theorem put_setRow {s : Nat} {next : Byte → Option Nat} (h : s < a.acsmMaxStates) :
    a.put s { a.acsmStateTable s with nextState := next } = some (a.setRow s next) := if_pos h

theorem fillRoot_spec : ∀ (l : List Byte) (a : Struct ι), 0 < a.acsmMaxStates →
    l.foldlM fillRoot a = some (a.setRow 0 fun c =>
      if c ∈ l then some (((a.acsmStateTable 0).nextState c).getD 0) else (a.acsmStateTable 0).nextState c) := by
  intro l
  induction l with
  | nil =>
    intro a _
    simp only [List.not_mem_nil, if_false]
    exact congrArg some setRow_self.symm
  | cons d l ih =>
    intro a hmax
    have hstep : fillRoot a d = some (a.setRow 0 fun c => if c = d then
        some (((a.acsmStateTable 0).nextState c).getD 0) else (a.acsmStateTable 0).nextState c) := by
      simp only [fillRoot, Struct.entry_lt hmax, Option.bind_eq_bind, Option.bind_some]
      cases hnext : (a.acsmStateTable 0).nextState d with
      | some s =>
        refine congrArg some (setRow_self.symm.trans (congrArg _ ?_))
        funext c
        by_cases hcd : c = d
        · subst hcd
          simp [hnext]
        · simp [hcd]
      | none =>
        refine (put_setRow hmax).trans (congrArg (fun next => some (a.setRow 0 next)) ?_)
        funext c
        by_cases hcd : c = d
        · subst hcd
          simp [hnext]
        · simp [hcd]
    rw [List.foldlM_cons, hstep, Option.bind_eq_bind, Option.bind_some, ih (a.setRow 0 _) hmax,
      setRow_setRow]
    refine congrArg (fun next => some (a.setRow 0 next)) ?_
    funext c
    rw [setRow_nextState, if_pos rfl]
    by_cases hcd : c = d
    · subst hcd
      simp
    · simp [hcd]

/-- State 0 leads somewhere for every byte. -/
theorem fillRoot_row (hmax : 0 < a.acsmMaxStates) :
    ∃ a', alphabet.foldlM fillRoot a = some a' ∧ a' = a.setRow 0 (row a 0) ∧
      ∀ s, (a'.acsmStateTable s).nextState = row a s := by
  refine ⟨a.setRow 0 (row a 0), ?_, rfl, fun s => ?_⟩
  · rw [fillRoot_spec alphabet a hmax]
    congr 2
    funext c
    rw [if_pos (mem_alphabet c)]
    rfl
  · rw [setRow_nextState]
    split
    · next h => rw [h]
    · next h =>
      funext c
      exact (if_neg h).symm

/-- The `for` over state 0: the states it led to before it was filled. -/
theorem queueRoot_spec (ht : IsTrie a₀ label) (setFail : Bool)
    (hrow : ∀ s, (a.acsmStateTable s).nextState = row a₀ s)
    (hfail : setFail = true → ∀ s, (a.acsmStateTable s).failState = 0)
    (hmax : a₀.acsmNumStates < a.acsmMaxStates) :
    ∀ (l : List Byte) (q : List Nat), l.foldlM (queueRoot setFail) (a, q) =
      some (a, q ++ l.filterMap (a₀.acsmStateTable 0).nextState) := by
  intro l
  induction l with
  | nil => exact fun q => congrArg (fun r => some (a, r)) (List.append_nil q).symm
  | cons c l ih =>
    intro q
    have hstep : queueRoot setFail (a, q) c =
        some (a, q ++ ((a₀.acsmStateTable 0).nextState c).toList) := by
      simp only [queueRoot, Struct.entry_lt (Nat.lt_of_le_of_lt (Nat.zero_le _) hmax), Option.bind_eq_bind,
        Option.bind_some, hrow, row, if_true]
      cases hnext : (a₀.acsmStateTable 0).nextState c with
      | none => simp
      | some s =>
        obtain ⟨hsn, hl⟩ := (ht.next_iff 0 (Nat.zero_le _) c s).mp hnext
        have hs0 : s ≠ 0 := by
          intro h0
          rw [h0, ht.root] at hl
          cases hl
        rw [Option.getD_some, if_neg hs0]
        cases setFail with
        | false => rfl
        | true =>
          have hself : { a.acsmStateTable s with failState := 0 } = a.acsmStateTable s := by
            rw [← hfail rfl s]
          have hsm : s < a.acsmMaxStates := Nat.lt_of_le_of_lt hsn hmax
          simp only [if_true, Struct.entry_lt hsm, Option.bind_some, hself, Struct.put_lt hsm,
            Struct.set_self]
          rfl
    rw [List.foldlM_cons, hstep, Option.bind_eq_bind, Option.bind_some, ih, List.append_assoc]
    cases hnext : (a₀.acsmStateTable 0).nextState c with
    | none => rw [List.filterMap_cons_none hnext]; rfl
    | some s => rw [List.filterMap_cons_some hnext]; rfl

/-! ## Failure states -/

/-- The patterns a word ends with. -/
def endings (ps : List (Pattern ι)) (w : List Byte) : List (Pattern ι) := ps.filter fun p => p.patrn <:+ w

theorem perm_filter_or {α : Type} {l : List α} {p q r : α → Bool} (hr : ∀ x ∈ l, r x = (p x || q x))
    (hpq : ∀ x ∈ l, p x = true → q x = false) : (l.filter q ++ l.filter p).Perm (l.filter r) := by
  induction l with
  | nil => exact List.Perm.refl _
  | cons x l ih =>
    have hrest := ih (fun y hy => hr y (List.mem_cons_of_mem x hy)) fun y hy => hpq y (List.mem_cons_of_mem x hy)
    have hx := hr x List.mem_cons_self
    have hdis := hpq x List.mem_cons_self
    cases hp : p x with
    | true =>
      rw [hdis hp, hp] at hx
      rw [List.filter_cons_of_pos hp, List.filter_cons_of_pos (p := r) hx,
        List.filter_cons_of_neg (p := q) (by rw [hdis hp]; decide)]
      exact List.perm_middle.trans (hrest.cons x)
    | false =>
      rw [hp, Bool.false_or] at hx
      rw [List.filter_cons_of_neg (p := p) (by rw [hp]; decide)]
      cases hq : q x with
      | true =>
        rw [hq] at hx
        rw [List.filter_cons_of_pos hq, List.filter_cons_of_pos (p := r) hx]
        exact hrest.cons x
      | false =>
        rw [hq] at hx
        rw [List.filter_cons_of_neg (p := q) (by rw [hq]; decide),
          List.filter_cons_of_neg (p := r) (by rw [hx]; decide)]
        exact hrest

/-- A word ends with itself and with what its fallback ends with. -/
theorem endings_fallback {w : List Byte} (hne : w ≠ []) :
    (endings ps (fallback (Word ps) w) ++ ps.filter fun p => p.patrn = w).Perm (endings ps w) := by
  apply perm_filter_or
  · intro p hp
    have hword : Word ps p.patrn := Or.inr ⟨p, hp, List.prefix_refl _⟩
    rw [← Bool.decide_or]
    exact decide_eq_decide.mpr (suffix_iff_fallback hne hword)
  · intro p _ heq
    have hlen := fallback_length (P := Word ps) hne
    apply decide_eq_false
    intro hsuf
    have hle := hsuf.length_le
    rw [of_decide_eq_true heq] at hle
    omega

/-- The table while the failure states are built; `seen` are the states that have
theirs. -/
structure Building (ps : List (Pattern ι)) (a₀ : Struct ι) (label : Nat → List Byte) (seen : Nat → Prop)
    (a : Struct ι) : Prop where
  max : a.acsmMaxStates = a₀.acsmMaxStates
  num : a.acsmNumStates = a₀.acsmNumStates
  rows : ∀ s, (a.acsmStateTable s).nextState = row a₀ s
  fail : ∀ s, s ≤ a₀.acsmNumStates → s ≠ 0 → seen s → (a.acsmStateTable s).failState ≤ a₀.acsmNumStates ∧
    label (a.acsmStateTable s).failState = fallback (Word ps) (label s)
  lists : ∀ s, s ≤ a₀.acsmNumStates → seen s → (a.acsmStateTable s).matchList.Perm (endings ps (label s))
  rest : ∀ s, s ≤ a₀.acsmNumStates → ¬ seen s →
    (a.acsmStateTable s).matchList = ps.filter fun p => p.patrn = label s

section
variable (h : TrieOf ps a₀ label) {seen : Nat → Prop} (hb : Building ps a₀ label seen a)
include h

theorem TrieOf.label_ne_nil {s : Nat} (hs : s ≤ a₀.acsmNumStates) (h0 : s ≠ 0) : label s ≠ [] :=
  fun hnil => h0 (h.inj s hs 0 (Nat.zero_le _) (hnil.trans h.root.symm))

/-- The transition of a state by a byte, in terms of words. -/
theorem TrieOf.none_iff {s : Nat} (hs : s ≤ a₀.acsmNumStates) (c : Byte) :
    (a₀.acsmStateTable s).nextState c = none ↔ ¬ Word ps (label s ++ [c]) := by
  rw [← h.words]
  constructor
  · exact h.unlabelled hs
  · intro hno
    cases hnext : (a₀.acsmStateTable s).nextState c with
    | none => rfl
    | some t => exact absurd ⟨t, (h.next_iff s hs c t).mp hnext⟩ hno

/-- Where a row leads is the longest suffix, when it leads somewhere. -/
theorem TrieOf.row_some {s t : Nat} {c : Byte} (hs : s ≤ a₀.acsmNumStates) (hrow : row a₀ s c = some t) :
    t ≤ a₀.acsmNumStates ∧ label t = longestSuffix (Word ps) (label s ++ [c]) := by
  rw [row] at hrow
  cases hnext : (a₀.acsmStateTable s).nextState c with
  | some u =>
    have htu : u = t := by
      split at hrow
      · next h0 =>
        rw [← h0, hnext] at hrow
        exact Option.some.inj hrow
      · exact Option.some.inj (hnext.symm.trans hrow)
    obtain ⟨hun, hl⟩ := (h.next_iff s hs c u).mp hnext
    rw [← htu]
    refine ⟨hun, ?_⟩
    rw [longestSuffix_self ((h.words _).mp ⟨u, hun, hl⟩), hl]
  | none =>
    split at hrow
    · next h0 =>
      rw [← h0, hnext, Option.getD_none, h0] at hrow
      have ht : 0 = t := Option.some.inj hrow
      have hno := (h.none_iff hs c).mp hnext
      rw [h0, h.root, List.nil_append] at hno
      rw [← ht, h0, h.root]
      refine ⟨Nat.zero_le _, ?_⟩
      rw [List.nil_append, longestSuffix, if_neg hno]
      rfl
    · rw [hnext] at hrow
      cases hrow

theorem TrieOf.row_none {s : Nat} {c : Byte} (hs : s ≤ a₀.acsmNumStates) (hrow : row a₀ s c = none) :
    s ≠ 0 ∧ ¬ Word ps (label s ++ [c]) := by
  rw [row] at hrow
  split at hrow
  · cases hrow
  · next h0 => exact ⟨h0, (h.none_iff hs c).mp hrow⟩

include hb

/-- The inner `while` follows failure states upwards and ends at the longest suffix. -/
theorem nextValid_spec (hmax : a₀.acsmNumStates < a₀.acsmMaxStates) (c : Byte) :
    ∀ (fuel fs : Nat), fs ≤ a₀.acsmNumStates → (label fs).length < fuel →
    (∀ t, t ≤ a₀.acsmNumStates → (label t).length ≤ (label fs).length → seen t) →
    ∃ t, nextValid a c fuel fs = some t ∧ t ≤ a₀.acsmNumStates ∧
      label t = longestSuffix (Word ps) (label fs ++ [c]) := by
  intro fuel
  induction fuel with
  | zero => exact fun fs _ hlt => absurd hlt (Nat.not_lt_zero _)
  | succ fuel ih =>
    intro fs hfs hlt hseen
    have hin : fs < a.acsmMaxStates := by
      rw [hb.max]
      exact Nat.lt_of_le_of_lt hfs hmax
    cases hrow : row a₀ fs c with
    | some t =>
      refine ⟨t, ?_, h.row_some hfs hrow⟩
      simp only [nextValid, Struct.entry_lt hin, Option.bind_eq_bind, Option.bind_some, hb.rows, hrow]
    | none =>
      obtain ⟨h0, hno⟩ := h.row_none hfs hrow
      obtain ⟨hf, hlf⟩ := hb.fail fs hfs h0 (hseen fs hfs (Nat.le_refl _))
      have hless : (label (a.acsmStateTable fs).failState).length < (label fs).length := by
        rw [hlf]
        exact fallback_length (h.label_ne_nil hfs h0)
      obtain ⟨t, hrun, htn, hl⟩ := ih (a.acsmStateTable fs).failState hf (by omega)
        fun u hu hle => hseen u hu (Nat.le_trans hle (Nat.le_of_lt hless))
      refine ⟨t, ?_, htn, ?_⟩
      · simp only [nextValid, Struct.entry_lt hin, Option.bind_eq_bind, Option.bind_some, hb.rows, hrow]
        exact hrun
      · rw [hl, hlf]
        exact (longestSuffix_fallback (word_prefixClosed ps) (h.label_ne_nil hfs h0) hno).symm

end

/-- The copies stand in front, the last one first. -/
theorem copies_spec {s : Nat} : ∀ (l : List (Pattern ι)) (a : Struct ι), s < a.acsmMaxStates →
    l.foldlM (fun a px => addMatchListEntry a s px) a = some (a.set s { a.acsmStateTable s with
      matchList := l.reverse ++ (a.acsmStateTable s).matchList }) := by
  intro l
  induction l with
  | nil => exact fun a _ => congrArg some Struct.set_self.symm
  | cons px l ih =>
    intro a hs
    have hstep : addMatchListEntry a s px = some (a.set s { a.acsmStateTable s with
        matchList := px :: (a.acsmStateTable s).matchList }) := by
      simp only [addMatchListEntry, Struct.entry_lt hs, Option.bind_eq_bind, Option.bind_some]
      exact Struct.put_lt hs
    rw [List.foldlM_cons, hstep, Option.bind_eq_bind, Option.bind_some, ih (a.set s _) hs, Struct.set_set,
      Struct.set_same, List.reverse_cons, List.append_assoc]
    rfl

/-- The table with a failure state, and the matches of it in front of the state's own. -/
def Struct.setFail (a : Struct ι) (s next : Nat) : Struct ι :=
  a.set s { a.acsmStateTable s with
    failState := next
    matchList := (a.acsmStateTable next).matchList.reverse ++ (a.acsmStateTable s).matchList }

theorem copyMatchList_spec {s next : Nat} (hs : s < a.acsmMaxStates) (hn : next < a.acsmMaxStates)
    (hne : next ≠ s) : (a.put s { a.acsmStateTable s with failState := next }).bind
      (fun a => copyMatchList a next s) = some (a.setFail s next) := by
  let a1 := a.set s { a.acsmStateTable s with failState := next }
  have hsame : a1.acsmStateTable s = { a.acsmStateTable s with failState := next } := Struct.set_same
  have hentry : a1.entry next = some (a.acsmStateTable next) := by
    rw [Struct.entry_lt (show next < a1.acsmMaxStates from hn), Struct.set_other hne]
  rw [Struct.put_lt hs, Option.bind_some, copyMatchList, hentry, Option.bind_eq_bind, Option.bind_some,
    copies_spec _ a1 hs, hsame, Struct.set_set]
  rfl

section
variable {s next : Nat}

@[simp] theorem setFail_nextState (t : Nat) :
    ((a.setFail s next).acsmStateTable t).nextState = (a.acsmStateTable t).nextState := by
  by_cases h : t = s
  · rw [h, Struct.setFail, Struct.set_same]
  · rw [Struct.setFail, Struct.set_other h]

theorem setFail_other {t : Nat} (h : t ≠ s) : (a.setFail s next).acsmStateTable t = a.acsmStateTable t :=
  Struct.set_other h

theorem setFail_failState : ((a.setFail s next).acsmStateTable s).failState = next := by
  rw [Struct.setFail, Struct.set_same]

theorem setFail_matchList : ((a.setFail s next).acsmStateTable s).matchList =
    (a.acsmStateTable next).matchList.reverse ++ (a.acsmStateTable s).matchList := by
  rw [Struct.setFail, Struct.set_same]

end

/-! ## Build_NFA -/

theorem Building.congr {seen seen' : Nat → Prop} (hb : Building ps a₀ label seen a)
    (hiff : ∀ s, s ≤ a₀.acsmNumStates → (seen s ↔ seen' s)) : Building ps a₀ label seen' a where
  max := hb.max
  num := hb.num
  rows := hb.rows
  fail s hs h0 hseen := hb.fail s hs h0 ((hiff s hs).mpr hseen)
  lists s hs hseen := hb.lists s hs ((hiff s hs).mpr hseen)
  rest s hs hno := hb.rest s hs fun hseen => hno ((hiff s hs).mp hseen)

section
variable (h : TrieOf ps a₀ label) (hmax : a₀.acsmNumStates < a₀.acsmMaxStates) {seen : Nat → Prop} {r : Nat}
  (hr : r ≤ a₀.acsmNumStates) (hr0 : r ≠ 0)
include h hmax hr hr0

/-- One byte of one state. -/
theorem buildByte_spec (hb : Building ps a₀ label seen a)
    (hseen : ∀ t, t ≤ a₀.acsmNumStates → (label t).length ≤ (label r).length → seen t) {c : Byte}
    (hnew : ∀ s, (a₀.acsmStateTable r).nextState c = some s → ¬ seen s) (q : List Nat) :
    ∃ a', buildByte r (a, q) c = some (a', q ++ ((a₀.acsmStateTable r).nextState c).toList) ∧
      Building ps a₀ label (fun s => seen s ∨ (a₀.acsmStateTable r).nextState c = some s) a' := by
  have hin : ∀ t, t ≤ a₀.acsmNumStates → t < a.acsmMaxStates := by
    intro t ht
    rw [hb.max]
    exact Nat.lt_of_le_of_lt ht hmax
  have hrow : (a.acsmStateTable r).nextState c = (a₀.acsmStateTable r).nextState c := by
    rw [hb.rows]
    exact if_neg hr0
  cases hnext : (a₀.acsmStateTable r).nextState c with
  | none =>
    refine ⟨a, ?_, hb.congr fun s _ => ?_⟩
    · simp [buildByte, Struct.entry_lt (hin r hr), hrow, hnext]
    · simp
  | some s =>
    obtain ⟨hs, hl⟩ := (h.next_iff r hr c s).mp hnext
    have hrne := h.label_ne_nil hr hr0
    have hsne : label s ≠ [] := by
      rw [hl]
      exact List.append_ne_nil_of_right_ne_nil _ (List.cons_ne_nil c [])
    have hs0 : s ≠ 0 := fun h0 => hsne (h0 ▸ h.root)
    obtain ⟨hf, hlf⟩ := hb.fail r hr hr0 (hseen r hr (Nat.le_refl _))
    have hless : (label (a.acsmStateTable r).failState).length < (label r).length := by
      rw [hlf]
      exact fallback_length hrne
    have hfuel : (label (a.acsmStateTable r).failState).length < a.acsmMaxStates :=
      Nat.lt_of_le_of_lt (h.depth_le _ hf) (hin _ hf)
    obtain ⟨t, hrun, ht, hlt⟩ := nextValid_spec h hb hmax c a.acsmMaxStates _ hf hfuel
      fun u hu hle => hseen u hu (Nat.le_trans hle (Nat.le_of_lt hless))
    have hlabel : label t = fallback (Word ps) (label s) := by
      rw [hlt, hlf, hl, fallback_concat (word_prefixClosed ps) hrne]
    have hshort : (label t).length < (label s).length := by
      rw [hlabel]
      exact fallback_length hsne
    have hts : t ≠ s := fun heq => absurd hshort (heq ▸ Nat.lt_irrefl _)
    have htseen : seen t := by
      apply hseen t ht
      rw [hl, List.length_append, List.length_singleton] at hshort
      omega
    refine ⟨a.setFail s t, ?_, ⟨hb.max, hb.num, fun u => ?_, ?_, ?_, ?_⟩⟩
    · have hcopy := copyMatchList_spec (hin s hs) (hin t ht) hts
      simp only [buildByte, Struct.entry_lt (hin r hr), Option.bind_eq_bind, Option.bind_some, hrow, hnext, hrun,
        Struct.entry_lt (hin s hs)]
      rw [← Option.bind_assoc, hcopy]
      rfl
    · rw [setFail_nextState, hb.rows]
    · intro u hu hu0 hor
      by_cases hus : u = s
      · rw [hus, setFail_failState]
        exact ⟨ht, hlabel⟩
      · rw [setFail_other hus]
        rcases hor with hsu | heq
        · exact hb.fail u hu hu0 hsu
        · exact absurd (Option.some.inj heq).symm hus
    · intro u hu hor
      by_cases hus : u = s
      · rw [hus, setFail_matchList, hb.rest s hs (hnew s hnext)]
        have hfall := (List.reverse_perm (a.acsmStateTable t).matchList).trans (hb.lists t ht htseen)
        rw [hlabel] at hfall
        exact (hfall.append_right _).trans (endings_fallback hsne)
      · rw [setFail_other hus]
        rcases hor with hsu | heq
        · exact hb.lists u hu hsu
        · exact absurd (Option.some.inj heq).symm hus
    · intro u hu hno
      have hus : u ≠ s := fun heq => hno (Or.inr (congrArg some heq.symm))
      rw [setFail_other hus]
      exact hb.rest u hu fun hsu => hno (Or.inl hsu)

/-- The `for` over the bytes. -/
theorem buildBytes_spec : ∀ (l : List Byte) (a : Struct ι) (q : List Nat) (seen : Nat → Prop), l.Nodup →
    Building ps a₀ label seen a →
    (∀ t, t ≤ a₀.acsmNumStates → (label t).length ≤ (label r).length → seen t) →
    (∀ c ∈ l, ∀ s, (a₀.acsmStateTable r).nextState c = some s → ¬ seen s) →
    ∃ a', l.foldlM (buildByte r) (a, q) = some (a', q ++ l.filterMap (a₀.acsmStateTable r).nextState) ∧
      Building ps a₀ label (fun s => seen s ∨ ∃ c ∈ l, (a₀.acsmStateTable r).nextState c = some s) a' := by
  intro l
  induction l with
  | nil =>
    intro a q seen _ hb _ _
    refine ⟨a, congrArg (fun r => some (a, r)) (List.append_nil q).symm, hb.congr fun s _ => ?_⟩
    simp
  | cons c l ih =>
    intro a q seen hnd hb hseen hnew
    obtain ⟨hc, hnd⟩ := List.nodup_cons.mp hnd
    obtain ⟨a1, hrun1, hb1⟩ := buildByte_spec h hmax hr hr0 hb hseen (hnew c List.mem_cons_self) q
    have hnew1 : ∀ d ∈ l, ∀ s, (a₀.acsmStateTable r).nextState d = some s →
        ¬ (seen s ∨ (a₀.acsmStateTable r).nextState c = some s) := by
      intro d hd s hds hor
      rcases hor with hs | hcs
      · exact hnew d (List.mem_cons_of_mem c hd) s hds hs
      · -- two bytes lead to different states
        have hlc := ((h.next_iff r hr c s).mp hcs).2
        have hld := ((h.next_iff r hr d s).mp hds).2
        have heq := List.singleton_inj.mp (List.append_inj' (hlc.symm.trans hld) rfl).2
        exact hc (heq ▸ hd)
    obtain ⟨a', hrun, hb'⟩ := ih a1 (q ++ ((a₀.acsmStateTable r).nextState c).toList) _ hnd hb1
      (fun t ht hle => Or.inl (hseen t ht hle)) hnew1
    refine ⟨a', ?_, hb'.congr fun s _ => ?_⟩
    · rw [List.foldlM_cons, hrun1, Option.bind_eq_bind, Option.bind_some, hrun, List.append_assoc]
      cases hnext : (a₀.acsmStateTable r).nextState c with
      | none => rw [List.filterMap_cons_none hnext]; rfl
      | some s => rw [List.filterMap_cons_some hnext]; rfl
    · rw [List.exists_mem_cons_iff, or_assoc]

end

/-- What the queue has seen: state 0, and what a finished state leads to. -/
def SeenFrom (a₀ : Struct ι) (done : List Nat) (s : Nat) : Prop := s = 0 ∨ ∃ p ∈ done, s ∈ kids a₀ p

section
variable (ht : IsTrie a₀ label) {done queue : List Nat} {r : Nat}
  (hsw : Sweep (states a₀) (kids a₀) (fun s => (label s).length) 0 done (r :: queue))
include hsw

theorem head_ne_root : r ≠ 0 := by
  intro h0
  have hdis := (List.nodup_append.mp hsw.nodup).2.2
  exact hdis 0 hsw.root_done r List.mem_cons_self h0.symm

theorem head_le : r ≤ a₀.acsmNumStates :=
  mem_states.mp (hsw.sub r (List.mem_append_right done List.mem_cons_self))

include ht

/-- With `r` at the head of the queue, the states up to its level have been seen. -/
theorem seen_upTo {t : Nat} (hn : t ≤ a₀.acsmNumStates) (hle : (label t).length ≤ (label r).length) :
    SeenFrom a₀ done t :=
  hsw.above t (hsw.seen_of_depth (trie_isTree ht) (mem_states.mpr hn) hle).1

/-- What `r` leads to has not been seen. -/
theorem seen_kid {c : Byte} {s : Nat} (hc : (a₀.acsmStateTable r).nextState c = some s) :
    ¬ SeenFrom a₀ done s := by
  intro hs
  have hnew := hsw.kid_new (trie_isTree ht) (mem_kids.mpr ⟨c, hc⟩)
  rcases hs with h0 | ⟨p, hp, hk⟩
  · exact hnew (h0 ▸ List.mem_append_left _ hsw.root_done)
  · exact hnew (hsw.below p hp s hk)

end

theorem seenFrom_snoc {done : List Nat} {r s : Nat} : SeenFrom a₀ (done ++ [r]) s ↔
    SeenFrom a₀ done s ∨ ∃ c ∈ alphabet, (a₀.acsmStateTable r).nextState c = some s := by
  have hkid : s ∈ kids a₀ r ↔ ∃ c ∈ alphabet, (a₀.acsmStateTable r).nextState c = some s := by
    rw [kids, List.mem_filterMap]
  rw [SeenFrom, SeenFrom, ← hkid, or_assoc]
  simp only [List.mem_append, List.mem_singleton, or_and_right, exists_or, exists_eq_left]

/-- **`Build_NFA` ends; every state has the state of its longest proper suffix, and the
patterns it ends with.** -/
theorem buildNFA_spec (h : TrieOf ps a₀ label) (hmax : a₀.acsmNumStates < a₀.acsmMaxStates)
    (hne : ∀ p ∈ ps, p.patrn ≠ []) {next : Byte → Option Nat} (ha : a = a₀.setRow 0 next)
    (hrow : ∀ s, (a.acsmStateTable s).nextState = row a₀ s) :
    ∃ a', buildNFA a = some a' ∧ Building ps a₀ label (fun _ => True) a' := by
  have ht := trie_isTree h.toIsTrie
  have hmax' : a.acsmMaxStates = a₀.acsmMaxStates := by
    rw [ha]
    rfl
  have hfail : ∀ s, (a.acsmStateTable s).failState = 0 := by
    intro s
    rw [ha, setRow_failState]
    exact h.fail s
  have hown : ∀ s, s ≤ a₀.acsmNumStates →
      (a.acsmStateTable s).matchList = ps.filter fun p => p.patrn = label s := by
    intro s hs
    rw [ha, setRow_matchList]
    exact (h.own s).1 hs
  -- a word of at most one byte ends with itself only
  have hshort : ∀ s, s ≤ a₀.acsmNumStates → SeenFrom a₀ [0] s →
      ps.filter (fun p => p.patrn = label s) = endings ps (label s) := by
    intro s _ hs
    apply List.filter_congr
    intro p hp
    apply decide_eq_decide.mpr
    have hcase : label s = [] ∨ ∃ c, label s = [c] := by
      rcases hs with h0 | ⟨p, hp0, hk⟩
      · exact Or.inl (h0 ▸ h.root)
      · rw [List.mem_singleton.mp hp0] at hk
        obtain ⟨_, c, hl⟩ := h.toIsTrie.kid (Nat.zero_le _) hk
        rw [h.root] at hl
        exact Or.inr ⟨c, hl⟩
    rcases hcase with hnil | ⟨c, hl⟩
    · rw [hnil, List.suffix_nil]
    · rw [hl, List.suffix_cons_iff, List.suffix_nil]
      exact ⟨Or.inl, fun hor => hor.resolve_right (hne p hp)⟩
  have hstart : Building ps a₀ label (SeenFrom a₀ [0]) a := by
    refine ⟨hmax', by rw [ha]; rfl, hrow, ?_, ?_, ?_⟩
    · intro s _ hs0 hs
      rw [hfail s]
      refine ⟨Nat.zero_le _, ?_⟩
      rcases hs with h0 | ⟨p, hp0, hk⟩
      · exact absurd h0 hs0
      · rw [List.mem_singleton.mp hp0] at hk
        obtain ⟨_, c, hl⟩ := h.toIsTrie.kid (Nat.zero_le _) hk
        rw [hl, h.root]
        rfl
    · intro s hs hseen
      rw [hown s hs, hshort s hs hseen]
    · exact fun s hs _ => hown s hs
  have hroots := queueRoot_spec h.toIsTrie true hrow (fun _ => hfail) (hmax'.symm ▸ hmax) alphabet []
  have hfuel : (states a₀).length ≤ a.acsmMaxStates := by
    rw [states, List.length_range, hmax']
    exact hmax
  have hstep : ∀ done r queue a,
      Sweep (states a₀) (kids a₀) (fun s => (label s).length) 0 done (r :: queue) →
      Building ps a₀ label (SeenFrom a₀ done) a →
      ∃ a', buildState r (a, queue) = some (a', queue ++ kids a₀ r) ∧
        Building ps a₀ label (SeenFrom a₀ (done ++ [r])) a' := by
    intro done r queue a hsw hb
    obtain ⟨a', hrun, hb'⟩ := buildBytes_spec h hmax (head_le hsw) (head_ne_root hsw) alphabet a queue _
      alphabet_nodup hb (fun t hn hle => seen_upTo h.toIsTrie hsw hn hle)
      fun c _ s hc => seen_kid h.toIsTrie hsw hc
    exact ⟨a', hrun, hb'.congr fun s _ => seenFrom_snoc.symm⟩
  obtain ⟨done, a', hrun, hb, hall⟩ := queueLoop_rule ht buildState
    (fun done a => Building ps a₀ label (SeenFrom a₀ done) a) hstep hstart hfuel
  refine ⟨a', ?_, hb.congr fun s hs => ⟨fun _ => trivial, fun _ => ?_⟩⟩
  · rw [buildNFA, hroots, Option.bind_eq_bind, Option.bind_some]
    exact hrun
  · rcases ht.reached s (mem_states.mpr hs) with h0 | ⟨p, hp, hk⟩
    · exact Or.inl h0
    · exact Or.inr ⟨p, hall p hp, hk⟩

end WafProxy.Acsm
