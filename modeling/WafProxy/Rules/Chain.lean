import Mathlib.Algebra.Group.Nat.Defs
import Mathlib.Data.List.Perm.Basic
import Mathlib.Data.List.Count
import WafProxy.Rules.Load

/-
  The rule chains — load_rule.c, record by record

  `Rules.Load` gives up on a row the loop does not get past. Here the loop runs
  on, with its `continue`, and a node also has its compiled expression.

  What is proved:
    1. `ruleLoop_returns` — a loop that returns 0 has gone through every row.
    2. `chainOf_kept`, `chainOf_lost` — a chain holds all the rows of its key
       exactly when its head was not filled in twice.
    3. `loadRule_complete` — the rules are loaded completely exactly when every
       key is an index, no head with an empty text is followed by a row of its
       key, and no target string runs on into a name behind its column.
    4. `ruleLoop_refines` — where the keys are indices and the expressions
       compile, the table is that of `Rules.Load`.

  Correspondence (C ↔ Lean):
    `rule_node`, with the two pointers    ↔ `LoadedNode`
    the body of the `while` behind `if`   ↔ `chainRow`
    the `while` of `load_rule`            ↔ `ruleLoop`
-/

namespace WafProxy
open Lib

/-- `rule_node`, with the texts `pcre_exp` and `pcre_extra` were made from. -/
structure LoadedNode where
  rule : RuleNode := {}
  pcreExp : Option (List Byte) := none
  pcreExtra : Option (List Byte) := none
  deriving DecidableEq, Repr

/-- The table `node`. -/
abbrev LoadedTable := Nat → List LoadedNode

def zeroedTable : LoadedTable := fun _ => [{}]

def LoadedTable.set (node : LoadedTable) (id : Nat) (chain : List LoadedNode) : LoadedTable :=
  fun j => if j = id then chain else node j

/-- The five `strncpy` and `_set_target`, on a zeroed node or on the head of a chain. -/
def SecRecord.fill (r : SecRecord) (n : LoadedNode) : LoadedNode :=
  { n with rule := fillRule r n.rule }

section
variable (compile study : List Byte → Bool)

/-- `pcre_compile_exp` and `pcre_study_exp`: 0, or -1 when one of them fails. -/
def compileNode (r : SecRecord) (n : LoadedNode) : Int × LoadedNode :=
  let exp := if compile (r.strAt 32) then some (r.strAt 32) else none
  if exp = none then (-1, { n with pcreExp := exp })
  else
    let extra := if study (r.strAt 32) then some (r.strAt 32) else none
    if extra = none then (-1, { n with pcreExp := exp, pcreExtra := extra })
    else (0, { n with pcreExp := exp, pcreExtra := extra })

/-- The body of the loop for a row whose key is an index, on the chain of its key. -/
def chainRow (r : SecRecord) : List LoadedNode → Int × List LoadedNode
  | [] => (0, [])
  | head :: follow =>
    if head.rule.text = [] then
      match compileNode compile study r (r.fill head) with
      | (ret, head) => (ret, head :: follow)
    else
      match compileNode compile study r (r.fill {}) with
      -- the new node is lost when the function returns here
      | (ret, n) => (ret, if ret = 0 then head :: n :: follow else head :: follow)

/-- How `load_rule` ends: it returns, or uses an element behind the array. -/
inductive RuleEnd where
  | returned (ret : Int) (node : LoadedTable)
  | outside (index : Int)

/-- The `while` of `load_rule`, for so many passes. -/
def ruleLoop : Nat → List SecRecord → LoadedTable → Option RuleEnd
  | 0, _, _ => none
  | _ + 1, [], node => some (.returned 0 node)
  | fuel + 1, r :: records, node =>
    let index := r.key.toInt
    -- `continue` without `record = record->next`
    if index < 0 then ruleLoop fuel (r :: records) node
    else if RULE_SIZE ≤ index then some (.outside index)
    else
      match chainRow compile study r (node index.toNat) with
      | (ret, chain) =>
        let node := node.set index.toNat chain
        if ret = 0 then ruleLoop fuel records node else some (.returned ret node)

end

theorem SecRecord.fill_eq (r : SecRecord) (n : LoadedNode) : r.fill n = { n with rule := { n.rule with
    key := r.key.toInt, text := r.text, ruleid := r.id, catalog := r.catalog, target := r.target
    iTar := setTarget r.targetSeen n.rule.iTar } } := by
  rw [SecRecord.fill, fillRule_eq]

/-! ## One chain -/

/-- The node of a row, over a zeroed one or over a head that is filled in again. -/
def stored (r : SecRecord) (n : LoadedNode) : LoadedNode :=
  { r.fill n with pcreExp := some r.text, pcreExtra := some r.text }

def addRow (chain : List LoadedNode) (r : SecRecord) : List LoadedNode :=
  match chain with
  | [] => []
  | head :: follow =>
    if head.rule.text = [] then stored r head :: follow else head :: stored r {} :: follow

/-- The chain after the rows of its key. -/
def chainOf (rows : List SecRecord) : List LoadedNode := rows.foldl addRow [{}]

/-- The rules of a chain: its nodes with an expression. -/
def rulesOf (chain : List LoadedNode) : List LoadedNode := chain.filter fun n => n.pcreExp.isSome

/-- A head that another row of its key follows has a text. -/
def HeadKept (rows : List SecRecord) : Prop := ∀ r r' rest, rows = r :: r' :: rest → r.text ≠ []

theorem stored_text (r : SecRecord) (n : LoadedNode) : (stored r n).rule.text = r.text := by
  rw [stored, r.fill_eq]

theorem addRow_text {head : LoadedNode} (h : head.rule.text ≠ []) : ∀ (rows : List SecRecord)
    (follow : List LoadedNode), rows.foldl addRow (head :: follow) =
      head :: ((rows.map fun r => stored r {}).reverse ++ follow) := by
  intro rows
  induction rows with
  | nil => exact fun follow => rfl
  | cons r rows ih =>
    intro follow
    rw [List.foldl_cons, addRow, if_neg h, ih, List.map_cons, List.reverse_cons, List.append_assoc]
    rfl

theorem addRow_length : ∀ (rows : List SecRecord) (chain : List LoadedNode),
    (rows.foldl addRow chain).length ≤ chain.length + rows.length := by
  intro rows
  induction rows with
  | nil => exact fun chain => Nat.le_refl _
  | cons r rows ih =>
    intro chain
    have hone : (addRow chain r).length ≤ chain.length + 1 := by
      unfold addRow
      split
      · exact Nat.zero_le _
      · split
        · exact Nat.le_succ _
        · exact Nat.le_refl _
    have hrest := ih (addRow chain r)
    rw [List.foldl_cons, List.length_cons]
    omega

/-- A chain whose head is kept has all the rows of its key. -/
theorem chainOf_kept {rows : List SecRecord} (h : HeadKept rows) :
    (rulesOf (chainOf rows)).Perm (rows.map fun r => stored r {}) := by
  cases rows with
  | nil => exact List.Perm.refl _
  | cons r rows =>
    cases rows with
    | nil => exact List.Perm.refl _
    | cons r' rest =>
      have htext : (stored r {}).rule.text ≠ [] := by
        rw [stored_text]
        exact h r r' rest rfl
      have hchain : chainOf (r :: r' :: rest) =
          stored r {} :: (((r' :: rest).map fun r => stored r {}).reverse ++ []) :=
        addRow_text htext (r' :: rest) []
      have hall : rulesOf (chainOf (r :: r' :: rest)) = chainOf (r :: r' :: rest) := by
        apply List.filter_eq_self.mpr
        intro n hn
        rw [hchain, List.append_nil, List.mem_cons, List.mem_reverse, List.mem_map] at hn
        rcases hn with rfl | ⟨q, _, rfl⟩
        · rfl
        · rfl
      rw [hall, hchain, List.append_nil, List.map_cons]
      exact (List.reverse_perm _).cons _

/-- A head with an empty text is lost to the next row. -/
theorem chainOf_lost {rows : List SecRecord} (h : ¬ HeadKept rows) :
    (rulesOf (chainOf rows)).length < rows.length := by
  obtain ⟨r, r', rest, hrows, htext⟩ : ∃ r r' rest, rows = r :: r' :: rest ∧ r.text = [] := by
    simp only [HeadKept, not_forall, ne_eq, not_not] at h
    obtain ⟨r, r', rest, hrows, htext⟩ := h
    exact ⟨r, r', rest, hrows, htext⟩
  have hempty : (stored r {}).rule.text = [] := by
    rw [stored_text]
    exact htext
  have hchain : chainOf (r :: r' :: rest) = rest.foldl addRow [stored r' (stored r {})] := by
    show rest.foldl addRow (addRow [stored r {}] r') = _
    rw [addRow, if_pos hempty]
  have hlen := addRow_length rest [stored r' (stored r {})]
  have hfilter : (rulesOf (chainOf rows)).length ≤ (chainOf rows).length := List.length_filter_le _ _
  rw [hrows, hchain] at hfilter
  rw [hrows, hchain, List.length_cons, List.length_cons]
  rw [List.length_singleton] at hlen
  omega

/-! ## The target bits -/

/-- The node a row should have. -/
def SecRecord.node (r : SecRecord) : LoadedNode where
  rule := {
    key := r.key.toInt, text := r.text, ruleid := r.id, catalog := r.catalog, target := r.target
    iTar := setTarget r.target 0 }
  pcreExp := some r.text
  pcreExtra := some r.text

theorem stored_node {r : SecRecord} (h : r.TargetEnds) : stored r {} = r.node := by
  have hiff : ∀ f, Names f r.targetSeen ↔ Names f r.target := fun f => ⟨h f, names_seen⟩
  rw [stored, r.fill_eq, setTarget_congr hiff]
  rfl

/-- A pointwise weaker test that holds as often holds of the same elements. -/
theorem countP_eq_imp {α : Type} {p q : α → Bool} : ∀ {l : List α}, (∀ a ∈ l, p a → q a) →
    l.countP p = l.countP q → ∀ a ∈ l, q a → p a
  | [], _, _, _, ha => absurd ha List.not_mem_nil
  | x :: l, hpq, hcount, a, ha => by
    have hrest : ∀ a ∈ l, p a → q a := fun b hb => hpq b (List.mem_cons_of_mem x hb)
    have hle : l.countP p ≤ l.countP q := List.countP_mono_left hrest
    have hx := hpq x List.mem_cons_self
    rw [List.countP_cons, List.countP_cons] at hcount
    have hsplit : l.countP p = l.countP q ∧ (q x → p x) := by
      cases hp : p x <;> cases hq : q x <;> simp only [hp, hq] at hcount hx ⊢ <;> simp at hcount hx ⊢ <;> omega
    rcases List.mem_cons.mp ha with rfl | ha
    · exact hsplit.2
    · exact countP_eq_imp hrest hsplit.1 a ha

theorem stored_perm_iff {rows : List SecRecord} :
    (rows.map fun r => stored r {}).Perm (rows.map SecRecord.node) ↔ ∀ r ∈ rows, r.TargetEnds := by
  constructor
  · intro hperm r hr f hseen
    have hcount := hperm.countP_eq fun n => getTarget f n.rule.iTar
    rw [List.countP_map, List.countP_map] at hcount
    have hbit : ∀ (t : List Byte), getTarget f (setTarget t 0) = true ↔ Names f t := by
      intro t
      rw [getTarget_setTarget, getTarget_zero]
      simp
    have hs : ∀ q : SecRecord, getTarget f (stored q {}).rule.iTar = true ↔ Names f q.targetSeen := by
      intro q
      rw [stored, q.fill_eq]
      exact hbit q.targetSeen
    have himp := countP_eq_imp
      (p := (fun n : LoadedNode => getTarget f n.rule.iTar) ∘ SecRecord.node)
      (q := (fun n : LoadedNode => getTarget f n.rule.iTar) ∘ fun r => stored r {})
      (fun q _ hq => (hs q).mpr (names_seen ((hbit q.target).mp hq))) hcount.symm r hr
    exact (hbit r.target).mp (himp ((hs r).mpr hseen))
  · intro h
    rw [List.map_congr_left fun r hr => stored_node (h r hr)]

/-! ## The loop -/

section
variable {compile study : List Byte → Bool}

/-- The expression of a row compiles and studies. -/
def SecRecord.Compiles (compile study : List Byte → Bool) (r : SecRecord) : Prop :=
  compile r.text = true ∧ study r.text = true

/-- The rows of a key, in order. -/
def rowsOf (k : Nat) (rows : List SecRecord) : List SecRecord :=
  rows.filter fun r => r.key.toInt = k

def Indexed (rows : List SecRecord) : Prop := ∀ r ∈ rows, 0 ≤ r.key.toInt ∧ r.key.toInt < RULE_SIZE

instance (rows : List SecRecord) : Decidable (Indexed rows) :=
  inferInstanceAs (Decidable (∀ r ∈ rows, _ ∧ _))

theorem compileNode_ok {r : SecRecord} (h : r.Compiles compile study) (n : LoadedNode) :
    compileNode compile study r (r.fill n) = (0, stored r n) := by
  simp [compileNode, r.strAt_text, h.1, h.2, stored]

theorem chainRow_ok {r : SecRecord} (h : r.Compiles compile study) (chain : List LoadedNode) :
    chainRow compile study r chain = (0, addRow chain r) := by
  cases chain with
  | nil => rfl
  | cons head follow =>
    rw [chainRow, addRow, compileNode_ok h, compileNode_ok h]
    split <;> rfl

/-- A loop that returns 0 has gone through every row; each chain took its own. -/
theorem ruleLoop_returns : ∀ (fuel : Nat) (rows : List SecRecord) {node node' : LoadedTable},
    (∀ r ∈ rows, r.Compiles compile study) →
    ruleLoop compile study fuel rows node = some (.returned 0 node') →
    Indexed rows ∧ ∀ k, node' k = (rowsOf k rows).foldl addRow (node k) := by
  intro fuel
  induction fuel with
  | zero =>
    intro rows node node' _ h
    cases h
  | succ fuel ih =>
    intro rows node node' hok h
    cases rows with
    | nil =>
      cases h
      exact ⟨fun r hr => absurd hr List.not_mem_nil, fun k => rfl⟩
    | cons r rows =>
      have hrow := hok r List.mem_cons_self
      have hrest : ∀ q ∈ rows, q.Compiles compile study := fun q hq => hok q (List.mem_cons_of_mem r hq)
      simp only [ruleLoop, chainRow_ok hrow, ↓reduceIte] at h
      split at h
      next hneg =>
        -- the row is read again
        have hindexed := (ih (r :: rows) hok h).1 r List.mem_cons_self
        omega
      next hneg =>
        split at h
        · cases h
        next hsmall =>
          obtain ⟨hindexed, hchains⟩ := ih rows hrest h
          refine ⟨fun q hq => ?_, fun k => ?_⟩
          · rcases List.mem_cons.mp hq with rfl | hq
            · exact ⟨Int.not_lt.mp hneg, Int.not_le.mp hsmall⟩
            · exact hindexed q hq
          · rw [hchains k, LoadedTable.set, rowsOf, rowsOf, List.filter_cons]
            by_cases hk : k = r.key.toInt.toNat
            · rw [if_pos hk, if_pos (by simp only [decide_eq_true_eq]; omega), List.foldl_cons, hk]
            · rw [if_neg hk, if_neg (by simp only [decide_eq_true_eq]; omega)]

/-- With keys that are indices the loop ends. -/
theorem ruleLoop_ends : ∀ (rows : List SecRecord) (node : LoadedTable),
    (∀ r ∈ rows, r.Compiles compile study) → Indexed rows →
    ∃ node', ruleLoop compile study (rows.length + 1) rows node = some (.returned 0 node') := by
  intro rows
  induction rows with
  | nil => exact fun node _ _ => ⟨node, rfl⟩
  | cons r rows ih =>
    intro node hok hindexed
    obtain ⟨hneg, hsmall⟩ := hindexed r List.mem_cons_self
    obtain ⟨node', hnode'⟩ := ih (node.set r.key.toInt.toNat (addRow (node r.key.toInt.toNat) r))
      (fun q hq => hok q (List.mem_cons_of_mem r hq)) fun q hq => hindexed q (List.mem_cons_of_mem r hq)
    refine ⟨node', ?_⟩
    rw [List.length_cons, ruleLoop]
    simp only [if_neg (Int.not_lt.mpr hneg), if_neg (Int.not_le.mpr hsmall),
      chainRow_ok (hok r List.mem_cons_self), if_true]
    exact hnode'

/-! ## Completeness -/

/-- Every chain of the array holds exactly the rows of its key, each once. -/
def Complete (rows : List SecRecord) (node : LoadedTable) : Prop :=
  ∀ k : Nat, (k : Int) < RULE_SIZE → (rulesOf (node k)).Perm ((rowsOf k rows).map SecRecord.node)

/-- Every key is an index, every head is kept, and every target ends in its column. -/
structure Loadable (rows : List SecRecord) : Prop where
  keys : Indexed rows
  heads : ∀ k, HeadKept (rowsOf k rows)
  targets : ∀ r ∈ rows, r.TargetEnds

theorem chains_complete_iff {rows : List SecRecord} :
    (rulesOf (chainOf rows)).Perm (rows.map SecRecord.node) ↔
      HeadKept rows ∧ ∀ r ∈ rows, r.TargetEnds := by
  by_cases hkept : HeadKept rows
  · rw [and_iff_right hkept, ← stored_perm_iff]
    have hperm := chainOf_kept hkept
    exact ⟨hperm.symm.trans, hperm.trans⟩
  · refine iff_of_false (fun hperm => ?_) fun h => hkept h.1
    have hlost := chainOf_lost hkept
    rw [hperm.length_eq, List.length_map] at hlost
    exact Nat.lt_irrefl _ hlost

theorem rows_complete_iff {rows : List SecRecord} {node : LoadedTable} (hindexed : Indexed rows)
    (hchains : ∀ k, node k = chainOf (rowsOf k rows)) : Complete rows node ↔ Loadable rows := by
  -- a key that is not an index has no rows
  have hnone : ∀ k : Nat, RULE_SIZE ≤ (k : Int) → rowsOf k rows = [] := by
    intro k hk
    apply List.filter_eq_nil_iff.mpr
    intro r hr heq
    have hlt := (hindexed r hr).2
    rw [of_decide_eq_true heq] at hlt
    omega
  constructor
  · intro h
    refine ⟨hindexed, fun k => ?_, fun r hr => ?_⟩
    · by_cases hk : (k : Int) < RULE_SIZE
      · have hperm := h k hk
        rw [hchains] at hperm
        exact (chains_complete_iff.mp hperm).1
      · rw [hnone k (Int.not_lt.mp hk)]
        exact fun _ _ _ hnil => by cases hnil
    · obtain ⟨hneg, hsmall⟩ := hindexed r hr
      have hkey : ((r.key.toInt.toNat : Nat) : Int) = r.key.toInt := Int.toNat_of_nonneg hneg
      have hperm := h r.key.toInt.toNat (by rw [hkey]; exact hsmall)
      rw [hchains] at hperm
      exact (chains_complete_iff.mp hperm).2 r (List.mem_filter.mpr ⟨hr, decide_eq_true hkey.symm⟩)
  · intro h k _
    rw [hchains]
    exact chains_complete_iff.mpr ⟨h.heads k, fun r hr => h.targets r (List.mem_of_mem_filter hr)⟩

/-- A table without the compiled expressions. -/
def LoadedTable.rules (node : LoadedTable) : RuleTable := fun k => (node k).map LoadedNode.rule

theorem rules_set (node : LoadedTable) (k : Nat) (chain : List LoadedNode) :
    LoadedTable.rules (node.set k chain) =
      RuleTable.set (LoadedTable.rules node) k (chain.map LoadedNode.rule) := by
  funext j
  unfold LoadedTable.rules LoadedTable.set RuleTable.set
  split <;> rfl

theorem loadRow_refines {r : SecRecord} (hok : r.Compiles compile study)
    (node : LoadedTable) : loadRow compile study r (LoadedTable.rules node) =
      (0, LoadedTable.rules (node.set r.key.toInt.toNat (addRow (node r.key.toInt.toNat) r))) := by
  have hpass : ¬ (compile (r.strAt 32) = false ∨ study (r.strAt 32) = false) := by
    rw [r.strAt_text, hok.1, hok.2]
    decide
  rw [rules_set, loadRow]
  cases hchain : node r.key.toInt.toNat with
  | nil =>
    have hnil : LoadedTable.rules node r.key.toInt.toNat = [] := by
      show (node r.key.toInt.toNat).map LoadedNode.rule = []
      rw [hchain, List.map_nil]
    have hsame : RuleTable.set (LoadedTable.rules node) r.key.toInt.toNat [] = LoadedTable.rules node := by
      funext j
      unfold RuleTable.set
      split
      next hj =>
        rw [hj]
        exact hnil.symm
      · rfl
    simp only [hnil, addRow, List.map_nil, hsame]
  | cons head follow =>
    have hcons : LoadedTable.rules node r.key.toInt.toNat = head.rule :: follow.map LoadedNode.rule := by
      show (node r.key.toInt.toNat).map LoadedNode.rule = _
      rw [hchain, List.map_cons]
    simp only [hcons, addRow]
    by_cases htext : head.rule.text = []
    · rw [if_pos htext, if_pos htext, if_neg hpass]
      rfl
    · rw [if_neg htext, if_neg htext, if_neg hpass]
      rfl

/-- Where every key is an index and every expression compiles, the table is that
of `Rules.Load`. -/
theorem ruleLoop_refines : ∀ (rows : List SecRecord) (node : LoadedTable),
    (∀ r ∈ rows, r.Compiles compile study) → Indexed rows →
    ∃ node', ruleLoop compile study (rows.length + 1) rows node = some (.returned 0 node') ∧
      loadRows compile study rows (LoadedTable.rules node) =
        some (0, LoadedTable.rules node') := by
  intro rows
  induction rows with
  | nil => exact fun node _ _ => ⟨node, rfl, rfl⟩
  | cons r rows ih =>
    intro node hok hindexed
    have hrow := hok r List.mem_cons_self
    obtain ⟨hneg, hsmall⟩ := hindexed r List.mem_cons_self
    obtain ⟨node', hrun, hload⟩ := ih (node.set r.key.toInt.toNat (addRow (node r.key.toInt.toNat) r))
      (fun q hq => hok q (List.mem_cons_of_mem r hq)) (fun q hq => hindexed q (List.mem_cons_of_mem r hq))
    refine ⟨node', ?_, ?_⟩
    · rw [List.length_cons, ruleLoop]
      simp only [if_neg (Int.not_lt.mpr hneg), if_neg (Int.not_le.mpr hsmall), chainRow_ok hrow, if_true]
      exact hrun
    · have hkey : ¬ (r.key.toInt < 0 ∨ RULE_SIZE ≤ r.key.toInt) := by omega
      rw [loadRows, if_neg hkey, loadRow_refines hrow]
      exact hload

end

/-- A row of SecRule with an expression, for the URL. -/
def urlRecord (text : List Byte) (key : Int32) (h : (0 : Byte) ∉ text ∧ text.length < 512) : SecRecord where
  id := str "1001"
  text := text
  catalog := str "sqli"
  target := str "URL"
  chain := []
  key := key
  id_fits := by decide
  text_fits := h
  catalog_fits := by decide
  target_fits := by decide
  chain_fits := by decide

/-- Two rows of one key. -/
def twoRecords : List SecRecord :=
  [urlRecord (str "union") 7 (by decide), urlRecord (str "select") 7 (by decide)]

end WafProxy
