import WafProxy.Log
import WafProxy.Sqlite
import WafProxy.Rules.Match

/-
  The rule table — load_rule.c

  The rows of SecRule come as the packed records `fill_record` has stored, and
  the loop reads C strings in them: a column that is full runs on into the next
  one. `node` starts as zeroed memory: every chain is one empty rule. `compile`
  and `study` say whether PCRE accepts an expression.

  `none` stands for the two rows the loop does not get past: one with a
  negative key is read again for ever, and one with a key from RULE_SIZE on is
  written behind the array.

  What is proved:
    1. `fillRule_eq` — what a row fills into a rule, by its columns.
    2. `loadRule_exact` — the bits of the loaded rules are those their target
       strings name, unless a row has an empty expression or a full target
       column with a name behind it.

  Correspondence (C ↔ Lean):
    `sec_rule_t` over `record->data`      ↔ `SecRecord`, with its `bytes`
    `_set_target`                         ↔ `setTarget`
    the five `strncpy` and `_set_target`  ↔ `fillRule`
    one pass of the `while`               ↔ `loadRow`
    `load_rule`, with `node`              ↔ `loadRule`
-/

namespace WafProxy
open Lib

/-- `sec_rule_t`, as `fill_record` has stored it: the texts of the columns, which
have no NUL and fit, and zeros behind them. The expression leaves room for a NUL. -/
structure SecRecord where
  id : List Byte
  text : List Byte
  catalog : List Byte
  target : List Byte
  chain : List Byte
  key : Int32
  id_fits : (0 : Byte) ∉ id ∧ id.length ≤ 32
  text_fits : (0 : Byte) ∉ text ∧ text.length < 512
  catalog_fits : (0 : Byte) ∉ catalog ∧ catalog.length ≤ 32
  target_fits : (0 : Byte) ∉ target ∧ target.length ≤ 32
  chain_fits : (0 : Byte) ∉ chain ∧ chain.length ≤ 32

def column (n : Nat) (text : List Byte) : List Byte := text ++ zeros (n - text.length)

def SecRecord.bytes (r : SecRecord) : List Byte :=
  column 32 r.id ++ (column 512 r.text ++ (column 32 r.catalog ++ (column 32 r.target ++
    (column 32 r.chain ++ intBytes r.key))))

/-- The C string at an offset. -/
def SecRecord.strAt (r : SecRecord) (off : Nat) : List Byte := cString (r.bytes.drop off)

def RULE_SIZE : Int := 1000

/-- The word a target string names a field by. -/
def Field.name : Field → List Byte
  | .url => str "URL"
  | .arg => str "ARG"
  | .agent => str "AGENT"
  | .cookie => str "COOKIE"

/-- `strstr` finds the word in the target string. -/
def Names (f : Field) (target : List Byte) : Prop := f.name <:+: target

instance (f : Field) (target : List Byte) : Decidable (Names f target) :=
  inferInstanceAs (Decidable (_ <:+: _))

/-- One `if` of `_set_target`. -/
def setField (f : Field) (target : List Byte) (iTar : Nat) : Nat :=
  if Names f target then setBit iTar f.bit else iTar

/-- `_set_target`. -/
def setTarget (target : List Byte) (iTar : Nat) : Nat :=
  setField .cookie target (setField .agent target (setField .arg target (setField .url target iTar)))

/-- The rule a row fills in, over a zeroed one or over the head of a chain. -/
def fillRule (row : SecRecord) (r : RuleNode) : RuleNode :=
  { r with
    key := row.key.toInt
    text := (row.strAt 32).take 512
    ruleid := (row.strAt 0).take 32
    catalog := (row.strAt 544).take 32
    target := (row.strAt 576).take 32
    iTar := setTarget (row.strAt 576) r.iTar }

/-- The zeroed `node`. -/
def emptyTable : RuleTable := fun _ => [{}]

def RuleTable.set (node : RuleTable) (id : Nat) (chain : List RuleNode) : RuleTable :=
  fun j => if j = id then chain else node j

section
variable (compile study : List Byte → Bool)

/-- The `while` body behind the test of the key: 0 to go on, -1 to return. -/
def loadRow (row : SecRecord) (node : RuleTable) : Int × RuleTable :=
  let id := row.key.toInt.toNat
  match node id with
  | [] => (0, node)
  | head :: follow =>
    if head.text = [] then
      let node := node.set id (fillRule row head :: follow)
      if compile (row.strAt 32) = false ∨ study (row.strAt 32) = false then (-1, node) else (0, node)
    else if compile (row.strAt 32) = false ∨ study (row.strAt 32) = false then (-1, node)
    else (0, node.set id (head :: fillRule row {} :: follow))

def loadRows : List SecRecord → RuleTable → Option (Int × RuleTable)
  | [], node => some (0, node)
  | row :: rows, node =>
    if row.key.toInt < 0 ∨ RULE_SIZE ≤ row.key.toInt then none
    else
      match loadRow compile study row node with
      | (0, node) => loadRows rows node
      | (ret, node) => some (ret, node)

/-- `load_rule`: the value it returns and the table it leaves. -/
def loadRule (rows : List SecRecord) : Option (Int × RuleTable) := loadRows compile study rows emptyTable

end

/-! ## What is read of a record -/

theorem cString_column {n : Nat} {text rest : List Byte} (h : (0 : Byte) ∉ text) :
    cString (column n text ++ rest) = if text.length < n then text else text ++ cString rest := by
  have hne : ∀ b ∈ text, decide (b ≠ 0) = true := by
    intro b hb
    exact decide_eq_true fun h0 => h (h0 ▸ hb)
  rw [column, cString, List.append_assoc, List.takeWhile_append_of_pos hne]
  split
  next hlt =>
    rw [show n - text.length = n - text.length - 1 + 1 by omega]
    exact List.append_nil _
  next hle =>
    rw [Nat.sub_eq_zero_of_le (Nat.not_lt.mp hle)]
    rfl

theorem length_column {n : Nat} {text : List Byte} (h : text.length ≤ n) : (column n text).length = n := by
  rw [column, List.length_append, zeros, List.length_replicate]
  omega

/-- A column is copied as it is, with or without a NUL behind it. -/
theorem take_column {n : Nat} {text rest : List Byte} (h : (0 : Byte) ∉ text) (hle : text.length ≤ n) :
    (cString (column n text ++ rest)).take n = text := by
  rw [cString_column h]
  split
  · exact List.take_of_length_le hle
  next hlt => exact List.take_left' (by omega)

namespace SecRecord
variable (r : SecRecord)

theorem drop_text : r.bytes.drop 32 = column 512 r.text ++ (column 32 r.catalog ++
    (column 32 r.target ++ (column 32 r.chain ++ intBytes r.key))) :=
  List.drop_left' (length_column r.id_fits.2)

theorem drop_catalog : r.bytes.drop 544 = column 32 r.catalog ++
    (column 32 r.target ++ (column 32 r.chain ++ intBytes r.key)) := by
  rw [show 544 = 32 + 512 from rfl, ← List.drop_drop, drop_text]
  exact List.drop_left' (length_column (Nat.le_of_lt r.text_fits.2))

theorem drop_target : r.bytes.drop 576 = column 32 r.target ++ (column 32 r.chain ++ intBytes r.key) := by
  rw [show 576 = 544 + 32 from rfl, ← List.drop_drop, drop_catalog]
  exact List.drop_left' (length_column r.catalog_fits.2)

theorem strAt_text : r.strAt 32 = r.text := by
  rw [strAt, drop_text, cString_column r.text_fits.1, if_pos r.text_fits.2]

/-- What `_set_target` reads: a target that fills its column runs on into the next. -/
def targetSeen : List Byte :=
  if r.target.length < 32 then r.target else r.target ++ cString (column 32 r.chain ++ intBytes r.key)

theorem strAt_target : r.strAt 576 = r.targetSeen := by
  rw [strAt, drop_target, cString_column r.target_fits.1, targetSeen]

end SecRecord

theorem fillRule_eq (r : SecRecord) (q : RuleNode) : fillRule r q = { q with
    key := r.key.toInt, text := r.text, ruleid := r.id, catalog := r.catalog, target := r.target
    iTar := setTarget r.targetSeen q.iTar } := by
  have hid : (r.strAt 0).take 32 = r.id := take_column r.id_fits.1 r.id_fits.2
  have htext : r.text.take 512 = r.text := List.take_of_length_le (Nat.le_of_lt r.text_fits.2)
  have hcatalog : (r.strAt 544).take 32 = r.catalog := by
    rw [SecRecord.strAt, r.drop_catalog]
    exact take_column r.catalog_fits.1 r.catalog_fits.2
  have htarget : (r.strAt 576).take 32 = r.target := by
    rw [SecRecord.strAt, r.drop_target]
    exact take_column r.target_fits.1 r.target_fits.2
  rw [fillRule, r.strAt_text, hid, htext, hcatalog, htarget, r.strAt_target]

/-! ## The bits a target string sets -/

theorem getTarget_setField {f g : Field} {target : List Byte} {iTar : Nat} :
    getTarget g (setField f target iTar) = true ↔
      (f = g ∧ Names f target) ∨ getTarget g iTar = true := by
  unfold setField
  by_cases h : Names f target
  · rw [if_pos h]
    simp only [getTarget, getBit, setBit, Nat.testBit_or, Nat.testBit_two_pow, Bool.or_eq_true,
      decide_eq_true_eq, h, and_true]
    have hbit : f.bit = g.bit ↔ f = g := by cases f <;> cases g <;> decide
    rw [hbit]
    exact or_comm
  · rw [if_neg h]
    simp [h]

theorem getTarget_setTarget {f : Field} {target : List Byte} {iTar : Nat} :
    getTarget f (setTarget target iTar) = true ↔ Names f target ∨ getTarget f iTar = true := by
  simp only [setTarget, getTarget_setField]
  cases f <;> simp

@[simp] theorem getTarget_zero (f : Field) : getTarget f 0 = false := by
  cases f <;> decide

/-- Behind the target column no field is named. -/
def SecRecord.TargetEnds (r : SecRecord) : Prop := ∀ f, Names f r.targetSeen → Names f r.target

theorem names_seen {r : SecRecord} {f : Field} (h : Names f r.target) : Names f r.targetSeen := by
  unfold SecRecord.targetSeen
  split
  · exact h
  · exact h.trans (List.prefix_append _ _).isInfix

theorem setTarget_congr {a b : List Byte} (h : ∀ f, Names f a ↔ Names f b) (iTar : Nat) :
    setTarget a iTar = setTarget b iTar := by
  have hone : ∀ (f : Field) (n : Nat), setField f a n = setField f b n := by
    intro f n
    unfold setField
    by_cases hf : Names f a
    · rw [if_pos hf, if_pos ((h f).mp hf)]
    · rw [if_neg hf, if_neg fun hb => hf ((h f).mpr hb)]
  simp only [setTarget, hone]

/-! ## The table -/

/-- The bits of a rule are those its target string names. -/
def RuleNode.Exact (r : RuleNode) : Prop := ∀ f, getTarget f r.iTar = true ↔ Names f r.target

theorem RuleNode.exact_zero : ({} : RuleNode).Exact := by
  intro f
  cases f <;> decide

theorem fillRule_exact {row : SecRecord} {r : RuleNode} (hends : row.TargetEnds) (h : r.iTar = 0) :
    (fillRule row r).Exact := by
  intro f
  rw [fillRule_eq]
  show getTarget f (setTarget row.targetSeen r.iTar) = true ↔ Names f row.target
  rw [getTarget_setTarget, h, getTarget_zero]
  simp only [Bool.false_eq_true, or_false]
  exact ⟨hends f, names_seen⟩

theorem fillRule_text (row : SecRecord) (r : RuleNode) : (fillRule row r).text = row.text := by
  rw [fillRule_eq]

/-- Every rule is exact, and a head without text is still zeroed. -/
structure TableExact (node : RuleTable) : Prop where
  exact : ∀ id, ∀ r ∈ node id, r.Exact
  head : ∀ id r, (node id).head? = some r → r.text = [] → r.iTar = 0

theorem emptyTable_exact : TableExact emptyTable where
  exact id r hr := by
    rw [List.mem_singleton.mp hr]
    exact RuleNode.exact_zero
  head id r hr _ := by
    cases hr
    rfl

/-- Replacing a chain by exact rules under a head that carries text. -/
theorem TableExact.set {node : RuleTable} (h : TableExact node) {id : Nat} {head : RuleNode}
    {follow : List RuleNode} (hex : ∀ r ∈ head :: follow, r.Exact) (ht : head.text ≠ []) :
    TableExact (node.set id (head :: follow)) where
  exact j r hr := by
    unfold RuleTable.set at hr
    split at hr
    · exact hex r hr
    · exact h.exact j r hr
  head j r hr htext := by
    unfold RuleTable.set at hr
    split at hr
    · cases hr
      exact absurd htext ht
    · exact h.head j r hr htext

section
variable {compile study : List Byte → Bool}

theorem loadRow_exact {row : SecRecord} {node node' : RuleTable} {ret : Int} (hrow : row.text ≠ [] ∧ row.TargetEnds)
    (h : TableExact node) (he : loadRow compile study row node = (ret, node')) :
    TableExact node' := by
  unfold loadRow at he
  cases hchain : node row.key.toInt.toNat with
  | nil =>
    simp only [hchain] at he
    cases he
    exact h
  | cons head follow =>
    have hmem : ∀ r ∈ head :: follow, r.Exact := hchain ▸ h.exact row.key.toInt.toNat
    simp only [hchain] at he
    by_cases ht : head.text = []
    · have hz : head.iTar = 0 := h.head row.key.toInt.toNat head (by rw [hchain]; rfl) ht
      have hset : TableExact (node.set row.key.toInt.toNat (fillRule row head :: follow)) := by
        apply h.set _ ((fillRule_text row head).symm ▸ hrow.1)
        intro r hr
        rcases List.mem_cons.mp hr with rfl | hr
        · exact fillRule_exact hrow.2 hz
        · exact hmem r (List.mem_cons_of_mem _ hr)
      rw [if_pos ht] at he
      split at he
      · cases he; exact hset
      · cases he; exact hset
    · rw [if_neg ht] at he
      split at he
      · cases he
        exact h
      · cases he
        apply h.set _ ht
        intro r hr
        rcases List.mem_cons.mp hr with rfl | hr
        · exact hmem r List.mem_cons_self
        · rcases List.mem_cons.mp hr with rfl | hr
          · exact fillRule_exact hrow.2 rfl
          · exact hmem r (List.mem_cons_of_mem _ hr)

theorem loadRows_exact {rows : List SecRecord} : ∀ {node node' : RuleTable} {ret : Int},
    (∀ row ∈ rows, row.text ≠ [] ∧ row.TargetEnds) → TableExact node →
    loadRows compile study rows node = some (ret, node') → TableExact node' := by
  induction rows with
  | nil =>
    intro node node' ret _ h he
    cases he
    exact h
  | cons row rows ih =>
    intro node node' ret hrows h he
    rw [loadRows] at he
    split at he
    · cases he
    · have hrow := hrows row List.mem_cons_self
      split at he
      · next next hnext =>
        apply ih (fun q hq => hrows q (List.mem_cons_of_mem _ hq)) _ he
        exact loadRow_exact hrow h hnext
      · next hnext =>
        cases he
        exact loadRow_exact hrow h hnext

/-- The loaded bits are those the target strings name, unless a row has an
empty expression, as its head is filled again by the next row of its key, or its
target runs on into a name. -/
theorem loadRule_exact {rows : List SecRecord} {node : RuleTable} {ret : Int}
    (hrows : ∀ row ∈ rows, row.text ≠ [] ∧ row.TargetEnds) (h : loadRule compile study rows = some (ret, node))
    {id : Nat} {r : RuleNode} (hr : r ∈ node id) : r.Exact :=
  (loadRows_exact hrows emptyTable_exact h).exact id r hr

end

end WafProxy
