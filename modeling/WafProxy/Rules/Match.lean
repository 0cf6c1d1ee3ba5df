import Mathlib.Data.List.Infix
import WafProxy.Http.Detect

/-
  Keyword hits and rules — pat.c and the decision of detect_module.c

  `acsmSearch` (acsmx.c) is taken as what it is documented to be: it calls
  `match_hook` once for every occurrence, without regard to case, of every
  loaded keyword, in some order (`AcsmSearch`). `pcre_match_exp` is an
  arbitrary predicate on a rule and a text, `node` the table of rule chains.

  Correspondence (C ↔ Lean):
    `key_node_t`, `rule_node`                 ↔ `KeyNode`, `RuleNode`
    `_boundary_check`, `word_boundary_check`  ↔ `boundaryCheck`, `wordBoundaryCheck`
    `match_hook`, `search_multi_pattern`      ↔ `matchHook`, `searchMultiPattern`
    the `while` over a chain, the `for` over
    `index[0..cnt)`                           ↔ `matchChain`, `matchIds`
    `rule_check_url`, `_arg`, …               ↔ `ruleCheckUrl`, `ruleCheckArg`, …
    `RET_FAIL`, with the rule that is logged  ↔ `some rule`

  `log_attack`, called with the rule that matched, changes nothing here.
-/

namespace WafProxy
open Lib

/-- `key_node_t`. -/
structure KeyNode where
  txt : List Byte
  id : Nat
  flag : Nat
  deriving DecidableEq, Repr

/-- `rule_node`; the compiled expression is a function of `text`. -/
structure RuleNode where
  ruleid : List Byte := []
  target : List Byte := []
  iTar : Nat := 0
  catalog : List Byte := []
  key : Int := 0
  text : List Byte := []
  disable : Bool := false
  deriving DecidableEq, Repr

/-- `node`: the chain that starts at `node[id]`. -/
abbrev RuleTable := Nat → List RuleNode

/-! ## Target bits -/

/-- `GET_BIT`, `SET_BIT`. -/
def getBit (x n : Nat) : Bool := x.testBit n

def setBit (x n : Nat) : Nat := x ||| 2 ^ n

/-- The fields a rule can name. -/
inductive Field where
  | url
  | arg
  | agent
  | cookie
  deriving DecidableEq, Repr

/-- The bit of `GET_URL_TARGET`, `GET_ARG_TARGET`, … -/
def Field.bit : Field → Nat
  | .url => 0
  | .arg => 1
  | .agent => 2
  | .cookie => 3

def getTarget (f : Field) (iTar : Nat) : Bool := getBit iTar f.bit

/-! ## Boundaries -/

/-- `_boundary_char_check`: not a word character. -/
def boundaryCharCheck (c : Byte) : Bool :=
  ¬ (isdigit c || islower c || isupper c || c = ch '_' || c = ch '-')

/-- `_boundary_check` on the left and on the right. -/
def boundaryCheckLeft (buf : List Byte) (index : Nat) : Bool :=
  index = 0 || boundaryCharCheck (buf.getD (index - 1) 0)

def boundaryCheckRight (name buf : List Byte) (index : Nat) : Bool :=
  index + name.length = buf.length || boundaryCharCheck (buf.getD (index + name.length) 0)

def wordBoundaryCheck (name buf : List Byte) (index flag : Nat) : Bool :=
  if flag = 0 then true
  else if buf.length ≤ index ∨ buf.length - index < name.length then false
  else
    match flag with
    | 1 => boundaryCheckLeft buf index
    | 2 => boundaryCheckRight name buf index
    | 3 => boundaryCheckLeft buf index && boundaryCheckRight name buf index
    | _ => false

/-! ## Hits -/

/-- The keyword stands at `index`, without regard to case. -/
def OccursAt (txt text : List Byte) (index : Nat) : Prop :=
  index + txt.length ≤ text.length ∧ startsWithCase (text.drop index) txt = true

instance (txt text : List Byte) (index : Nat) : Decidable (OccursAt txt text index) :=
  inferInstanceAs (Decidable (_ ∧ _))

/-- Every occurrence of every keyword in a text. -/
def occurrences (keys : List KeyNode) (text : List Byte) : List (KeyNode × Nat) :=
  keys.flatMap fun k =>
    ((List.range text.length).filter fun i => OccursAt k.txt text i).map fun i => (k, i)

/-- What `acsmSearch` is relied on for: `calls text` are its calls of
`match_hook`. -/
structure AcsmSearch (keys : List KeyNode) where
  calls : List Byte → List (KeyNode × Nat)
  once : ∀ text, (calls text).Perm (occurrences keys text)

/-- `index[20]` of `key_data`. -/
def HIT_MAX : Nat := 20

/-- `match_hook`; `index` is `p_data->index[0..cnt)`. -/
def matchHook (text : List Byte) (index : List Nat) (call : KeyNode × Nat) : List Nat :=
  if wordBoundaryCheck call.1.txt text call.2 call.1.flag then
    if HIT_MAX ≤ index.length then index else index ++ [call.1.id]
  else index

section
variable {keys : List KeyNode} (acsm : AcsmSearch keys) (pcre : RuleNode → List Byte → Bool)
  (node : RuleTable)

/-- `search_multi_pattern`: the ids it records. -/
def searchMultiPattern (text : List Byte) : List Nat :=
  if text = [] then [] else (acsm.calls text).foldl (matchHook text) []

/-! ## The four checks -/

/-- The `while` over a chain: the first rule that is applied and matches. All
four checks test the bit of ARG. -/
def matchChain (text : List Byte) : List RuleNode → Option RuleNode
  | [] => none
  | r :: chain =>
    if r.disable ∨ getTarget .arg r.iTar = false then matchChain text chain
    else if pcre r text then some r
    else matchChain text chain

def matchIds (text : List Byte) : List Nat → Option RuleNode
  | [] => none
  | id :: ids =>
    match matchChain pcre text (node id) with
    | some r => some r
    | none => matchIds text ids

/-- The common body of the four checks. -/
def ruleCheckText (text : List Byte) : Option RuleNode :=
  matchIds pcre node text (searchMultiPattern acsm text)

def ruleCheckUrl (info : Http) : Option RuleNode :=
  ruleCheckText acsm pcre node (info.str.url.p.getD [])

def ruleCheckHeaderAgent (info : Http) : Option RuleNode :=
  ruleCheckText acsm pcre node (info.str.agent.p.getD [])

def ruleCheckHeaderCookie (info : Http) : Option RuleNode :=
  ruleCheckText acsm pcre node (info.str.cookie.p.getD [])

/-- The `for` over the argument table. -/
def ruleCheckArgs : List HttpArg → Option RuleNode
  | [] => none
  | item :: args =>
    match ruleCheckText acsm pcre node (item.value.p.getD []) with
    | some r => some r
    | none => ruleCheckArgs args

def ruleCheckArg (info : Http) : Option RuleNode := ruleCheckArgs acsm pcre node info.arg.arg

/-- `rule_check`. -/
def ruleCheck (info : Http) : Option RuleNode :=
  match ruleCheckUrl acsm pcre node info with
  | some r => some r
  | none =>
    match ruleCheckArg acsm pcre node info with
    | some r => some r
    | none =>
      match ruleCheckHeaderAgent acsm pcre node info with
      | some r => some r
      | none => ruleCheckHeaderCookie acsm pcre node info

def RET_OK : Int := 1

/-- `module_detect_entry`: the rule check is the only module. -/
def moduleDetectEntry (info : Http) : Int :=
  if (ruleCheck acsm pcre node info).isSome then -1 else RET_OK

end

/-! ## What is recorded -/

/-- The boundary a keyword asks for, around an occurrence. -/
def Boundary (k : KeyNode) (text : List Byte) (i : Nat) : Prop :=
  let left := i = 0 ∨ ∃ c ∈ text[i - 1]?, boundaryCharCheck c = true
  let right := i + k.txt.length = text.length ∨
    ∃ c ∈ text[i + k.txt.length]?, boundaryCharCheck c = true
  match k.flag with
  | 0 => True
  | 1 => left
  | 2 => right
  | 3 => left ∧ right
  | _ => False

/-- A keyword occurs with its boundary. -/
def Hit (keys : List KeyNode) (text : List Byte) (k : KeyNode) (i : Nat) : Prop :=
  k ∈ keys ∧ i < text.length ∧ OccursAt k.txt text i ∧ Boundary k text i

theorem boundaryLeft_iff {text : List Byte} {i : Nat} (h : i < text.length) :
    boundaryCheckLeft text i = true ↔ i = 0 ∨ ∃ c ∈ text[i - 1]?, boundaryCharCheck c = true := by
  have hlt : i - 1 < text.length := by omega
  simp [boundaryCheckLeft, List.getElem?_eq_getElem hlt]

theorem boundaryRight_iff {name text : List Byte} {i : Nat} (h : i + name.length ≤ text.length) :
    boundaryCheckRight name text i = true ↔ i + name.length = text.length ∨
      ∃ c ∈ text[i + name.length]?, boundaryCharCheck c = true := by
  unfold boundaryCheckRight
  rcases Nat.lt_or_ge (i + name.length) text.length with hlt | hge
  · simp [List.getElem?_eq_getElem hlt]
  · have heq : i + name.length = text.length := by omega
    simp [heq]

theorem wordBoundary_iff {k : KeyNode} {text : List Byte} {i : Nat} (hi : i < text.length)
    (ho : OccursAt k.txt text i) : wordBoundaryCheck k.txt text i k.flag = true ↔ Boundary k text i := by
  have hlen := ho.1
  unfold wordBoundaryCheck Boundary
  by_cases h0 : k.flag = 0
  · simp [h0]
  · rw [if_neg h0, if_neg (by omega)]
    split
    · next h1 => simp only [h1]; exact boundaryLeft_iff hi
    · next h2 => simp only [h2]; exact boundaryRight_iff hlen
    · next h3 =>
      simp only [h3, Bool.and_eq_true]
      rw [boundaryLeft_iff hi, boundaryRight_iff hlen]
    · next h1 h2 h3 =>
      split
      · contradiction
      · contradiction
      · contradiction
      · contradiction
      · simp

/-- The hits of a text in the order of the calls. -/
def hits {keys : List KeyNode} (acsm : AcsmSearch keys) (text : List Byte) : List (KeyNode × Nat) :=
  (acsm.calls text).filter fun call => wordBoundaryCheck call.1.txt text call.2 call.1.flag

theorem mem_occurrences {keys : List KeyNode} {text : List Byte} {k : KeyNode} {i : Nat} :
    (k, i) ∈ occurrences keys text ↔ k ∈ keys ∧ i < text.length ∧ OccursAt k.txt text i := by
  simp only [occurrences, List.mem_flatMap, List.mem_map, List.mem_filter, List.mem_range,
    decide_eq_true_eq, Prod.mk.injEq]
  constructor
  · rintro ⟨k', hk, i', ⟨hi, ho⟩, rfl, rfl⟩
    exact ⟨hk, hi, ho⟩
  · rintro ⟨hk, hi, ho⟩
    exact ⟨k, hk, i, ⟨hi, ho⟩, rfl, rfl⟩

/-- `acsmSearch` and the boundary check find exactly the hits. -/
theorem mem_hits {keys : List KeyNode} (acsm : AcsmSearch keys) {text : List Byte} {k : KeyNode}
    {i : Nat} : (k, i) ∈ hits acsm text ↔ Hit keys text k i := by
  rw [hits, List.mem_filter, (acsm.once text).mem_iff, mem_occurrences, Hit]
  constructor
  · rintro ⟨⟨hk, hi, ho⟩, hb⟩
    exact ⟨hk, hi, ho, (wordBoundary_iff hi ho).mp hb⟩
  · rintro ⟨hk, hi, ho, hb⟩
    exact ⟨⟨hk, hi, ho⟩, (wordBoundary_iff hi ho).mpr hb⟩

theorem foldl_matchHook (text : List Byte) (calls : List (KeyNode × Nat)) : ∀ (index : List Nat),
    index.length ≤ HIT_MAX →
    calls.foldl (matchHook text) index =
      (index ++ (calls.filter fun call =>
        wordBoundaryCheck call.1.txt text call.2 call.1.flag).map fun call => call.1.id).take
          HIT_MAX := by
  induction calls with
  | nil =>
    intro index h
    simp [List.take_of_length_le h]
  | cons call calls ih =>
    intro index h
    rw [List.foldl_cons, matchHook]
    by_cases hb : wordBoundaryCheck call.1.txt text call.2 call.1.flag = true
    · rw [if_pos hb]
      simp only [List.filter_cons, hb, if_true, List.map_cons]
      by_cases hfull : HIT_MAX ≤ index.length
      · rw [if_pos hfull, ih index h]
        have hlen : index.length = HIT_MAX := by omega
        rw [List.take_append_of_le_length (by omega), List.take_append_of_le_length (by omega)]
      · rw [if_neg hfull, ih _ (by simp; omega)]
        simp
    · rw [if_neg hb]
      simp only [List.filter_cons, hb]
      exact ih index h

/-- **The ids recorded for a text: those of its first twenty hits.** -/
theorem searchMultiPattern_eq {keys : List KeyNode} (acsm : AcsmSearch keys) (text : List Byte) :
    searchMultiPattern acsm text = ((hits acsm text).take HIT_MAX).map fun hit => hit.1.id := by
  unfold searchMultiPattern
  by_cases h : text = []
  · subst h
    have hnil : acsm.calls [] = [] := by
      have hp := acsm.once []
      simp only [occurrences, List.length_nil, List.range_zero, List.filter_nil, List.map_nil,
        List.flatMap_eq_nil_iff.mpr (fun _ _ => rfl)] at hp
      exact hp.eq_nil
    simp [hits, hnil]
  · rw [if_neg h, foldl_matchHook text _ [] (Nat.zero_le _), List.nil_append, hits, List.map_take]

/-! ## What is applied -/

section
variable {keys : List KeyNode} {acsm : AcsmSearch keys} {pcre : RuleNode → List Byte → Bool}
  {node : RuleTable} {text : List Byte} {r : RuleNode}

/-- A rule the checks apply: enabled, with the bit of ARG. -/
def Applied (r : RuleNode) : Prop := r.disable = false ∧ getTarget .arg r.iTar = true

instance (r : RuleNode) : Decidable (Applied r) := inferInstanceAs (Decidable (_ ∧ _))

theorem matchChain_some {chain : List RuleNode} (h : matchChain pcre text chain = some r) :
    r ∈ chain ∧ Applied r ∧ pcre r text = true := by
  induction chain with
  | nil => cases h
  | cons q chain ih =>
    rw [matchChain] at h
    split at h
    · obtain ⟨hm, hr⟩ := ih h
      exact ⟨List.mem_cons_of_mem _ hm, hr⟩
    · next hq =>
      split at h
      · next hp =>
        cases h
        rw [not_or, Bool.not_eq_true, Bool.not_eq_false] at hq
        exact ⟨List.mem_cons_self, hq, hp⟩
      · obtain ⟨hm, hr⟩ := ih h
        exact ⟨List.mem_cons_of_mem _ hm, hr⟩

theorem matchChain_isSome {chain : List RuleNode} (hm : r ∈ chain) (ha : Applied r)
    (hp : pcre r text = true) : (matchChain pcre text chain).isSome := by
  induction chain with
  | nil => cases hm
  | cons q chain ih =>
    rw [matchChain]
    split
    · next hq =>
      rcases List.mem_cons.mp hm with rfl | hm
      · obtain ⟨h1, h2⟩ := ha
        rw [h1, h2] at hq
        simp at hq
      · exact ih hm
    · split
      · rfl
      · next hno =>
        rcases List.mem_cons.mp hm with rfl | hm
        · contradiction
        · exact ih hm

/-- A rule in the chain of one of the ids. -/
def Reached (node : RuleTable) (ids : List Nat) (r : RuleNode) : Prop := ∃ id ∈ ids, r ∈ node id

theorem matchIds_some {ids : List Nat} (h : matchIds pcre node text ids = some r) :
    Reached node ids r ∧ Applied r ∧ pcre r text = true := by
  induction ids with
  | nil => cases h
  | cons id ids ih =>
    rw [matchIds] at h
    split at h
    · next q hq =>
      cases h
      obtain ⟨hm, hr⟩ := matchChain_some hq
      exact ⟨⟨id, List.mem_cons_self, hm⟩, hr⟩
    · obtain ⟨⟨j, hj, hm⟩, hr⟩ := ih h
      exact ⟨⟨j, List.mem_cons_of_mem _ hj, hm⟩, hr⟩

theorem matchIds_isSome {ids : List Nat} (hm : Reached node ids r) (ha : Applied r)
    (hp : pcre r text = true) : (matchIds pcre node text ids).isSome := by
  induction ids with
  | nil => obtain ⟨id, hid, -⟩ := hm; cases hid
  | cons id ids ih =>
    rw [matchIds]
    split
    · rfl
    · next hnone =>
      obtain ⟨j, hj, hr⟩ := hm
      rcases List.mem_cons.mp hj with rfl | hj
      · have hsome : (matchChain pcre text _).isSome = true := matchChain_isSome hr ha hp
        rw [hnone] at hsome
        cases hsome
      · exact ih ⟨j, hj, hr⟩

end

end WafProxy
