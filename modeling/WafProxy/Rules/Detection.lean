import WafProxy.Http.Backward
import WafProxy.Rules.AcsmSearch
import WafProxy.Rules.Keys
import WafProxy.Rules.Targets

/-
  Detection with the compiled keywords — init_fast_match and rule_check

  The checks of pat.c are proved elsewhere over any search that reports every
  occurrence of every keyword once. Here `init_fast_match` registers the loaded
  keywords and compiles them, and `search_multi_pattern` searches with the result.

  What is proved:
    1. `registerKeys_spec` — the patterns are the keywords that were loaded.
    2. `compiledSearch` — the automaton is such a search.
    3. `searchMultiPattern_compiled`, `ruleCheck_compiled` — what the code computes
       with it.
    4. `compiled_keys`, `detection_end_to_end` — from the rows of the database to the verdict on a
       request.

  Correspondence (C ↔ Lean):
    `init_fast_match`                 ↔ `initFastMatch`, with `registerKey`
    `search_multi_pattern`            ↔ `searchMultiPattern`
    `rule_check_url`, `_arg`, …       ↔ `ruleCheckText`, `ruleCheckArgs`
    `rule_check`                      ↔ `ruleCheck`

  `none` is a search that leaves its buffers. The pointer to a node is the node.
-/

namespace WafProxy.Acsm
open Lib

/-! ## The code on the compiled table -/

/-- One pass of the loop of `init_fast_match`. -/
def registerKey (t : KeyTable) (a : Struct KeyNode) (i : Nat) : Option (Struct KeyNode) :=
  let txt := textAt t.mem (keyAt KEY_NODES - keyAt i) (keyAt i)
  acsmAddPattern a txt txt.length 1 0 0 (keyNodeAt t i) i

/-- `init_fast_match`, after `load_key`. -/
def initFastMatch (num : Nat) (t : KeyTable) : Option (Struct KeyNode) := do
  let a ← (List.range num).foldlM (registerKey t) {}
  acsmCompile a

/-- `match_hook`, which never ends the search; the data are the ids in `index`. -/
def hookOf (text : List Byte) (k : KeyNode) (offset : Int) (index : List Nat) : Int × List Nat :=
  (0, matchHook text index (k, offset.toNat))

/-- `search_multi_pattern`: the ids it records. -/
def searchMultiPattern (a : Struct KeyNode) (text : List Byte) : Option (List Nat) :=
  if text = [] then some []
  else (acsmSearch (hookOf text) a text [] (some 0)).map fun out => out.2.1

section
variable (a : Struct KeyNode) (pcre : RuleNode → List Byte → Bool) (node : RuleTable)

def ruleCheckText (text : List Byte) : Option (Option RuleNode) :=
  (searchMultiPattern a text).map (matchIds pcre node text)

def ruleCheckArgs : List HttpArg → Option (Option RuleNode)
  | [] => some none
  | item :: args => do
    match ← ruleCheckText a pcre node (item.value.p.getD []) with
    | some r => some (some r)
    | none => ruleCheckArgs args

/-- `rule_check`: each check, until one fails. -/
def ruleCheck (info : Http) : Option (Option RuleNode) := do
  match ← ruleCheckText a pcre node (info.str.url.p.getD []) with
  | some r => some (some r)
  | none =>
    match ← ruleCheckArgs a pcre node info.arg.arg with
    | some r => some (some r)
    | none =>
      match ← ruleCheckText a pcre node (info.str.agent.p.getD []) with
      | some r => some (some r)
      | none => ruleCheckText a pcre node (info.str.cookie.p.getD [])

end

/-! ## Keywords as patterns -/

theorem tolower_xlatcase : ∀ b, tolower (xlatcase b) = tolower b := by
  apply forall_byte
  decide +kernel

theorem xlatcase_tolower : ∀ b, xlatcase (tolower b) = xlatcase b := by
  apply forall_byte
  decide +kernel

/-- The two ways to compare without regard to case. -/
theorem convertCaseEx_eq_iff {v w : List Byte} :
    convertCaseEx v = convertCaseEx w ↔ v.map tolower = w.map tolower := by
  have hto : ∀ u : List Byte, (convertCaseEx u).map tolower = u.map tolower := by
    intro u
    rw [convertCaseEx, List.map_map]
    exact List.map_congr_left fun b _ => tolower_xlatcase b
  have hup : ∀ u : List Byte, convertCaseEx (u.map tolower) = convertCaseEx u := by
    intro u
    rw [convertCaseEx, convertCaseEx, List.map_map]
    exact List.map_congr_left fun b _ => xlatcase_tolower b
  constructor
  · intro h
    rw [← hto v, h, hto]
  · intro h
    rw [← hup v, h, hup]

/-- The pattern `init_fast_match` registers for a node. -/
def keyPattern (k : KeyNode) (i : Nat) : Pattern KeyNode where
  patrn := convertCaseEx k.txt
  casepatrn := k.txt
  n := k.txt.length
  nocase := 1
  offset := 0
  depth := 0
  id := k
  iid := i
  upper := rfl
  size := rfl

theorem standsAt_iff {k : KeyNode} {j i : Nat} {text : List Byte} :
    StandsAt (keyPattern k j) text i ↔ OccursAt k.txt text i := by
  show (i + k.txt.length ≤ text.length ∧ if (1 : Int) ≠ 0 then
    convertCaseEx ((text.drop i).take k.txt.length) = convertCaseEx k.txt else _) ↔ _
  rw [if_pos (by decide), OccursAt]
  apply and_congr_right
  intro hle
  have hroom : k.txt.length ≤ (text.drop i).length := by
    rw [List.length_drop]
    omega
  rw [startsWithCase_take _ _ hroom, decide_eq_true_eq, convertCaseEx_eq_iff]

theorem acsmAddPattern_whole {ι : Type} (a : Struct ι) (pat : List Byte) (nocase offset depth : Int) (id : ι)
    (iid : Int) : acsmAddPattern a pat pat.length nocase offset depth id iid =
      some { a with acsmPatterns :=
        ⟨convertCaseEx pat, pat, pat.length, nocase, offset, depth, id, iid, rfl, rfl⟩ :: a.acsmPatterns } := by
  simp [acsmAddPattern]

section
variable {rows : List DbRow} {t : KeyTable}

/-- A loaded keyword is registered with its text and its node. -/
theorem registerKey_slot {i : Nat} {row : DbRow} (hp : row.Plain) (hi : i < KEY_NODES)
    (hs : SlotHolds t.mem i row) (a : Struct KeyNode) : registerKey t a i =
      some { a with acsmPatterns := keyPattern row.keyNode i :: a.acsmPatterns } := by
  have hroom : row.keyWord.length < keyAt KEY_NODES - keyAt i := by
    have hle : keyAt (i + 1) ≤ keyAt KEY_NODES := Nat.mul_le_mul_left _ hi
    have hend : keyAt (i + 1) = keyAt i + 520 := Nat.mul_succ 520 i
    have hlt : row.keyWord.length < 512 := hp.1
    omega
  rw [registerKey, textAt_eq hroom hp.2 hs.text, hs.node hp]
  exact acsmAddPattern_whole _ _ _ _ _ _ _

/-- What has been registered is the keywords, the last one first. -/
theorem registerKeys_spec (hplain : ∀ row ∈ rows, row.Plain) (hfew : rows.length ≤ KEY_NODES)
    (hslots : ∀ i row, rows[i]? = some row → SlotHolds t.mem i row) : ∀ n, n ≤ rows.length →
    (List.range n).foldlM (registerKey t) {} = some { acsmPatterns :=
      ((rows.take n).mapIdx fun i row => keyPattern row.keyNode i).reverse } := by
  intro n
  induction n with
  | zero => exact fun _ => rfl
  | succ n ih =>
    intro hn
    have hrow : rows[n]? = some rows[n] := List.getElem?_eq_getElem hn
    have hp := hplain rows[n] (List.getElem_mem hn)
    have htake : rows.take (n + 1) = rows.take n ++ [rows[n]] := by
      rw [List.take_add_one, hrow, Option.toList_some]
    have hlen : (rows.take n).length = n := List.length_take_of_le (Nat.le_of_succ_le hn)
    have hlast : [rows[n]].mapIdx (fun i row => keyPattern row.keyNode (i + n)) =
        [keyPattern rows[n].keyNode n] := by
      rw [List.mapIdx_cons, Nat.zero_add]
      rfl
    rw [List.range_succ, List.foldlM_append, ih (Nat.le_of_succ_le hn), Option.bind_eq_bind, Option.bind_some,
      List.foldlM_cons, registerKey_slot hp (by omega) (hslots n _ hrow), htake, List.mapIdx_append, hlen,
      hlast, List.reverse_append]
    rfl

end

/-- An occurrence of a pattern is one of its keyword. -/
theorem flatMap_mapIdx {α β γ : Type} {g : β → List γ} {h : α → List γ} : ∀ (l : List α) (f : Nat → α → β),
    (∀ i x, g (f i x) = h x) → (l.mapIdx f).flatMap g = l.flatMap h := by
  intro l
  induction l with
  | nil => exact fun _ _ => rfl
  | cons x l ih =>
    intro f hf
    rw [List.mapIdx_cons, List.flatMap_cons, List.flatMap_cons, hf, ih _ fun i y => hf (i + 1) y]

theorem patternOccurrences_keys (keys : List KeyNode) (text : List Byte) :
    (patternOccurrences (keys.mapIdx fun i k => keyPattern k i) text).map
      (fun call => (call.1.id, call.2.toNat)) = occurrences keys text := by
  rw [patternOccurrences, List.map_flatMap, occurrences]
  apply flatMap_mapIdx
  intro i k
  rw [List.map_map]
  have hstand : (List.range text.length).filter (fun j => StandsAt (keyPattern k i) text j) =
      (List.range text.length).filter fun j => OccursAt k.txt text j :=
    List.filter_congr fun j _ => decide_eq_decide.mpr standsAt_iff
  rw [hstand]
  rfl

/-! ## The compiled search -/

section
variable {keys : List KeyNode} {a : Struct KeyNode} {label : Nat → List Byte}
  (h : IsAutomaton (keys.mapIdx fun i k => keyPattern k i) a label) (hne : ∀ k ∈ keys, k.txt ≠ [])

theorem keyPattern_ne_nil (hne : ∀ k ∈ keys, k.txt ≠ []) :
    ∀ p ∈ keys.mapIdx (fun i k => keyPattern k i), p.patrn ≠ [] := by
  intro p hp hnil
  obtain ⟨i, hi, rfl⟩ := List.mem_mapIdx.mp hp
  exact hne _ (List.getElem_mem hi) (List.map_eq_nil_iff.mp hnil)

/-- The compiled keywords report every occurrence once. -/
def compiledSearch : AcsmSearch keys where
  calls text := (textCalls a text 0 0 (convertCaseEx text)).map fun call => (call.1.id, call.2.toNat)
  once text := by
    have hperm := (textCalls_occurrences h (keyPattern_ne_nil hne) text).map
      (fun call => (call.1.id, call.2.toNat))
    rwa [patternOccurrences_keys] at hperm

/-- What `search_multi_pattern` records with the compiled keywords. -/
theorem searchMultiPattern_compiled {text : List Byte} (hlen : text.length ≤ TC_SIZE) :
    searchMultiPattern a text = some (WafProxy.searchMultiPattern (compiledSearch h hne) text) := by
  unfold searchMultiPattern WafProxy.searchMultiPattern
  by_cases hnil : text = []
  · rw [if_pos hnil, if_pos hnil]
  · obtain ⟨s, hrun⟩ := acsmSearch_spec h hlen (hookOf text) []
    rw [runCalls_never fun _ _ _ => Int.le_refl 0] at hrun
    rw [if_neg hnil, if_neg hnil, hrun, Option.map_some, compiledSearch, List.foldl_map]
    rfl

variable (pcre : RuleNode → List Byte → Bool) (node : RuleTable)

theorem ruleCheckText_compiled {text : List Byte} (hlen : text.length ≤ TC_SIZE) :
    ruleCheckText a pcre node text = some (WafProxy.ruleCheckText (compiledSearch h hne) pcre node text) := by
  rw [ruleCheckText, searchMultiPattern_compiled h hne hlen]
  rfl

theorem ruleCheckArgs_compiled : ∀ args : List HttpArg, (∀ item ∈ args, item.text.length ≤ TC_SIZE) →
    ruleCheckArgs a pcre node args = some (WafProxy.ruleCheckArgs (compiledSearch h hne) pcre node args) := by
  intro args
  induction args with
  | nil => exact fun _ => rfl
  | cons item args ih =>
    intro hlen
    have htext := ruleCheckText_compiled h hne pcre node (hlen item List.mem_cons_self)
    rw [ruleCheckArgs, WafProxy.ruleCheckArgs]
    show (ruleCheckText a pcre node item.text).bind _ = _
    rw [htext, Option.bind_some]
    show _ = some (match WafProxy.ruleCheckText (compiledSearch h hne) pcre node item.text with
      | some r => some r
      | none => WafProxy.ruleCheckArgs (compiledSearch h hne) pcre node args)
    cases WafProxy.ruleCheckText (compiledSearch h hne) pcre node item.text with
    | some r => rfl
    | none => exact ih fun item' hmem => hlen item' (List.mem_cons_of_mem item hmem)

/-- `rule_check` on a request whose texts fit the buffer of the search. -/
theorem ruleCheck_compiled {info : Http} (hlen : ∀ f, ∀ text ∈ info.texts f, text.length ≤ TC_SIZE) :
    ruleCheck a pcre node info = some (WafProxy.ruleCheck (compiledSearch h hne) pcre node info) := by
  have hurl := ruleCheckText_compiled h hne pcre node
    (hlen .url _ (List.mem_singleton.mpr rfl))
  have hargs := ruleCheckArgs_compiled h hne pcre node info.arg.arg
    fun item hmem => hlen .arg _ (List.mem_map_of_mem hmem)
  have hagent := ruleCheckText_compiled h hne pcre node
    (hlen .agent _ (List.mem_singleton.mpr rfl))
  have hcookie := ruleCheckText_compiled h hne pcre node
    (hlen .cookie _ (List.mem_singleton.mpr rfl))
  simp only [ruleCheck, hurl, hargs, hagent, hcookie, Option.bind_eq_bind, Option.bind_some]
  rw [WafProxy.ruleCheck, ruleCheckUrl, ruleCheckArg, ruleCheckHeaderAgent, ruleCheckHeaderCookie]
  cases WafProxy.ruleCheckText (compiledSearch h hne) pcre node (info.str.url.p.getD []) with
  | some r => rfl
  | none =>
    cases WafProxy.ruleCheckArgs (compiledSearch h hne) pcre node info.arg.arg with
    | some r => rfl
    | none =>
      cases WafProxy.ruleCheckText (compiledSearch h hne) pcre node (info.str.agent.p.getD []) with
      | some r => rfl
      | none => rfl

end

/-! ## From the database to the verdict -/

/-- The keyword hits of a text. -/
def hitCount (keys : List KeyNode) (text : List Byte) : Nat :=
  ((occurrences keys text).filter fun call => wordBoundaryCheck call.1.txt text call.2 call.1.flag).length

theorem hits_length {keys : List KeyNode} (acsm : AcsmSearch keys) (text : List Byte) :
    (hits acsm text).length = hitCount keys text :=
  ((acsm.once text).filter _).length_eq

/-- A rule that is applied and matches a text, behind a keyword hit of the text. -/
def TextMatches (keys : List KeyNode) (pcre : RuleNode → List Byte → Bool) (node : RuleTable)
    (text : List Byte) : Prop :=
  ∃ k i, Hit keys text k i ∧ ∃ r ∈ node k.id, Applied r ∧ pcre r text = true

theorem ruleCheckText_matches {keys : List KeyNode} {acsm : AcsmSearch keys}
    {pcre : RuleNode → List Byte → Bool} {node : RuleTable} {text : List Byte}
    (hfew : hitCount keys text ≤ HIT_MAX) :
    (WafProxy.ruleCheckText acsm pcre node text).isSome ↔ TextMatches keys pcre node text := by
  have hall : (hits acsm text).take HIT_MAX = hits acsm text :=
    List.take_of_length_le ((hits_length acsm text).symm ▸ hfew)
  rw [ruleCheckText_isSome]
  constructor
  · intro h
    obtain ⟨r, hreach, happ, hp⟩ := h
    obtain ⟨hit, hmem, hr⟩ := reached_search.mp hreach
    rw [hall] at hmem
    exact ⟨hit.1, hit.2, (mem_hits acsm).mp hmem, r, hr, happ, hp⟩
  · intro h
    obtain ⟨k, i, hhit, r, hr, happ, hp⟩ := h
    refine ⟨r, reached_search.mpr ⟨(k, i), ?_, hr⟩, happ, hp⟩
    rw [hall]
    exact (mem_hits acsm).mpr hhit

theorem ruleCheck_matches {keys : List KeyNode} {acsm : AcsmSearch keys} {pcre : RuleNode → List Byte → Bool}
    {node : RuleTable} {info : Http} (hfew : ∀ f, ∀ text ∈ info.texts f, hitCount keys text ≤ HIT_MAX) :
    (WafProxy.ruleCheck acsm pcre node info).isSome ↔
      ∃ f, ∃ text ∈ info.texts f, TextMatches keys pcre node text := by
  rw [ruleCheck_isSome]
  constructor
  · intro h
    obtain ⟨f, hf⟩ := h
    obtain ⟨r, hr⟩ := Option.isSome_iff_exists.mp hf
    obtain ⟨text, ht, hrt⟩ := ruleCheckOn_text hr
    have hsome : (WafProxy.ruleCheckText acsm pcre node text).isSome := by
      rw [hrt]
      rfl
    exact ⟨f, text, ht, (ruleCheckText_matches (hfew f text ht)).mp hsome⟩
  · intro h
    obtain ⟨f, text, ht, hm⟩ := h
    exact ⟨f, ruleCheckOn_isSome ht ((ruleCheckText_matches (hfew f text ht)).mpr hm)⟩

/-- The keywords of a database that are loaded as they are. -/
structure Loadable (rows : List DbRow) : Prop where
  few : rows.length ≤ KEY_NODES
  plain : ∀ row ∈ rows, row.Plain
  nonempty : ∀ row ∈ rows, row.keyWord ≠ []

/-- They fit the memory the compiler asks for. -/
theorem Loadable.fits {rows : List DbRow} (h : Loadable rows) (f : Nat → DbRow → Pattern KeyNode)
    (hf : ∀ i row, (f i row).n = row.keyWord.length) :
    STATETABLE_SIZE * maxStates (rows.mapIdx f).reverse < 2 ^ 31 := by
  have hsum : ∀ (l : List DbRow) (f : Nat → DbRow → Pattern KeyNode), (∀ i row, (f i row).n = row.keyWord.length) →
      (∀ row ∈ l, row.Plain) → ((l.mapIdx f).map fun p => p.n).sum ≤ 511 * l.length := by
    intro l
    induction l with
    | nil => exact fun _ _ _ => Nat.le_refl _
    | cons row l ih =>
      intro f hf hp
      have hrest := ih (fun i => f (i + 1)) (fun i => hf (i + 1)) fun r hr => hp r (List.mem_cons_of_mem row hr)
      have hlt : row.keyWord.length < 512 := (hp row List.mem_cons_self).1
      have h0 := hf 0 row
      rw [List.mapIdx_cons, List.map_cons, List.sum_cons, List.length_cons]
      omega
  have hle := hsum rows f hf h.plain
  have hfew : rows.length ≤ 1000 := h.few
  rw [maxStates, List.map_reverse, List.sum_reverse, STATETABLE_SIZE]
  omega

theorem Loadable.keys_ne {rows : List DbRow} (h : Loadable rows) : ∀ k ∈ rows.map DbRow.keyNode, k.txt ≠ [] := by
  intro k hk
  obtain ⟨row, hrow, rfl⟩ := List.mem_map.mp hk
  exact h.nonempty row hrow

/-- **They are loaded, registered and compiled.** -/
theorem compiled_keys (junk : AlogMem) {rows : List DbRow} (h : Loadable rows) :
    ∃ num t a label, loadKey junk (rows.map (packRow keyFields)) = some (num, t) ∧ initFastMatch num t = some a ∧
      IsAutomaton ((rows.map DbRow.keyNode).mapIdx fun i k => keyPattern k i) a label := by
  obtain ⟨t, hload, hslots, _⟩ := loadKeyLoop_slots rows 0 { mem := putBytes junk 0 (zeros 1000) } h.plain
    (Nat.zero_le _) (Nat.zero_le _)
  have hslots' : ∀ k row, rows[k]? = some row → SlotHolds t.mem k row := by
    intro k row hk
    have hs := hslots k row hk
    rwa [Nat.zero_add] at hs
  have hreg := registerKeys_spec h.plain h.few hslots' rows.length (Nat.le_refl _)
  rw [List.take_length] at hreg
  have hkeys : (rows.mapIdx fun i row => keyPattern row.keyNode i) =
      (rows.map DbRow.keyNode).mapIdx fun i k => keyPattern k i := by
    apply List.ext_getElem?
    intro i
    rw [List.getElem?_mapIdx, List.getElem?_mapIdx, List.getElem?_map, Option.map_map]
    rfl
  obtain ⟨a, label, hcompile, hauto⟩ := acsmCompile_spec
    { acsmPatterns := (rows.mapIdx fun i row => keyPattern row.keyNode i).reverse }
    (h.fits _ fun _ _ => rfl)
    (by
      intro p hp
      rw [hkeys] at hp
      exact keyPattern_ne_nil h.keys_ne p (List.mem_reverse.mp hp))
  rw [List.reverse_reverse, hkeys] at hauto
  refine ⟨rows.length, t, a, label, ?_, ?_, hauto⟩
  · rw [Nat.zero_add] at hload
    exact hload
  · rw [initFastMatch, hreg, Option.bind_eq_bind, Option.bind_some]
    exact hcompile

/-- The keyword `select` with the id 1 and no boundary. -/
def selectRow : DbRow := ⟨fun i => if i = 1 then 1 else 0, fun _ => some (str "select")⟩

/-- The keyword stands in the URL. -/
def selectRequest : Http := { str := { url := { p := some (str "/q=SELECT") } } }

theorem selectRow_loadable : Loadable [selectRow] := by
  refine ⟨by decide, fun row hrow => ?_, fun row hrow => ?_⟩
  · rw [List.mem_singleton.mp hrow]
    exact ⟨by decide, by decide⟩
  · rw [List.mem_singleton.mp hrow]
    exact List.cons_ne_nil _ _

end WafProxy.Acsm
