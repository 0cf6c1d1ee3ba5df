import WafProxy.Rules.Complete
import WafProxy.Rules.Load

/-
  Rules and the fields they name — the four checks of pat.c on a loaded table

  All four checks skip a rule by its ARG bit. This file

   1. reads the four checks as one, indexed by the field (`ruleCheckOn`);
   2. states what a check of a field owes its rules (`TargetsRespected`): it
      reports a rule only if the rule names the field, and a rule that names the
      field is tried on every text of it that one of its keywords is recorded for;
   3. proves that this holds exactly when each enabled rule so recorded for a
      field has its ARG bit set iff it names that field, and what this says of
      the target strings of a loaded table (`rules_on_targets`).
-/

namespace WafProxy
open Lib

/-! ## The checks by field -/

/-- The texts a field is searched in. -/
def Http.texts (info : Http) : Field → List (List Byte)
  | .url => [info.str.url.p.getD []]
  | .arg => info.arg.arg.map HttpArg.text
  | .agent => [info.str.agent.p.getD []]
  | .cookie => [info.str.cookie.p.getD []]

section
variable {keys : List KeyNode} (acsm : AcsmSearch keys) (pcre : RuleNode → List Byte → Bool)
  (node : RuleTable) (info : Http)

/-- The check of a field. -/
def ruleCheckOn : Field → Option RuleNode
  | .url => ruleCheckUrl acsm pcre node info
  | .arg => ruleCheckArg acsm pcre node info
  | .agent => ruleCheckHeaderAgent acsm pcre node info
  | .cookie => ruleCheckHeaderCookie acsm pcre node info

/-- An enabled rule in the chain of an id that is recorded for a text of a field. -/
def Recorded (f : Field) (text : List Byte) (r : RuleNode) : Prop :=
  text ∈ info.texts f ∧ Reached node (searchMultiPattern acsm text) r ∧ r.disable = false

/-- A check of a field reports only rules that name it, and reports every match
of a rule that names it and is recorded for it. -/
structure TargetsRespected : Prop where
  only : ∀ pcre f r, ruleCheckOn acsm pcre node info f = some r → Names f r.target
  every : ∀ pcre f text r, Recorded acsm node info f text r → Names f r.target →
    pcre r text = true → (ruleCheckOn acsm pcre node info f).isSome

end

section
variable {keys : List KeyNode} {acsm : AcsmSearch keys} {pcre : RuleNode → List Byte → Bool}
  {node : RuleTable} {info : Http}

theorem ruleCheckArgs_some {args : List HttpArg} {r : RuleNode}
    (h : ruleCheckArgs acsm pcre node args = some r) :
    ∃ item ∈ args, ruleCheckText acsm pcre node item.text = some r := by
  induction args with
  | nil => cases h
  | cons item args ih =>
    rw [ruleCheckArgs] at h
    split at h
    · next q hq =>
      cases h
      exact ⟨item, List.mem_cons_self, hq⟩
    · obtain ⟨item', hmem, hr⟩ := ih h
      exact ⟨item', List.mem_cons_of_mem _ hmem, hr⟩

/-- A reported rule was found in a text of the field. -/
theorem ruleCheckOn_text {f : Field} {r : RuleNode} (h : ruleCheckOn acsm pcre node info f = some r) :
    ∃ text ∈ info.texts f, ruleCheckText acsm pcre node text = some r := by
  cases f with
  | arg =>
    obtain ⟨item, hmem, hr⟩ := ruleCheckArgs_some h
    exact ⟨item.text, List.mem_map_of_mem hmem, hr⟩
  | url => exact ⟨_, List.mem_singleton.mpr rfl, h⟩
  | agent => exact ⟨_, List.mem_singleton.mpr rfl, h⟩
  | cookie => exact ⟨_, List.mem_singleton.mpr rfl, h⟩

theorem ruleCheckOn_isSome {f : Field} {text : List Byte} (ht : text ∈ info.texts f)
    (h : (ruleCheckText acsm pcre node text).isSome) : (ruleCheckOn acsm pcre node info f).isSome := by
  cases f with
  | arg =>
    obtain ⟨item, hmem, rfl⟩ := List.mem_map.mp ht
    exact ruleCheckArgs_isSome.mpr ⟨item, hmem, h⟩
  | url => rw [List.mem_singleton.mp ht] at h; exact h
  | agent => rw [List.mem_singleton.mp ht] at h; exact h
  | cookie => rw [List.mem_singleton.mp ht] at h; exact h

theorem ruleCheckOn_some {f : Field} {r : RuleNode} (h : ruleCheckOn acsm pcre node info f = some r) :
    ∃ text, Recorded acsm node info f text r ∧ getTarget .arg r.iTar = true ∧ pcre r text = true := by
  obtain ⟨text, ht, hr⟩ := ruleCheckOn_text h
  obtain ⟨hreach, ⟨hen, hbit⟩, hp⟩ := matchIds_some hr
  exact ⟨text, ⟨ht, hreach, hen⟩, hbit, hp⟩

/-- `rule_check` fails exactly when the check of some field does. -/
theorem ruleCheck_isSome :
    (ruleCheck acsm pcre node info).isSome ↔ ∃ f, (ruleCheckOn acsm pcre node info f).isSome := by
  have hex : (∃ f, (ruleCheckOn acsm pcre node info f).isSome) ↔
      (ruleCheckUrl acsm pcre node info).isSome ∨ (ruleCheckArg acsm pcre node info).isSome ∨
        (ruleCheckHeaderAgent acsm pcre node info).isSome ∨
          (ruleCheckHeaderCookie acsm pcre node info).isSome := by
    constructor
    · intro h
      obtain ⟨f, hf⟩ := h
      cases f with
      | url => exact Or.inl hf
      | arg => exact Or.inr (Or.inl hf)
      | agent => exact Or.inr (Or.inr (Or.inl hf))
      | cookie => exact Or.inr (Or.inr (Or.inr hf))
    · intro h
      rcases h with h | h | h | h
      · exact ⟨.url, h⟩
      · exact ⟨.arg, h⟩
      · exact ⟨.agent, h⟩
      · exact ⟨.cookie, h⟩
  rw [hex, ruleCheck]
  split
  · next h => simp [h]
  · next hu =>
    split
    · next h => simp [h]
    · next ha =>
      split
      · next h => simp [h]
      · next hg => simp [hu, ha, hg]

/-! ## The ARG bit decides -/

/-- The ARG bit of a recorded rule says whether it names the field. -/
def ArgBitExact (acsm : AcsmSearch keys) (node : RuleTable) (info : Http) : Prop :=
  ∀ f text r, Recorded acsm node info f text r → (getTarget .arg r.iTar = true ↔ Names f r.target)

theorem argBit_of_respected (h : TargetsRespected acsm node info) : ArgBitExact acsm node info := by
  intro f text r hrec
  -- a matcher that accepts this rule on this text and nothing else
  let this : RuleNode → List Byte → Bool := fun q t => decide (q = r ∧ t = text)
  constructor
  · intro hbit
    have hs : (ruleCheckOn acsm this node info f).isSome := by
      apply ruleCheckOn_isSome hrec.1
      exact ruleCheckText_isSome.mpr ⟨r, hrec.2.1, ⟨hrec.2.2, hbit⟩, by simp [this]⟩
    obtain ⟨q, hq⟩ := Option.isSome_iff_exists.mp hs
    obtain ⟨t, -, -, hp⟩ := ruleCheckOn_some hq
    have hqr : q = r := (of_decide_eq_true hp).1
    exact hqr ▸ h.only this f q hq
  · intro hname
    have hs := h.every this f text r hrec hname (by simp [this])
    obtain ⟨q, hq⟩ := Option.isSome_iff_exists.mp hs
    obtain ⟨t, -, hbit, hp⟩ := ruleCheckOn_some hq
    have hqr : q = r := (of_decide_eq_true hp).1
    exact hqr ▸ hbit

theorem respected_of_argBit (h : ArgBitExact acsm node info) : TargetsRespected acsm node info where
  only pcre f r hr := by
    obtain ⟨text, hrec, hbit, -⟩ := ruleCheckOn_some hr
    exact (h f text r hrec).mp hbit
  every pcre f text r hrec hname hp := by
    have hbit : getTarget .arg r.iTar = true := (h f text r hrec).mpr hname
    apply ruleCheckOn_isSome hrec.1
    exact ruleCheckText_isSome.mpr ⟨r, hrec.2.1, ⟨hrec.2.2, hbit⟩, hp⟩

theorem respected_iff : TargetsRespected acsm node info ↔ ArgBitExact acsm node info :=
  ⟨argBit_of_respected, respected_of_argBit⟩

/-- **On a loaded table the checks respect the targets exactly when the ARG bit
of every recorded rule says whether it names the field**, that is, unless a row
has an empty expression or a full target column with a name behind it, when each
recorded rule names ARG iff it names the field. -/
theorem rules_on_targets {compile study : List Byte → Bool} {rows : List SecRecord} {ret : Int}
    (h : loadRule compile study rows = some (ret, node)) (acsm : AcsmSearch keys) (info : Http) :
    (∀ pcre, (ruleCheck acsm pcre node info).isSome ↔
      ∃ f, (ruleCheckOn acsm pcre node info f).isSome) ∧
    (TargetsRespected acsm node info ↔ ArgBitExact acsm node info) ∧
    ((∀ row ∈ rows, row.text ≠ [] ∧ row.TargetEnds) → (TargetsRespected acsm node info ↔
      ∀ f text r, Recorded acsm node info f text r → (Names .arg r.target ↔ Names f r.target))) := by
  refine ⟨fun pcre => ruleCheck_isSome, respected_iff, ?_⟩
  intro hrows
  have hbit : ∀ f text r, Recorded acsm node info f text r →
      (getTarget .arg r.iTar = true ↔ Names .arg r.target) := by
    intro f text r hrec
    obtain ⟨id, -, hr⟩ := hrec.2.1
    exact loadRule_exact hrows h hr .arg
  rw [respected_iff]
  constructor
  · intro hex f text r hrec
    rw [← hbit f text r hrec]
    exact hex f text r hrec
  · intro hname f text r hrec
    rw [hbit f text r hrec]
    exact hname f text r hrec

end

/-! ## A rule for the URL -/

theorem rowId_fits : (0 : Byte) ∉ str "1001" ∧ (str "1001").length ≤ 32 := by decide

theorem rowText_fits : (0 : Byte) ∉ str "x" ∧ (str "x").length < 512 := by decide

theorem rowCatalog_fits : (0 : Byte) ∉ str "sqli" ∧ (str "sqli").length ≤ 32 := by decide

theorem rowChain_fits : (0 : Byte) ∉ ([] : List Byte) ∧ ([] : List Byte).length ≤ 32 := by decide

/-- One row for the keyword `a`, with a target string. -/
def targetRow (target : List Byte) (h : (0 : Byte) ∉ target ∧ target.length ≤ 32) : SecRecord where
  id := str "1001"
  text := str "x"
  catalog := str "sqli"
  target := target
  chain := []
  key := 1
  id_fits := rowId_fits
  text_fits := rowText_fits
  catalog_fits := rowCatalog_fits
  target_fits := h
  chain_fits := rowChain_fits

def rowTable (row : SecRecord) : RuleTable := emptyTable.set 1 [fillRule row {}]

theorem targetRow_loaded (target : List Byte) (h : (0 : Byte) ∉ target ∧ target.length ≤ 32) :
    loadRule (fun _ => true) (fun _ => true) [targetRow target h] =
      some (0, rowTable (targetRow target h)) := rfl

def urlKeys : List KeyNode := [⟨[97], 1, 0⟩]

def urlRequest : Http := { str := { url := { p := some [97] } } }

/-- What is recorded for the request is the rule of the row, for the URL. -/
theorem urlRequest_recorded {row : SecRecord} {f : Field} {text : List Byte} {r : RuleNode}
    (h : Recorded (inOrder urlKeys) (rowTable row) urlRequest f text r) :
    f = .url ∧ r = fillRule row {} := by
  obtain ⟨ht, ⟨id, hid, hr⟩, -⟩ := h
  cases f with
  | url =>
    have hone : searchMultiPattern (inOrder urlKeys) [97] = [1] := by decide
    rw [List.mem_singleton.mp ht] at hid
    change id ∈ searchMultiPattern (inOrder urlKeys) [97] at hid
    rw [hone] at hid
    rw [List.mem_singleton.mp hid] at hr
    exact ⟨rfl, List.mem_singleton.mp hr⟩
  | arg => cases ht
  | agent =>
    rw [List.mem_singleton.mp ht] at hid
    cases hid
  | cookie =>
    rw [List.mem_singleton.mp ht] at hid
    cases hid

theorem bothTarget_fits : (0 : Byte) ∉ str "URL ARG" ∧ (str "URL ARG").length ≤ 32 := by decide

theorem urlTarget_fits : (0 : Byte) ∉ str "URL" ∧ (str "URL").length ≤ 32 := by decide

/-- A row that names URL and ARG is respected on a request with its keyword in
the URL, and the rule fires there. -/
theorem rules_on_targets_loaded :
    TargetsRespected (inOrder urlKeys) (rowTable (targetRow _ bothTarget_fits)) urlRequest ∧
    (ruleCheck (inOrder urlKeys) (fun _ _ => true) (rowTable (targetRow _ bothTarget_fits))
      urlRequest).isSome := by
  obtain ⟨hfail, -, hiff⟩ :=
    rules_on_targets (targetRow_loaded _ bothTarget_fits) (inOrder urlKeys) urlRequest
  have hrows : ∀ row ∈ [targetRow _ bothTarget_fits], row.text ≠ [] ∧ row.TargetEnds := by
    intro row hrow
    rw [List.mem_singleton.mp hrow]
    have hseen : (targetRow _ bothTarget_fits).targetSeen = str "URL ARG" := by decide
    refine ⟨by decide, fun f hf => ?_⟩
    rw [hseen] at hf
    exact hf
  have hall := (hiff hrows).mpr (by
    intro f text r hrec
    obtain ⟨rfl, rfl⟩ := urlRequest_recorded hrec
    rw [fillRule_eq]
    exact iff_of_true (by decide) (by decide))
  have hrec : Recorded (inOrder urlKeys) (rowTable (targetRow _ bothTarget_fits)) urlRequest .url [97]
      (fillRule (targetRow _ bothTarget_fits) {}) :=
    ⟨by decide, ⟨1, by decide, List.mem_singleton.mpr rfl⟩, rfl⟩
  refine ⟨hall, (hfail _).mpr ⟨.url, hall.every _ .url [97] _ hrec ?_ rfl⟩⟩
  rw [fillRule_eq]
  decide

/-- The rule that names URL alone is not tried on the URL. -/
theorem url_rule_skipped :
    loadRule (fun _ => true) (fun _ => true) [targetRow _ urlTarget_fits] =
      some (0, rowTable (targetRow _ urlTarget_fits)) ∧
    ¬ TargetsRespected (inOrder urlKeys) (rowTable (targetRow _ urlTarget_fits)) urlRequest := by
  refine ⟨targetRow_loaded _ urlTarget_fits, ?_⟩
  intro h
  have hrec : Recorded (inOrder urlKeys) (rowTable (targetRow _ urlTarget_fits)) urlRequest .url [97]
      (fillRule (targetRow _ urlTarget_fits) {}) :=
    ⟨by decide, ⟨1, by decide, List.mem_singleton.mpr rfl⟩, rfl⟩
  have hname : Names .url (fillRule (targetRow _ urlTarget_fits) {}).target := by
    rw [fillRule_eq]
    decide
  -- every check skips a rule without the ARG bit
  have hs := h.every (fun _ _ => true) .url [97] _ hrec hname rfl
  obtain ⟨q, hq⟩ := Option.isSome_iff_exists.mp hs
  obtain ⟨text, hrec', hbit, -⟩ := ruleCheckOn_some hq
  obtain ⟨-, rfl⟩ := urlRequest_recorded hrec'
  rw [fillRule_eq] at hbit
  revert hbit
  decide

end WafProxy
