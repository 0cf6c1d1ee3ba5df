import WafProxy.Rules.Match

/-
  Detection over keyword hits — rule_check_arg (pat.c)

  `match_hook` keeps the ids of the first twenty hits of a text and drops the
  others. This file

   1. says what the check should report, in terms of the hits and the rules
      alone (`ValueMatches`);
   2. says what it does report, in terms of the first twenty hits
      (`FirstHitMatches`, `ruleCheckArg_isSome`);
   3. proves that the two agree, whatever the rules match, exactly when every
      rule that some hit of a value leads to is in the chain of one of the first
      twenty hits of that value (`complete_iff`);
   4. derives the case of values with at most twenty hits (`hitsFit_of_few`).
-/

namespace WafProxy
open Lib

/-- The text `rule_check_arg` searches for an argument. -/
def HttpArg.text (item : HttpArg) : List Byte := item.value.p.getD []

section
variable {keys : List KeyNode}

/-- Some argument value has a hit whose chain holds a rule that is applied and
matches the value. -/
def ValueMatches (keys : List KeyNode) (pcre : RuleNode → List Byte → Bool) (node : RuleTable)
    (args : List HttpArg) : Prop :=
  ∃ item ∈ args, ∃ k i, Hit keys item.text k i ∧
    ∃ r ∈ node k.id, Applied r ∧ pcre r item.text = true

/-- The same for one of the first twenty hits, in the order of the calls. -/
def FirstHitMatches (acsm : AcsmSearch keys) (pcre : RuleNode → List Byte → Bool)
    (node : RuleTable) (args : List HttpArg) : Prop :=
  ∃ item ∈ args, ∃ hit ∈ (hits acsm item.text).take HIT_MAX,
    ∃ r ∈ node hit.1.id, Applied r ∧ pcre r item.text = true

/-- `rule_check_arg` fails exactly on the argument lists with a value that matches,
whatever the rules match. -/
def DetectionComplete (acsm : AcsmSearch keys) (node : RuleTable) (info : Http) : Prop :=
  ∀ pcre : RuleNode → List Byte → Bool,
    (ruleCheckArg acsm pcre node info).isSome ↔ ValueMatches keys pcre node info.arg.arg

/-- Every rule a hit of a value leads to is in the chain of one of the first
twenty hits of that value. -/
def HitsFit (acsm : AcsmSearch keys) (node : RuleTable) (info : Http) : Prop :=
  ∀ item ∈ info.arg.arg, ∀ k i, Hit keys item.text k i → ∀ r ∈ node k.id, Applied r →
    ∃ hit ∈ (hits acsm item.text).take HIT_MAX, r ∈ node hit.1.id

variable {acsm : AcsmSearch keys} {pcre : RuleNode → List Byte → Bool} {node : RuleTable}

/-! ## One text, then the list -/

theorem reached_search {text : List Byte} {r : RuleNode} :
    Reached node (searchMultiPattern acsm text) r ↔
      ∃ hit ∈ (hits acsm text).take HIT_MAX, r ∈ node hit.1.id := by
  rw [searchMultiPattern_eq, Reached]
  constructor
  · intro h
    obtain ⟨id, hid, hr⟩ := h
    obtain ⟨hit, hmem, heq⟩ := List.mem_map.mp hid
    exact ⟨hit, hmem, heq ▸ hr⟩
  · intro h
    obtain ⟨hit, hmem, hr⟩ := h
    exact ⟨hit.1.id, List.mem_map_of_mem hmem, hr⟩

/-- A check of one text fails exactly when a recorded id leads to a rule that
is applied and matches. -/
theorem ruleCheckText_isSome {text : List Byte} :
    (ruleCheckText acsm pcre node text).isSome ↔
      ∃ r, Reached node (searchMultiPattern acsm text) r ∧ Applied r ∧ pcre r text = true := by
  constructor
  · intro h
    obtain ⟨r, hr⟩ := Option.isSome_iff_exists.mp h
    exact ⟨r, matchIds_some hr⟩
  · intro h
    obtain ⟨r, hreach, happ, hp⟩ := h
    exact matchIds_isSome hreach happ hp

theorem ruleCheckArgs_isSome {args : List HttpArg} :
    (ruleCheckArgs acsm pcre node args).isSome ↔
      ∃ item ∈ args, (ruleCheckText acsm pcre node item.text).isSome := by
  induction args with
  | nil => simp [ruleCheckArgs]
  | cons item args ih =>
    rw [ruleCheckArgs, List.exists_mem_cons_iff]
    split
    · next r hr =>
      have hs : (ruleCheckText acsm pcre node item.text).isSome := by
        show (ruleCheckText acsm pcre node (item.value.p.getD [])).isSome
        rw [hr]
        rfl
      simp [hs]
    · next hr =>
      have hn : ¬ (ruleCheckText acsm pcre node item.text).isSome := by
        show ¬ (ruleCheckText acsm pcre node (item.value.p.getD [])).isSome
        rw [hr]
        simp
      rw [ih]
      simp [hn]

/-- The check fails exactly on the argument lists with a value that one of its
first twenty hits leads to a match of. -/
theorem ruleCheckArg_isSome {info : Http} :
    (ruleCheckArg acsm pcre node info).isSome ↔ FirstHitMatches acsm pcre node info.arg.arg := by
  rw [ruleCheckArg, ruleCheckArgs_isSome]
  constructor
  · intro h
    obtain ⟨item, hitem, hs⟩ := h
    obtain ⟨r, hreach, happ, hp⟩ := ruleCheckText_isSome.mp hs
    obtain ⟨hit, hmem, hr⟩ := reached_search.mp hreach
    exact ⟨item, hitem, hit, hmem, r, hr, happ, hp⟩
  · intro h
    obtain ⟨item, hitem, hit, hmem, r, hr, happ, hp⟩ := h
    refine ⟨item, hitem, ruleCheckText_isSome.mpr ⟨r, ?_, happ, hp⟩⟩
    exact reached_search.mpr ⟨hit, hmem, hr⟩

theorem valueMatches_of_first {args : List HttpArg} (h : FirstHitMatches acsm pcre node args) :
    ValueMatches keys pcre node args := by
  obtain ⟨item, hitem, ⟨k, i⟩, hmem, hr⟩ := h
  have hk : Hit keys item.text k i := (mem_hits acsm).mp (List.mem_of_mem_take hmem)
  exact ⟨item, hitem, k, i, hk, hr⟩

/-! ## Completeness -/

theorem hitsFit_of_complete {info : Http} (h : DetectionComplete acsm node info) :
    HitsFit acsm node info := by
  intro item hitem k i hhit r hr happ
  -- ask with a matcher that accepts this rule on this value and nothing else
  let only : RuleNode → List Byte → Bool := fun q t => decide (q = r ∧ t = item.text)
  have hval : ValueMatches keys only node info.arg.arg :=
    ⟨item, hitem, k, i, hhit, r, hr, happ, by simp [only]⟩
  obtain ⟨item', -, hit, hmem, q, hq, -, hp⟩ := ruleCheckArg_isSome.mp ((h only).mpr hval)
  obtain ⟨hqr, htext⟩ := of_decide_eq_true hp
  rw [htext] at hmem
  exact ⟨hit, hmem, hqr ▸ hq⟩

theorem complete_of_hitsFit {info : Http} (h : HitsFit acsm node info) :
    DetectionComplete acsm node info := by
  intro only
  rw [ruleCheckArg_isSome]
  constructor
  · exact valueMatches_of_first
  · intro hval
    obtain ⟨item, hitem, k, i, hhit, r, hr, happ, hp⟩ := hval
    obtain ⟨hit, hmem, hr'⟩ := h item hitem k i hhit r hr happ
    exact ⟨item, hitem, hit, hmem, r, hr', happ, hp⟩

theorem complete_iff {info : Http} : DetectionComplete acsm node info ↔ HitsFit acsm node info :=
  ⟨hitsFit_of_complete, complete_of_hitsFit⟩

/-- **`rule_check_arg` fails exactly for a match behind one of the first twenty
hits of a value, and this leaves nothing out, whatever the rules match, exactly
when those hits lead to all the rules the hits of the value lead to.** -/
theorem ruleCheckArg_complete (acsm : AcsmSearch keys) (node : RuleTable) (info : Http) :
    (∀ pcre, (ruleCheckArg acsm pcre node info).isSome ↔
      FirstHitMatches acsm pcre node info.arg.arg) ∧
    (DetectionComplete acsm node info ↔ HitsFit acsm node info) :=
  ⟨fun _ => ruleCheckArg_isSome, complete_iff⟩

/-- Values with at most twenty hits fit. -/
theorem hitsFit_of_few {info : Http}
    (h : ∀ item ∈ info.arg.arg, (hits acsm item.text).length ≤ HIT_MAX) :
    HitsFit acsm node info := by
  intro item hitem k i hhit r hr _
  have hmem : (k, i) ∈ (hits acsm item.text).take HIT_MAX := by
    rw [List.take_of_length_le (h item hitem)]
    exact (mem_hits acsm).mpr hhit
  exact ⟨(k, i), hmem, hr⟩

end

/-! ## Padding -/

/-- Two keywords, and the occurrences in the order of the keyword list. -/
def paddingKeys : List KeyNode := [⟨[97], 1, 0⟩, ⟨[98], 2, 0⟩]

def inOrder (keys : List KeyNode) : AcsmSearch keys where
  calls := occurrences keys
  once _ := List.Perm.refl _

/-- One rule, for the second keyword. -/
def paddingNode : RuleTable
  | 2 => [{ iTar := 2 }]
  | _ => []

/-- Twenty times the first keyword, then the second. -/
def paddedValue : Http :=
  { arg := { arg := [{ value := { p := some (List.replicate 20 97 ++ [98]) } }] } }

/-- The twenty-first hit is not reported. -/
theorem ruleCheckArg_padded : ¬ DetectionComplete (inOrder paddingKeys) paddingNode paddedValue := by
  intro h
  have hval : ValueMatches paddingKeys (fun _ _ => true) paddingNode paddedValue.arg.arg := by
    refine ⟨_, List.mem_singleton.mpr rfl, ⟨[98], 2, 0⟩, 20, ?_, { iTar := 2 }, ?_, ?_, rfl⟩
    · exact ⟨by decide, by decide, by decide, trivial⟩
    · decide
    · decide
  have hsome := (h fun _ _ => true).mpr hval
  have hnone : ruleCheckArg (inOrder paddingKeys) (fun _ _ => true) paddingNode paddedValue = none := by
    decide
  rw [hnone] at hsome
  cases hsome

end WafProxy
