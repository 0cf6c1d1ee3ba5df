import Mathlib.Data.List.DropRight
import WafProxy.Http.Decode
import WafProxy.Lib.Stack

/-
  Paths and their segments — http_decode.c

  A path is read segment by segment. What is kept of it ends with a slash in front of
  each segment, and a `..` cuts it behind the last slash but one. The last segment has no
  slash behind it, and is treated on its own: a `.` or a `..` there takes the slash in
  front of it along, and a `..` that leaves the first slash only is refused.

  What is proved:
    1. `collapsed_pathOf` — in front of the last segment, what is kept is a stack, and
       the segments are its moves.
    2. `collapsed_normal` — what is left of a path is in normal form.
    3. `NormalForm.collapsed`, `NormalForm.spec` — a path in normal form is left as it is;
       it has no backslash, no two slashes behind each other and no dot segment.
    4. `collapsed_eq_none_iff` — which rooted paths are refused.

  Correspondence (C ↔ Lean):
    `s[x] == '/' || s[x] == '\\'`               ↔ `isSlash`
    `id --; while(id>0 && s[--id] != '/')`      ↔ `parent`
    the loop, one segment and its slash         ↔ `segmentStep`
    the loop, the segment in front of the NUL   ↔ `lastStep`
-/

namespace WafProxy
open Lib

/-! ## Segments -/

def isSlash (b : Byte) : Bool := b = ch '/' || b = ch '\\'

/-- What stands in front of, between and behind the slashes. -/
def segments (path : List Byte) : List (List Byte) := path.splitOnP isSlash

def dot : List Byte := str "."

def dotdot : List Byte := str ".."

example : segments (str "/a\\..//b") = [[], str "a", dotdot, [], str "b"] := by decide

/-- A segment that names something. -/
structure OrdinarySegment (seg : List Byte) : Prop where
  ne_nil : seg ≠ []
  ne_dot : seg ≠ dot
  ne_dotdot : seg ≠ dotdot
  plain : ∀ b ∈ seg, isSlash b = false

theorem segments_cons {b : Byte} (hb : isSlash b = true) (text : List Byte) :
    segments (b :: text) = [] :: segments text :=
  List.splitOnP_append_cons [] text hb

/-- A segment in front of a slash. -/
theorem segments_append {seg : List Byte} (hseg : ∀ b ∈ seg, isSlash b = false) {b : Byte} (hb : isSlash b = true)
    (text : List Byte) : segments (seg ++ b :: text) = seg :: segments text :=
  List.splitOnP_append_cons_of_forall_mem hseg b hb text

theorem segments_plain {seg : List Byte} (hseg : ∀ b ∈ seg, isSlash b = false) : segments seg = [seg] :=
  List.splitOnP_eq_singleton hseg

theorem segments_ne_nil (text : List Byte) : segments text ≠ [] := List.splitOnP_ne_nil _ _

/-- No segment has a slash in it. -/
theorem segments_noSlash (text : List Byte) : ∀ seg ∈ segments text, ∀ b ∈ seg, isSlash b = false := by
  induction text with
  | nil =>
    intro seg hseg
    obtain rfl := List.mem_singleton.mp hseg
    exact fun _ h => absurd h List.not_mem_nil
  | cons e text ih =>
    by_cases he : isSlash e = true
    · rw [segments_cons he]
      exact List.forall_mem_cons.mpr ⟨fun _ h => absurd h List.not_mem_nil, ih⟩
    · rw [segments, List.splitOnP_cons_eq_if_modifyHead, if_neg he, ← segments]
      cases hsegs : segments text with
      | nil => exact absurd hsegs (segments_ne_nil text)
      | cons seg segs =>
        rw [hsegs] at ih
        obtain ⟨hseg, hrest⟩ := List.forall_mem_cons.mp ih
        refine List.forall_mem_cons.mpr ⟨?_, hrest⟩
        exact List.forall_mem_cons.mpr ⟨Bool.eq_false_iff.mpr he, hseg⟩

/-! ## What a segment does -/

/-- What is kept up to the last slash but one; `[]` if there is none. -/
def parent (out : List Byte) : List Byte := out.dropLast.rdropWhile fun b => b ≠ ch '/'

/-- A segment with a slash behind it. -/
def segmentStep (out : List Byte) (slashseen : Bool) (seg : List Byte) : Option (List Byte) :=
  if seg = [] then some (if slashseen then out else out ++ [ch '/'])
  else if seg = dot then some out
  else if seg = dotdot then
    if out.length ≤ 1 ∨ parent out = [] then none else some (parent out)
  else some (out ++ seg ++ [ch '/'])

/-- The segment in front of the NUL. -/
def lastStep (out seg : List Byte) : Option (List Byte) :=
  if seg = [] then some out
  else if seg = dot then some (if 1 < out.length then out.dropLast else out)
  else if seg = dotdot then
    if out.length ≤ 1 ∨ (parent out).length ≤ 1 then none else some (parent out).dropLast
  else some (out ++ seg)

/-- What is left of a path, from its segments; `none` if it is refused. -/
def collapsed (out : List Byte) (slashseen : Bool) : List (List Byte) → Option (List Byte)
  | [] => some out
  | [seg] => lastStep out seg
  | seg :: segs => (segmentStep out slashseen seg).bind fun out => collapsed out true segs

example : collapsed [] false (segments (str "//a\\./b/../c/.")) = some (str "/a/c") := by decide

theorem collapsed_cons (out : List Byte) (slashseen : Bool) (seg : List Byte) {segs : List (List Byte)}
    (h : segs ≠ []) :
    collapsed out slashseen (seg :: segs) = (segmentStep out slashseen seg).bind fun out =>
      collapsed out true segs := by
  cases segs with
  | nil => exact absurd rfl h
  | cons => rfl

theorem segmentStep_dotdot (out : List Byte) (slashseen : Bool) : segmentStep out slashseen dotdot =
    if out.length ≤ 1 ∨ parent out = [] then none else some (parent out) := rfl

theorem segmentStep_ordinary {seg : List Byte} (h : OrdinarySegment seg) (out : List Byte) (slashseen : Bool) :
    segmentStep out slashseen seg = some (out ++ seg ++ [ch '/']) := by
  rw [segmentStep, if_neg h.ne_nil, if_neg h.ne_dot, if_neg h.ne_dotdot]

theorem lastStep_ordinary {seg : List Byte} (h : OrdinarySegment seg) (out : List Byte) :
    lastStep out seg = some (out ++ seg) := by
  rw [lastStep, if_neg h.ne_nil, if_neg h.ne_dot, if_neg h.ne_dotdot]

/-- The four kinds of segments. -/
theorem segment_cases {seg : List Byte} (hseg : ∀ b ∈ seg, isSlash b = false) :
    seg = [] ∨ seg = dot ∨ seg = dotdot ∨ OrdinarySegment seg := by
  by_cases hnil : seg = []
  · exact Or.inl hnil
  · by_cases hdot : seg = dot
    · exact Or.inr (Or.inl hdot)
    · by_cases hdotdot : seg = dotdot
      · exact Or.inr (Or.inr (Or.inl hdotdot))
      · exact Or.inr (Or.inr (Or.inr ⟨hnil, hdot, hdotdot, hseg⟩))

/-! ## The stack -/

/-- What a segment does with the segments that are kept. -/
def pathMove (seg : List Byte) : Move (List Byte) :=
  if seg = [] ∨ seg = dot then .stay else if seg = dotdot then .pop else .push seg

/-- The first segment, or nothing, and the slashes and segments behind it. -/
def pathOf (first : List Byte) : List (List Byte) → List Byte
  | [] => first ++ [ch '/']
  | seg :: st => pathOf first st ++ seg ++ [ch '/']

theorem pathMove_ordinary {seg : List Byte} (h : OrdinarySegment seg) : pathMove seg = .push seg := by
  rw [pathMove, if_neg (not_or.mpr ⟨h.ne_nil, h.ne_dot⟩), if_neg h.ne_dotdot]

/-- Only ordinary segments are kept. -/
theorem pathMove_push {seg x : List Byte} (hseg : ∀ b ∈ seg, isSlash b = false) (h : pathMove seg = .push x) :
    OrdinarySegment x := by
  rcases segment_cases hseg with rfl | rfl | rfl | hord
  · cases h
  · cases h
  · cases h
  · rw [pathMove_ordinary hord] at h
    cases h
    exact hord

theorem pathMove_eq_pop {seg : List Byte} : pathMove seg = .pop ↔ seg = dotdot := by
  refine ⟨fun h => ?_, fun h => h ▸ rfl⟩
  unfold pathMove at h
  split at h
  · cases h
  · split at h
    · assumption
    · cases h

theorem pathOf_last (first : List Byte) (st : List (List Byte)) : ∃ l, pathOf first st = l ++ [ch '/'] := by
  cases st with
  | nil => exact ⟨first, rfl⟩
  | cons seg st => exact ⟨pathOf first st ++ seg, rfl⟩

theorem pathOf_pos (first : List Byte) (st : List (List Byte)) : 0 < (pathOf first st).length := by
  obtain ⟨l, hl⟩ := pathOf_last first st
  rw [hl, List.length_append, List.length_singleton]
  omega

theorem ne_slash {b : Byte} (hb : isSlash b = false) : b ≠ ch '/' := by
  rintro rfl
  exact absurd hb (by decide)

/-- Going back over a segment. -/
theorem rdropWhile_plain {seg : List Byte} (hseg : ∀ b ∈ seg, isSlash b = false) (l : List Byte) :
    (l ++ [ch '/'] ++ seg).rdropWhile (fun b => decide (b ≠ ch '/')) = l ++ [ch '/'] := by
  induction seg using List.reverseRecOn with
  | nil =>
    rw [List.append_nil]
    exact List.rdropWhile_concat_neg _ _ _ (by simp)
  | append_singleton seg b ih =>
    have hb := hseg b (List.mem_append_right _ (List.mem_singleton_self b))
    rw [← List.append_assoc, List.rdropWhile_concat_pos _ _ b (by simp [ne_slash hb])]
    exact ih fun e he => hseg e (List.mem_append_left _ he)

theorem parent_pathOf_cons (first : List Byte) {seg : List Byte} (hseg : ∀ b ∈ seg, isSlash b = false)
    (st : List (List Byte)) : parent (pathOf first (seg :: st)) = pathOf first st := by
  obtain ⟨l, hl⟩ := pathOf_last first st
  rw [parent, pathOf, List.dropLast_concat, hl]
  exact rdropWhile_plain hseg l

theorem parent_pathOf_nil {first : List Byte} (hfirst : ∀ b ∈ first, isSlash b = false) :
    parent (pathOf first []) = [] := by
  rw [parent, pathOf, List.dropLast_concat]
  exact List.rdropWhile_eq_nil_iff.mpr fun b hb => decide_eq_true (ne_slash (hfirst b hb))

/-- A segment in front of a slash is a move of the stack. -/
theorem segmentStep_pathOf {first seg : List Byte} {st : List (List Byte)} (hfirst : ∀ b ∈ first, isSlash b = false)
    (hst : ∀ x ∈ st, OrdinarySegment x) (hseg : ∀ b ∈ seg, isSlash b = false) :
    segmentStep (pathOf first st) true seg = ((pathMove seg).apply st).map (pathOf first) := by
  rcases segment_cases hseg with rfl | rfl | rfl | hord
  · rfl
  · rfl
  · rw [segmentStep_dotdot, pathMove_eq_pop.mpr rfl]
    cases st with
    | nil =>
      rw [if_pos (Or.inr (parent_pathOf_nil hfirst))]
      rfl
    | cons x st =>
      obtain ⟨hx, -⟩ := List.forall_mem_cons.mp hst
      have hpos := pathOf_pos first st
      have hlen : 1 < (pathOf first (x :: st)).length := by
        rw [pathOf, List.length_append, List.length_append, List.length_singleton]
        omega
      rw [parent_pathOf_cons first hx.plain, if_neg]
      · rfl
      · rw [not_or, ← List.length_eq_zero_iff]
        omega
  · rw [segmentStep_ordinary hord, pathMove_ordinary hord]
    rfl

/-- **In front of the last segment** the segments are the moves of a stack. -/
theorem collapsed_pathOf {first : List Byte} (hfirst : ∀ b ∈ first, isSlash b = false) (last : List Byte) :
    ∀ (segs st : List (List Byte)), (∀ seg ∈ segs, ∀ b ∈ seg, isSlash b = false) → (∀ x ∈ st, OrdinarySegment x) →
    collapsed (pathOf first st) true (segs ++ [last]) =
      (Move.run st (segs.map pathMove)).bind fun st => lastStep (pathOf first st) last := by
  intro segs
  induction segs with
  | nil => exact fun _ _ _ => rfl
  | cons seg segs ih =>
    intro st hsegs hst
    obtain ⟨hseg, hrest⟩ := List.forall_mem_cons.mp hsegs
    rw [List.cons_append, collapsed_cons _ _ _ (by simp), segmentStep_pathOf hfirst hst hseg, List.map_cons,
      Move.run]
    cases hmove : (pathMove seg).apply st with
    | none => rfl
    | some st' =>
      rw [Option.map_some, Option.bind_some, Option.bind_some]
      exact ih st' hrest (Move.apply_forall (fun _ => pathMove_push hseg) hst hmove)

/-! ## The normal form -/

/-- What the header promises of a path. -/
structure NormalPath (out : List Byte) : Prop where
  noBackslash : ch '\\' ∉ out
  noDoubleSlash : ¬ [ch '/', ch '/'] <:+: out
  noDots : ∀ seg ∈ segments out, seg ≠ dot ∧ seg ≠ dotdot

/-- The segments of a path that is left as it is: the first and the last may be empty. -/
inductive NormalForm : List Byte → Prop where
  | segment {last : List Byte} (hlast : last = [] ∨ OrdinarySegment last) : NormalForm last
  | behind {first last : List Byte} {st : List (List Byte)} (hfirst : first = [] ∨ OrdinarySegment first)
      (hst : ∀ x ∈ st, OrdinarySegment x) (hlast : last = [] ∨ OrdinarySegment last) :
        NormalForm (pathOf first st ++ last)

theorem plain_of {seg : List Byte} (h : seg = [] ∨ OrdinarySegment seg) : ∀ b ∈ seg, isSlash b = false := by
  rcases h with rfl | hord
  · exact fun _ hb => absurd hb List.not_mem_nil
  · exact hord.plain

theorem dropLast_normal {first : List Byte} (hfirst : first = [] ∨ OrdinarySegment first) {st : List (List Byte)}
    (hst : ∀ x ∈ st, OrdinarySegment x) : NormalForm (pathOf first st).dropLast := by
  cases st with
  | nil =>
    rw [pathOf, List.dropLast_concat]
    exact .segment hfirst
  | cons x st =>
    obtain ⟨hx, hrest⟩ := List.forall_mem_cons.mp hst
    rw [pathOf, List.dropLast_concat]
    exact .behind hfirst hrest (Or.inr hx)

theorem lastStep_normal {first last out : List Byte} (hfirst : first = [] ∨ OrdinarySegment first)
    {st : List (List Byte)}
    (hst : ∀ x ∈ st, OrdinarySegment x) (hlast : ∀ b ∈ last, isSlash b = false)
    (h : lastStep (pathOf first st) last = some out) : NormalForm out := by
  have hwhole : NormalForm (pathOf first st) := by
    rw [← List.append_nil (pathOf first st)]
    exact .behind hfirst hst (Or.inl rfl)
  rcases segment_cases hlast with rfl | rfl | rfl | hord
  · obtain rfl : pathOf first st = out := Option.some.inj h
    exact hwhole
  · obtain rfl : (if 1 < (pathOf first st).length then _ else _) = out := Option.some.inj h
    split
    · exact dropLast_normal hfirst hst
    · exact hwhole
  · cases st with
    | nil =>
      have hnone : lastStep (pathOf first []) dotdot = none := by
        refine if_pos (Or.inr ?_)
        rw [parent_pathOf_nil (plain_of hfirst)]
        exact Nat.zero_le 1
      rw [hnone] at h
      cases h
    | cons x st =>
      obtain ⟨hx, hrest⟩ := List.forall_mem_cons.mp hst
      have hstep : lastStep (pathOf first (x :: st)) dotdot = if _ ∨ _ then none else some _ := rfl
      rw [hstep, parent_pathOf_cons first hx.plain] at h
      split at h
      · cases h
      · obtain rfl := Option.some.inj h
        exact dropLast_normal hfirst hrest
  · rw [lastStep_ordinary hord] at h
    obtain rfl := Option.some.inj h
    exact .behind hfirst hst (Or.inr hord)

/-- The stack in front of the last segment. -/
theorem ordinary_run {segs st : List (List Byte)} (hsegs : ∀ seg ∈ segs, ∀ b ∈ seg, isSlash b = false)
    (h : Move.run [] (segs.map pathMove) = some st) : ∀ x ∈ st, OrdinarySegment x := by
  refine Move.run_forall ?_ (fun x hx => absurd hx List.not_mem_nil) h
  intro x hx
  obtain ⟨seg, hseg, hpush⟩ := List.mem_map.mp hx
  exact pathMove_push (hsegs seg hseg) hpush

theorem collapsed_pathOf_normal {first out : List Byte} (hfirst : first = [] ∨ OrdinarySegment first)
    {segs : List (List Byte)} (hsegs : ∀ seg ∈ segs, ∀ b ∈ seg, isSlash b = false) (hne : segs ≠ [])
    (h : collapsed (pathOf first []) true segs = some out) : NormalForm out := by
  obtain ⟨front, last, rfl⟩ := (List.eq_nil_or_concat segs).resolve_left hne
  rw [List.concat_eq_append] at hsegs h
  have hfront : ∀ seg ∈ front, ∀ b ∈ seg, isSlash b = false := fun seg hseg =>
    hsegs seg (List.mem_append_left _ hseg)
  have hlast : ∀ b ∈ last, isSlash b = false := hsegs last (List.mem_append_right _ (List.mem_singleton_self last))
  rw [collapsed_pathOf (plain_of hfirst) last front [] hfront fun x hx => absurd hx List.not_mem_nil] at h
  obtain ⟨st, hrun, hstep⟩ := Option.bind_eq_some_iff.mp h
  exact lastStep_normal hfirst (ordinary_run hfront hrun) hlast hstep

/-- **What is left of a path** is in normal form. -/
theorem collapsed_normal {out : List Byte} : ∀ (segs : List (List Byte)) (slashseen : Bool),
    (∀ seg ∈ segs, ∀ b ∈ seg, isSlash b = false) → collapsed [] slashseen segs = some out → NormalForm out := by
  intro segs
  induction segs with
  | nil =>
    intro slashseen _ h
    obtain rfl := Option.some.inj h
    exact .segment (Or.inl rfl)
  | cons seg segs ih =>
    intro slashseen hsegs h
    obtain ⟨hseg, hrest⟩ := List.forall_mem_cons.mp hsegs
    by_cases hne : segs = []
    · subst hne
      rcases segment_cases hseg with rfl | rfl | rfl | hord
      · obtain rfl := Option.some.inj h
        exact .segment (Or.inl rfl)
      · obtain rfl := Option.some.inj h
        exact .segment (Or.inl rfl)
      · cases h
      · obtain rfl := Option.some.inj ((lastStep_ordinary hord []).symm.trans h)
        exact .segment (Or.inr hord)
    · rw [collapsed_cons _ _ _ hne] at h
      rcases segment_cases hseg with rfl | rfl | rfl | hord
      · cases slashseen with
        | true => exact ih true hrest h
        | false => exact @collapsed_pathOf_normal [] out (Or.inl rfl) segs hrest hne h
      · exact ih true hrest h
      · cases h
      · rw [segmentStep_ordinary hord, Option.bind_some] at h
        exact collapsed_pathOf_normal (Or.inr hord) hrest hne h

/-- The segments of what is kept, and of what follows it. -/
theorem segments_pathOf {first : List Byte} (hfirst : ∀ b ∈ first, isSlash b = false) : ∀ (st : List (List Byte)),
    (∀ x ∈ st, OrdinarySegment x) → ∀ text : List Byte,
    segments (pathOf first st ++ text) = first :: (st.reverse ++ segments text) := by
  intro st
  induction st with
  | nil =>
    intro _ text
    rw [pathOf, List.append_assoc]
    exact segments_append hfirst rfl text
  | cons x st ih =>
    intro hst text
    obtain ⟨hx, hrest⟩ := List.forall_mem_cons.mp hst
    have hmore := ih hrest (x ++ ch '/' :: text)
    rw [segments_append hx.plain rfl] at hmore
    rw [pathOf, List.append_assoc, List.append_assoc, List.singleton_append, hmore, List.reverse_cons,
      List.append_assoc]
    rfl

/-- **A path in normal form** is left as it is. -/
theorem NormalForm.collapsed {out : List Byte} (h : NormalForm out) :
    collapsed [] false (segments out) = some out := by
  cases h with
  | segment hlast =>
    rw [segments_plain (plain_of hlast)]
    rcases hlast with rfl | hord
    · rfl
    · exact lastStep_ordinary hord []
  | @behind first last st hfirst hst hlast =>
    have hrev : ∀ x ∈ st.reverse, OrdinarySegment x := fun x hx => hst x (List.mem_reverse.mp hx)
    have hfirstStep : segmentStep [] false first = some (pathOf first []) := by
      rcases hfirst with rfl | hord
      · rfl
      · exact segmentStep_ordinary hord [] false
    have hpushes : st.reverse.map pathMove = st.reverse.map .push :=
      List.map_congr_left fun x hx => pathMove_ordinary (hrev x hx)
    have hlastStep : lastStep (pathOf first st) last = some (pathOf first st ++ last) := by
      rcases hlast with rfl | hord
      · rw [List.append_nil]
        rfl
      · exact lastStep_ordinary hord _
    rw [segments_pathOf (plain_of hfirst) st hst, segments_plain (plain_of hlast), collapsed_cons _ _ _ (by simp),
      hfirstStep, Option.bind_some, collapsed_pathOf (plain_of hfirst) last _ [] (fun x hx => (hrev x hx).plain)
        (fun x hx => absurd hx List.not_mem_nil), hpushes, Move.run_map_push, List.reverse_reverse, List.append_nil]
    exact hlastStep

theorem pathOf_forall {P : Byte → Prop} (hslash : P (ch '/')) {first : List Byte} (hfirst : ∀ b ∈ first, P b) :
    ∀ st : List (List Byte), (∀ x ∈ st, ∀ b ∈ x, P b) → ∀ b ∈ pathOf first st, P b := by
  intro st
  induction st with
  | nil => exact fun _ => List.forall_mem_append.mpr ⟨hfirst, List.forall_mem_singleton.mpr hslash⟩
  | cons x st ih =>
    intro hst
    obtain ⟨hx, hrest⟩ := List.forall_mem_cons.mp hst
    exact List.forall_mem_append.mpr
      ⟨List.forall_mem_append.mpr ⟨ih hrest, hx⟩, List.forall_mem_singleton.mpr hslash⟩

theorem ne_backslash {b : Byte} (hb : isSlash b = false) : b ≠ ch '\\' := by
  rintro rfl
  exact absurd hb (by decide)

/-- Two slashes behind each other have an empty segment between them. -/
theorem noDoubleSlash {first last out : List Byte} {mid : List (List Byte)}
    (hsegs : segments out = first :: (mid ++ [last]))
    (hmid : ∀ x ∈ mid, x ≠ []) : ¬ [ch '/', ch '/'] <:+: out := by
  rintro ⟨front, rest, rfl⟩
  have hsplit : segments (front ++ [ch '/', ch '/'] ++ rest) = segments front ++ [] :: segments rest := by
    rw [List.append_assoc]
    refine (List.splitOnP_append_cons front (ch '/' :: rest) rfl).trans ?_
    exact congrArg _ (segments_cons rfl rest)
  obtain ⟨x, l, hfront⟩ := List.exists_cons_of_ne_nil (segments_ne_nil front)
  obtain ⟨l', y, hrest⟩ := (List.eq_nil_or_concat (segments rest)).resolve_left (segments_ne_nil rest)
  have hassoc : l ++ [] :: (l' ++ [y]) = (l ++ [] :: l') ++ [y] := by simp
  rw [hsplit, hfront, hrest, List.concat_eq_append, List.cons_append, hassoc] at hsegs
  have hinner := (List.append_inj' (List.cons.inj hsegs).2 rfl).1
  exact hmid [] (by rw [← hinner]; simp) rfl

/-- **The normal form** is as the header says. -/
theorem NormalForm.spec {out : List Byte} (h : NormalForm out) : NormalPath out := by
  cases h with
  | segment hlast =>
    have hplain := plain_of hlast
    refine ⟨fun hmem => ne_backslash (hplain _ hmem) rfl, ?_, ?_⟩
    · intro hslashes
      have hmem : ch '/' ∈ out := hslashes.subset List.mem_cons_self
      exact ne_slash (hplain _ hmem) rfl
    · rw [segments_plain hplain]
      refine List.forall_mem_singleton.mpr ?_
      rcases hlast with rfl | hord
      · exact ⟨by decide, by decide⟩
      · exact ⟨hord.ne_dot, hord.ne_dotdot⟩
  | @behind first last st hfirst hst hlast =>
    have hends : ∀ seg : List Byte, seg = [] ∨ OrdinarySegment seg → seg ≠ dot ∧ seg ≠ dotdot := by
      rintro seg (rfl | hord)
      · exact ⟨by decide, by decide⟩
      · exact ⟨hord.ne_dot, hord.ne_dotdot⟩
    have hsegs : segments (pathOf first st ++ last) = first :: (st.reverse ++ [last]) := by
      rw [segments_pathOf (plain_of hfirst) st hst, segments_plain (plain_of hlast)]
    have hkept : ∀ b ∈ pathOf first st ++ last, b ≠ ch '\\' :=
      List.forall_mem_append.mpr
        ⟨pathOf_forall (by decide) (fun b hb => ne_backslash (plain_of hfirst b hb)) st
          fun x hx b hb => ne_backslash ((hst x hx).plain b hb), fun b hb => ne_backslash (plain_of hlast b hb)⟩
    refine ⟨fun hmem => hkept _ hmem rfl, ?_, ?_⟩
    · exact noDoubleSlash hsegs fun x hx => (hst x (List.mem_reverse.mp hx)).ne_nil
    · rw [hsegs]
      refine List.forall_mem_cons.mpr ⟨hends first hfirst, List.forall_mem_append.mpr ⟨?_, ?_⟩⟩
      · exact fun x hx => hends x (Or.inr (hst x (List.mem_reverse.mp hx)))
      · exact List.forall_mem_singleton.mpr (hends last hlast)

/-! ## Climbing -/

/-- How many segments name something. -/
def named (segs : List (List Byte)) : Nat := segs.countP fun seg => seg ≠ [] ∧ seg ≠ dot ∧ seg ≠ dotdot

def climbs (segs : List (List Byte)) : Nat := segs.count dotdot

/-- Some `..` has no more segments with a name in front of it than other `..`. -/
def Escapes (segs : List (List Byte)) : Prop :=
  ∃ front behind, segs = front ++ dotdot :: behind ∧ named front ≤ climbs front

/-- The segments climb back to the root, and not further. -/
def ClimbsToRoot (segs : List (List Byte)) : Prop := ¬ Escapes segs ∧ named segs = climbs segs

/-- The last segment is a `..` without a slash, and takes the last name that is left. -/
def EndsAtRoot (segs : List (List Byte)) : Prop :=
  ∃ front, segs = front ++ [dotdot] ∧ ¬ Escapes front ∧ named front = climbs front + 1

theorem pushes_pathMove (segs : List (List Byte)) : Move.pushes (segs.map pathMove) = named segs := by
  unfold named
  induction segs with
  | nil => rfl
  | cons seg segs ih =>
    rw [List.map_cons, List.countP_cons, ← ih]
    unfold pathMove
    by_cases hstay : seg = [] ∨ seg = dot
    · rw [if_pos hstay, Move.pushes, if_neg]
      · rfl
      · simp only [decide_eq_true_eq]
        exact fun h => hstay.elim h.1 h.2.1
    · obtain ⟨hnil, hdot⟩ := not_or.mp hstay
      rw [if_neg hstay]
      by_cases hpop : seg = dotdot
      · rw [if_pos hpop, Move.pushes, if_neg]
        · rfl
        · simp only [decide_eq_true_eq]
          exact fun h => h.2.2 hpop
      · rw [if_neg hpop, Move.pushes, if_pos]
        exact decide_eq_true ⟨hnil, hdot, hpop⟩

theorem pops_pathMove (segs : List (List Byte)) : Move.pops (segs.map pathMove) = climbs segs := by
  unfold climbs
  induction segs with
  | nil => rfl
  | cons seg segs ih =>
    rw [List.map_cons, List.count_cons, ← ih]
    unfold pathMove
    by_cases hstay : seg = [] ∨ seg = dot
    · rw [if_pos hstay, Move.pops, if_neg]
      · rfl
      · rw [beq_iff_eq]
        rintro rfl
        exact absurd hstay (by decide)
    · rw [if_neg hstay]
      by_cases hpop : seg = dotdot
      · rw [if_pos hpop, Move.pops, if_pos (beq_iff_eq.mpr hpop)]
      · rw [if_neg hpop, Move.pops, if_neg (fun h => hpop (beq_iff_eq.mp h))]
        rfl

/-- **Escaping** is taking from the empty stack. -/
theorem escapes_iff (segs : List (List Byte)) : Escapes segs ↔ Move.run [] (segs.map pathMove) = none := by
  rw [Move.run_eq_none_iff]
  constructor
  · rintro ⟨front, behind, rfl, hle⟩
    refine ⟨front.map pathMove, behind.map pathMove, ?_, ?_⟩
    · rw [List.map_append, List.map_cons, pathMove_eq_pop.mpr rfl]
    · rw [pushes_pathMove, pops_pathMove, List.length_nil, Nat.zero_add]
      exact hle
  · rintro ⟨front, behind, hmap, hle⟩
    obtain ⟨front', rest, rfl, rfl, hrest⟩ := List.map_eq_append_iff.mp hmap
    obtain ⟨seg, behind', rfl, hpop, -⟩ := List.map_eq_cons_iff.mp hrest
    obtain rfl := pathMove_eq_pop.mp hpop
    rw [pushes_pathMove, pops_pathMove, List.length_nil, Nat.zero_add] at hle
    exact ⟨front', behind', rfl, hle⟩

/-- The height of the stack without an escape. -/
theorem not_escapes {segs : List (List Byte)} (h : ¬ Escapes segs) :
    ∃ st, Move.run [] (segs.map pathMove) = some st ∧ st.length + climbs segs = named segs := by
  rw [escapes_iff, ← ne_eq, Option.ne_none_iff_exists'] at h
  obtain ⟨st, hrun⟩ := h
  have hheight := Move.run_length hrun
  rw [pushes_pathMove, pops_pathMove, List.length_nil, Nat.zero_add] at hheight
  exact ⟨st, hrun, hheight⟩

/-- The last segment is refused on the root, and on a stack of one segment too. -/
theorem lastStep_eq_none_iff {last : List Byte} {st : List (List Byte)} (hst : ∀ x ∈ st, OrdinarySegment x)
    (hlast : ∀ b ∈ last, isSlash b = false) :
    lastStep (pathOf [] st) last = none ↔ last = dotdot ∧ st.length ≤ 1 := by
  rcases segment_cases hlast with rfl | rfl | rfl | hord
  · exact ⟨fun h => (by cases h), fun h => absurd h.1 (by decide)⟩
  · exact ⟨fun h => (by cases h), fun h => absurd h.1 (by decide)⟩
  · have hstep : lastStep (pathOf [] st) dotdot =
      if (pathOf [] st).length ≤ 1 ∨ (parent (pathOf [] st)).length ≤ 1 then none
      else some (parent (pathOf [] st)).dropLast := rfl
    rw [hstep]
    cases st with
    | nil => exact ⟨fun _ => ⟨rfl, Nat.zero_le 1⟩, fun _ => rfl⟩
    | cons x st =>
      obtain ⟨hx, hrest⟩ := List.forall_mem_cons.mp hst
      rw [parent_pathOf_cons [] hx.plain]
      cases st with
      | nil => exact ⟨fun _ => ⟨rfl, Nat.le_refl 1⟩, fun _ => if_pos (Or.inr (Nat.le_refl 1))⟩
      | cons y st =>
        have hpos := pathOf_pos [] st
        rw [if_neg]
        · exact ⟨fun h => (by cases h), fun h => absurd h.2 (by simp)⟩
        · simp only [pathOf, List.length_append, List.length_singleton]
          omega
  · rw [lastStep_ordinary hord]
    exact ⟨fun h => (by cases h), fun h => absurd h.1 hord.ne_dotdot⟩

theorem endsAtRoot_concat {front : List (List Byte)} {last : List Byte} :
    EndsAtRoot (front ++ [last]) ↔ last = dotdot ∧ ¬ Escapes front ∧ named front = climbs front + 1 := by
  constructor
  · rintro ⟨front', heq, hrest⟩
    obtain ⟨rfl, hlast⟩ := List.append_inj' heq rfl
    exact ⟨(List.cons.inj hlast).1, hrest⟩
  · rintro ⟨rfl, hrest⟩
    exact ⟨front, rfl, hrest⟩

/-- A path that ends at the root does not escape. -/
theorem EndsAtRoot.not_escapes {segs : List (List Byte)} (h : EndsAtRoot segs) : ¬ Escapes segs := by
  obtain ⟨front, rfl, hfront, hnamed⟩ := h
  obtain ⟨st, hrun, hheight⟩ := WafProxy.not_escapes hfront
  obtain ⟨x, rfl⟩ : ∃ x, st = [x] := List.length_eq_one_iff.mp (by omega)
  rw [escapes_iff, List.map_append, Move.run_append, hrun]
  exact fun h => by cases h

/-- **Which rooted paths are refused**: one that escapes, and one that ends at the root. -/
theorem collapsed_eq_none_iff {segs : List (List Byte)} (hsegs : ∀ seg ∈ segs, ∀ b ∈ seg, isSlash b = false)
    (hne : segs ≠ []) : collapsed (pathOf [] []) true segs = none ↔ Escapes segs ∨ EndsAtRoot segs := by
  obtain ⟨front, last, rfl⟩ := (List.eq_nil_or_concat segs).resolve_left hne
  rw [List.concat_eq_append] at hsegs ⊢
  obtain ⟨hfront, hlast⟩ := List.forall_mem_append.mp hsegs
  replace hlast := List.forall_mem_singleton.mp hlast
  rw [collapsed_pathOf (fun b hb => absurd hb List.not_mem_nil) last front [] hfront fun x hx =>
    absurd hx List.not_mem_nil,
    escapes_iff, endsAtRoot_concat, List.map_append, Move.run_append]
  by_cases hesc : Escapes front
  · rw [(escapes_iff front).mp hesc]
    exact ⟨fun _ => Or.inl rfl, fun _ => rfl⟩
  · obtain ⟨st, hrun, hheight⟩ := not_escapes hesc
    rw [hrun, Option.bind_some, Option.bind_some, lastStep_eq_none_iff (ordinary_run hfront hrun) hlast]
    constructor
    · rintro ⟨rfl, hle⟩
      cases st with
      | nil => exact Or.inl rfl
      | cons x st =>
        rw [List.length_cons] at hle hheight
        exact Or.inr ⟨rfl, hesc, by omega⟩
    · rintro (hnone | ⟨rfl, -, hnamed⟩)
      · rcases segment_cases hlast with rfl | rfl | rfl | hord
        · cases hnone
        · cases hnone
        · cases st with
          | nil => exact ⟨rfl, Nat.zero_le 1⟩
          | cons x st => cases hnone
        · rw [List.map_singleton, pathMove_ordinary hord] at hnone
          cases hnone
      · exact ⟨rfl, by omega⟩

example : collapsed [] false (segments (str "/a/../")) = some (str "/") ∧
    collapsed [] false (segments (str "/a/..")) = none := by decide

/-- **A path that climbs back to the root** becomes the root, unless it ends there. -/
theorem collapsed_root {segs : List (List Byte)} (hsegs : ∀ seg ∈ segs, ∀ b ∈ seg, isSlash b = false)
    (hne : segs ≠ []) (hroot : ClimbsToRoot segs) (hend : ¬ EndsAtRoot segs) :
    collapsed (pathOf [] []) true segs = some [ch '/'] := by
  obtain ⟨hesc, hnamed⟩ := hroot
  obtain ⟨st, hrun, hheight⟩ := not_escapes hesc
  obtain rfl : st = [] := List.eq_nil_of_length_eq_zero (by omega)
  obtain ⟨front, last, rfl⟩ := (List.eq_nil_or_concat segs).resolve_left hne
  rw [List.concat_eq_append] at hsegs hrun hend ⊢
  obtain ⟨hfront, hlast⟩ := List.forall_mem_append.mp hsegs
  replace hlast := List.forall_mem_singleton.mp hlast
  rw [List.map_append, Move.run_append] at hrun
  obtain ⟨st, hst, hlastMove⟩ := Option.bind_eq_some_iff.mp hrun
  rw [collapsed_pathOf (fun b hb => absurd hb List.not_mem_nil) last front [] hfront
    (fun x hx => absurd hx List.not_mem_nil), hst, Option.bind_some]
  rcases segment_cases hlast with rfl | rfl | rfl | hord
  · obtain rfl : st = [] := Option.some.inj hlastMove
    rfl
  · obtain rfl : st = [] := Option.some.inj hlastMove
    rfl
  · exfalso
    cases st with
    | nil => cases hlastMove
    | cons x st =>
      obtain rfl : st = [] := Option.some.inj hlastMove
      have hnot : ¬ Escapes front := by
        rw [escapes_iff, hst]
        exact fun h => by cases h
      obtain ⟨st', hst', hheight'⟩ := not_escapes hnot
      obtain rfl : [x] = st' := Option.some.inj (hst.symm.trans hst')
      rw [List.length_singleton] at hheight'
      exact hend (endsAtRoot_concat.mpr ⟨rfl, hnot, by omega⟩)
  · rw [List.map_singleton, pathMove_ordinary hord] at hlastMove
    cases hlastMove

/-! ## The root -/

theorem named_root (segs : List (List Byte)) : named ([] :: segs) = named segs := rfl

theorem climbs_root (segs : List (List Byte)) : climbs ([] :: segs) = climbs segs := rfl

theorem escapes_root (segs : List (List Byte)) : Escapes ([] :: segs) ↔ Escapes segs := by
  rw [escapes_iff, escapes_iff]
  exact Iff.rfl

theorem endsAtRoot_root {segs : List (List Byte)} (hne : segs ≠ []) :
    EndsAtRoot ([] :: segs) ↔ EndsAtRoot segs := by
  obtain ⟨front, last, rfl⟩ := (List.eq_nil_or_concat segs).resolve_left hne
  rw [List.concat_eq_append, ← List.cons_append, endsAtRoot_concat, endsAtRoot_concat, escapes_root, named_root,
    climbs_root]

end WafProxy
