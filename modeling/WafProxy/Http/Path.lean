import WafProxy.Http.PathText
import WafProxy.Lib.Cells

/-
  Collapsing a path in its own buffer — http_decode.c

  The loop reads at `is` and writes at `id`, which never passes `is`. A turn consumes a
  slash, a dot segment with its slash, or a segment up to its slash; a segment in
  front of the NUL is copied together with the NUL.

  What is proved:
    1. `ends_httpDecodePath` — the loop ends, keeps to the string and its NUL, and leaves
       what `collapsed` makes of the segments.
    2. `httpDecodePath_normal` — what an accepted path becomes is in normal form, and is
       left as it is the next time.
    3. `httpDecodePath_escapes_iff` — a rooted path is refused exactly when it escapes,
       unless its last segment is a `..` that takes the last name.

  Correspondence (C ↔ Lean):
    `http_decode_path`                        ↔ `httpDecodePath`
    one turn of its loop                      ↔ `pathTurn`, `segmentTurn`
    the branches for `XXX/..` and `XXX/../`   ↔ `lastDotdot`, `innerDotdot`
    the two inner loops                       ↔ `scanBack`, `copySegment`
-/

namespace WafProxy
open Lib

variable {ν : Type}

/-! ## The model -/

structure PathState where
  is : Nat
  id : Nat
  slashseen : Bool
  deriving Repr

/-- `while(id>0 && s[--id] != '/')`: the `id` it leaves. -/
def scanBack (s : ν) : Nat → Prog ν Byte Nat
  | 0 => pure 0
  | id + 1 => do
    let b ← Prog.read s id
    if b = ch '/' then pure id else scanBack s id

section
variable [DecidableEq ν]

/-- `while(is < ls)`, with the turns that are left; it breaks at a slash. -/
def copySegment (s : ν) : Nat → Nat → Nat → Prog ν Byte (Nat × Nat)
  | 0, is, id => pure (is, id)
  | n + 1, is, id => do
    let b ← Prog.read s is
    Prog.write s id b
    if isSlash b then pure (is, id) else copySegment s n (is + 1) (id + 1)

/-- Out of root range. -/
def outOfRoot (s : ν) : Prog ν Byte (PathState ⊕ Int) := do
  Prog.write s 0 0
  pure (.inr (-1))

/-- `XXX/..` -/
def lastDotdot (s : ν) (is id : Nat) : Prog ν Byte (PathState ⊕ Int) :=
  if id = 0 ∨ id = 1 then outOfRoot s
  else do
    let id ← scanBack s (id - 1)
    if id = 0 then outOfRoot s else pure (.inl ⟨is, id, false⟩)

/-- `XXX/../` -/
def innerDotdot (s : ν) (is id : Nat) : Prog ν Byte (PathState ⊕ Int) :=
  if id = 0 ∨ id = 1 then outOfRoot s
  else do
    let id ← scanBack s (id - 1)
    let b ← Prog.read s id
    if b = ch '/' then pure (.inl ⟨is, id + 1, true⟩) else outOfRoot s

def copyTurn (s : ν) (ls is id : Nat) : Prog ν Byte (PathState ⊕ Int) := do
  let r ← copySegment s (ls - is) is id
  pure (.inl ⟨r.1, r.2, false⟩)

/-- A turn at a byte `b` that is no slash. -/
def segmentTurn (s : ν) (ls is id : Nat) (b : Byte) : Prog ν Byte (PathState ⊕ Int) :=
  if b = ch '.' then do
    let b₁ ← Prog.read s (is + 1 : Nat)
    if isSlash b₁ then pure (.inl ⟨is + 2, id, true⟩)
    else if b₁ = 0 then pure (.inl ⟨is + 1, if 1 < id then id - 1 else id, false⟩)
    else if b₁ = ch '.' then do
      let b₂ ← Prog.read s (is + 2 : Nat)
      if b₂ = 0 then lastDotdot s (is + 2) id
      else if isSlash b₂ then innerDotdot s (is + 3) id
      else copyTurn s ls is id
    else copyTurn s ls is id
  else copyTurn s ls is id

/-- One turn of the loop. -/
def pathTurn (s : ν) (ls : Nat) : PathState → Prog ν Byte (PathState ⊕ Int)
  | ⟨is, id, slashseen⟩ =>
    if is < ls then do
      let b ← Prog.read s is
      if b = 0 then do
        Prog.write s id 0
        pure (.inr 0)
      else if slashseen && isSlash b then pure (.inl ⟨is + 1, id, true⟩)
      else if isSlash b then do
        Prog.write s id (ch '/')
        pure (.inl ⟨is + 1, id + 1, true⟩)
      else segmentTurn s ls is id b
    else pure (.inr 0)

/-- `http_decode_path`. As many turns as bytes, the NUL included, are enough. -/
def httpDecodePath (s : ν) (sLen : Int) : Prog ν Byte Int :=
  if MAX_DECODE_LEN < sLen ∨ sLen ≤ 0 then pure 0
  else Prog.loop (pathTurn s (sLen.toNat + 1)) (sLen.toNat + 1) ⟨0, 0, false⟩

example : ((httpDecodePath () 14 (Cells.ofList (str "/a\\./b//../c/.") 0)).map fun r =>
    (r.1, (List.range 5).map fun i => r.2.1 () i)) = some (0, str "/a/c" ++ [0]) := by decide +kernel

end

/-! ## The inner loops -/

section
variable {s : ν} {c : Cells ν Byte} {out : List Byte}

/-- Going back to the last slash. -/
theorem ends_scanBack : ∀ out : List Byte, c.At s 0 out →
    Prog.Ends (scanBack s out.length) c fun id c' log =>
      id = (out.rdropWhile fun b => b ≠ ch '/').length - 1 ∧ c' = c ∧ Prog.LogIn s 0 out.length log := by
  intro out
  induction out using List.reverseRecOn with
  | nil => exact fun _ => Prog.ends_pure.mpr ⟨rfl, rfl, Prog.LogIn.nil⟩
  | append_singleton out b ih =>
    intro hat
    obtain ⟨hout, hb⟩ := Cells.at_append.mp hat
    rw [Cells.at_singleton, Int.zero_add] at hb
    rw [List.length_append, List.length_singleton, scanBack, Prog.ends_bind, Prog.ends_read, hb]
    by_cases hslash : b = ch '/'
    · rw [if_pos hslash, Prog.ends_pure, List.rdropWhile_concat_neg _ _ b (by simp [hslash]), List.length_append]
      exact ⟨rfl, rfl, Prog.LogIn.nil.read (by omega)⟩
    · rw [if_neg hslash, List.rdropWhile_concat_pos _ _ b (by simp [hslash])]
      refine (ih hout).mono ?_
      rintro id c' log ⟨rfl, rfl, hlog⟩
      exact ⟨rfl, rfl, (hlog.mono (Int.le_refl 0) (by omega)).read (by omega)⟩

end

section
variable [DecidableEq ν] {s : ν}

/-- What a copy leaves: the bytes at `id`, and what stood behind them. -/
def Copied (s : ν) (len is id : Nat) (l behind : List Byte) (c c' : Cells ν Byte) (log : List (Event ν)) : Prop :=
  c'.At s id l ∧ c'.At s (is + l.length : Nat) behind ∧ Cells.Within s id (len + 1) c c' ∧
    Prog.LogIn s 0 (len + 1) log

theorem Copied.cons {len is id : Nat} {b : Byte} {l behind : List Byte} {c c' : Cells ν Byte} {log : List (Event ν)}
    (hle : id ≤ is) (hlen : is ≤ len) (h : Copied s len (is + 1) (id + 1) l behind (c.set s id b) c' log) :
    Copied s len is id (b :: l) behind c c' ([.read s is] ++ ([.write s id] ++ log)) := by
  obtain ⟨hat, hbehind, hwithin, hlog⟩ := h
  have hend : is + 1 + l.length = is + (b :: l).length := by
    rw [List.length_cons]
    omega
  rw [hend] at hbehind
  refine ⟨⟨?_, hat⟩, hbehind, ?_, (hlog.write (by omega)).read (by omega)⟩
  · rw [hwithin s id (Or.inr (Or.inl (by omega)))]
    exact Cells.set_same
  · exact ((Cells.Within.refl s id _ c).set (Int.le_refl _) (by omega)).trans
      (hwithin.mono (by omega) (Int.le_refl _))

/-- The text behind what is copied stays. -/
theorem at_behind {is id : Nat} {b e : Byte} {l : List Byte} {c : Cells ν Byte} (hle : id ≤ is)
    (h : c.At s is (b :: l)) : (c.set s id e).At s (is + 1 : Nat) l :=
  (Cells.at_cons.mp h).2.set (Or.inr (Or.inl (by omega)))

/-- Copying up to a slash, which is written but not consumed. -/
theorem ends_copySegment (len : Nat) {b : Byte} (hb : isSlash b = true) (behind : List Byte) :
    ∀ (seg : List Byte) (n is id : Nat) (c : Cells ν Byte), (∀ e ∈ seg, isSlash e = false) → seg.length < n →
      id ≤ is →
    is + seg.length ≤ len → c.At s is (seg ++ b :: behind) →
    Prog.Ends (copySegment s n is id) c fun r c' log =>
      r = (is + seg.length, id + seg.length) ∧ Copied s len is id seg (b :: behind) c c' log := by
  intro seg
  induction seg with
  | nil =>
    intro n is id c _ hn hle hlen hat
    obtain ⟨n, rfl⟩ : ∃ k, n = k + 1 := ⟨n - 1, by omega⟩
    rw [List.length_nil] at hlen
    rw [copySegment, Prog.ends_bind, Prog.ends_read, (Cells.at_cons.mp hat).1, Prog.ends_bind, Prog.ends_write,
      if_pos hb,
      Prog.ends_pure]
    refine ⟨rfl, trivial, ⟨?_, at_behind hle hat⟩, ?_, (Prog.LogIn.nil.write (by omega)).read (by omega)⟩
    · by_cases heq : id = is
      · rw [heq]
        exact Cells.set_same
      · rw [List.length_nil, Cells.set_index (by omega)]
        exact (Cells.at_cons.mp hat).1
    · exact (Cells.Within.refl _ _ _ _).set (Int.le_refl _) (by omega)
  | cons e seg ih =>
    intro n is id c hseg hn hle hlen hat
    obtain ⟨he, hseg⟩ := List.forall_mem_cons.mp hseg
    obtain ⟨n, rfl⟩ : ∃ k, n = k + 1 := ⟨n - 1, by omega⟩
    rw [List.length_cons] at hn hlen
    rw [copySegment, Prog.ends_bind, Prog.ends_read, (Cells.at_cons.mp hat).1, Prog.ends_bind, Prog.ends_write,
      if_neg (by rw [he]; exact Bool.false_ne_true)]
    refine (ih n (is + 1) (id + 1) _ hseg (by omega) (by omega) (by omega) (at_behind hle hat)).mono ?_
    rintro r c' log ⟨rfl, hcopied⟩
    refine ⟨?_, hcopied.cons hle (by omega)⟩
    rw [List.length_cons]
    congr 1 <;> omega

/-- Copying what is left, the NUL included. -/
theorem ends_copyEnd (len : Nat) :
    ∀ (l : List Byte) (is id : Nat) (c : Cells ν Byte), (∀ e ∈ l, isSlash e = false) →
    id ≤ is → is + l.length ≤ len + 1 → c.At s is l →
    Prog.Ends (copySegment s l.length is id) c fun r c' log =>
      r = (is + l.length, id + l.length) ∧ Copied s len is id l [] c c' log := by
  intro l
  induction l with
  | nil =>
    intro is id c _ _ _ _
    exact Prog.ends_pure.mpr ⟨rfl, trivial, trivial, Cells.Within.refl _ _ _ _, Prog.LogIn.nil⟩
  | cons e l ih =>
    intro is id c hl hle hlen hat
    obtain ⟨he, hl⟩ := List.forall_mem_cons.mp hl
    rw [List.length_cons] at hlen ⊢
    rw [copySegment, Prog.ends_bind, Prog.ends_read, (Cells.at_cons.mp hat).1, Prog.ends_bind, Prog.ends_write,
      if_neg (by rw [he]; exact Bool.false_ne_true)]
    refine (ih (is + 1) (id + 1) _ hl (by omega) (by omega) (at_behind hle hat)).mono ?_
    rintro r c' log ⟨rfl, hcopied⟩
    refine ⟨?_, hcopied.cons hle (by omega)⟩
    congr 1 <;> omega

end

/-! ## One turn -/

section
variable {s : ν}

/-- What is kept so far stands in front of `id`, and the text that is left from `is` on. -/
structure Stands (s : ν) (len : Nat) (c : Cells ν Byte) (is : Nat) (out text : List Byte) : Prop where
  kept : c.At s 0 out
  coming : c.At s is (text ++ [0])
  behind : out.length ≤ is
  total : is + text.length = len
  noNul : 0 ∉ out ++ text

/-- The loop is over, and the string is what is left of the path; the empty string if it is refused. -/
structure Decoded (s : ν) (len : Nat) (left : Option (List Byte)) (r : Int) (c : Cells ν Byte) : Prop where
  result : r = if left.isSome then 0 else -1
  fits : (left.getD []).length ≤ len
  noNul : 0 ∉ left.getD []
  string : c.At s 0 (left.getD [] ++ [0])

/-- What a turn leaves when `left` is to be left of the path and `n` bytes stood in front of it. -/
inductive Turned (s : ν) (len : Nat) (left : Option (List Byte)) (n : Nat) (c : Cells ν Byte) :
    PathState ⊕ Int → Prop where
  | stop {r : Int} (h : Decoded s len left r c) : Turned s len left n c (.inr r)
  | copied {id : Nat} (h : Decoded s len left 0 c) (hn : 0 < n) : Turned s len left n c (.inl ⟨len + 1, id, false⟩)
  | on {is : Nat} {out text : List Byte} {slashseen : Bool} (h : Stands s len c is out text) (hn : text.length < n)
      (hleft : collapsed out slashseen (segments text) = left) :
        Turned s len left n c (.inl ⟨is, out.length, slashseen⟩)

/-- A turn keeps to the string and its NUL. -/
structure Turns (s : ν) (len : Nat) (left : Option (List Byte)) (n : Nat) (c : Cells ν Byte) (r : PathState ⊕ Int)
    (c' : Cells ν Byte) (log : List (Event ν)) : Prop where
  turned : Turned s len left n c' r
  within : Cells.Within s 0 (len + 1) c c'
  log : Prog.LogIn s 0 (len + 1) log

theorem Decoded.left {len : Nat} {c : Cells ν Byte} {left : Option (List Byte)} {r : Int}
    (h : Decoded s len left r c) :
    r = -1 ↔ left = none := by
  rw [h.result]
  cases left <;> simp

theorem Turns.behind {len n : Nat} {left : Option (List Byte)} {c c' : Cells ν Byte} {r : PathState ⊕ Int}
    {log log' : List (Event ν)} (h : Turns s len left n c r c' log) (hlog : Prog.LogIn s 0 (len + 1) log') :
    Turns s len left n c r c' (log' ++ log) := ⟨h.turned, h.within, hlog.append h.log⟩

section
variable {len is : Nat} {c : Cells ν Byte} {out text : List Byte}

theorem Stands.is_le (h : Stands s len c is out text) : is ≤ len := by
  have htotal := h.total
  omega

theorem parent_front (out : List Byte) : parent out <+: out :=
  (List.rdropWhile_prefix _ _).trans (List.dropLast_prefix out)

/-- A byte of the text, or the NUL. -/
theorem Stands.read {l rest : List Byte} {b : Byte} (h : Stands s len c is out text)
    (htext : text ++ [0] = l ++ b :: rest) :
    c s (is + l.length : Nat) = b := by
  have hat := h.coming
  rw [htext, Cells.at_append] at hat
  rw [Int.natCast_add]
  exact (Cells.at_cons.mp hat.2).1

/-- A turn that writes nothing: some of the text is consumed, and the front of what was kept is kept. -/
theorem Stands.turns (h : Stands s len c is out text) {out' : List Byte} (hout : out' <+: out)
    {used rest : List Byte}
    (htext : text = used ++ rest) {is' : Nat} (his : is' = is + used.length) (hused : used ≠ []) (slashseen : Bool)
    {left : Option (List Byte)} (hleft : collapsed out' slashseen (segments rest) = left) :
    Turns s len left text.length c (.inl ⟨is', out'.length, slashseen⟩) c [] := by
  subst htext his
  obtain ⟨dropped, rfl⟩ := hout
  have hpos := List.length_pos_iff.mpr hused
  have hbehind := h.behind
  have htotal := h.total
  have hcoming := h.coming
  have hnul := h.noNul
  rw [List.length_append] at hbehind htotal
  rw [List.append_assoc, Cells.at_append] at hcoming
  simp only [List.mem_append, not_or] at hnul
  refine ⟨.on ⟨(Cells.at_append.mp h.kept).1, ?_, by omega, by omega, ?_⟩ ?_ hleft, Cells.Within.refl _ _ _ _,
    Prog.LogIn.nil⟩
  · rw [Int.natCast_add]
    exact hcoming.2
  · simp only [List.mem_append, not_or]
    exact ⟨hnul.1.1, hnul.2.2⟩
  · rw [List.length_append]
    omega

/-- A `.` in front of the NUL. -/
theorem Stands.turns_dot (h : Stands s len c is out dot) (slashseen : Bool) :
    Turns s len (collapsed out slashseen (segments dot)) 1 c
      (.inl ⟨is + 1, if 1 < out.length then out.length - 1 else out.length, false⟩) c [] := by
  by_cases hlong : 1 < out.length
  · have hleft : collapsed out.dropLast false (segments []) = collapsed out slashseen (segments dot) :=
      (congrArg some (if_pos hlong)).symm
    have hturns := h.turns (List.dropLast_prefix out) (List.append_nil dot).symm rfl (by decide) false hleft
    rw [List.length_dropLast] at hturns
    rw [if_pos hlong]
    exact hturns
  · have hleft : collapsed out false (segments []) = collapsed out slashseen (segments dot) :=
      (congrArg some (if_neg hlong)).symm
    rw [if_neg hlong]
    exact h.turns (List.prefix_refl out) (List.append_nil dot).symm rfl (by decide) false hleft

/-- Going back from the last byte but one. -/
theorem ends_scanParent (h : Stands s len c is out text) :
    Prog.Ends (scanBack s (out.length - 1)) c fun id c' log =>
      id = (parent out).length - 1 ∧ c' = c ∧ Prog.LogIn s 0 (len + 1) log := by
  obtain ⟨dropped, hdropped⟩ := List.dropLast_prefix out
  have hat := h.kept
  rw [← hdropped, Cells.at_append] at hat
  have hbehind := h.behind
  have hle := h.is_le
  have hscan := ends_scanBack out.dropLast hat.1
  rw [List.length_dropLast] at hscan
  refine hscan.mono ?_
  rintro id c' log ⟨hid, hc, hlog⟩
  exact ⟨hid, hc, hlog.mono (Int.le_refl 0) (by omega)⟩

/-- Without a slash in front, the first byte is none. -/
theorem parent_nil (h : parent out = []) (hlen : 1 < out.length) (hat : c.At s 0 out) : c s 0 ≠ ch '/' := by
  rcases out with _ | ⟨e, _ | ⟨e', out⟩⟩
  · exact absurd hlen (by decide)
  · exact absurd hlen (Nat.lt_irrefl 1)
  · have hall := List.rdropWhile_eq_nil_iff.mp h e List.mem_cons_self
    rw [(Cells.at_cons.mp hat).1]
    exact of_decide_eq_true hall

theorem parent_last (h : parent out ≠ []) : ∃ l, parent out = l ++ [ch '/'] := by
  have hlast := List.rdropWhile_last_not _ _ h
  rw [decide_eq_true_eq, not_not] at hlast
  exact ⟨(parent out).dropLast, by rw [← hlast]; exact (List.dropLast_append_getLast h).symm⟩

end

end

section
variable [DecidableEq ν] {s : ν}

/-- Out of root range. -/
theorem ends_outOfRoot (s : ν) (len n : Nat) (c : Cells ν Byte) :
    Prog.Ends (outOfRoot s) c (Turns s len none n c) := by
  rw [outOfRoot, Prog.ends_bind, Prog.ends_write, Prog.ends_pure]
  refine ⟨.stop ⟨rfl, Nat.zero_le _, List.not_mem_nil, Cells.at_singleton.mpr Cells.set_same⟩, ?_, ?_⟩
  · exact (Cells.Within.refl _ _ _ _).set (Int.le_refl _) (by omega)
  · exact Prog.LogIn.nil.write (by omega)

section
variable {len is : Nat} {c : Cells ν Byte} {out text : List Byte}

/-- A `..` in front of the NUL. -/
theorem ends_lastDotdot (h : Stands s len c is out dotdot) :
    Prog.Ends (lastDotdot s (is + 2) out.length) c (Turns s len (lastStep out dotdot) 2 c) := by
  have hstep : lastStep out dotdot = if out.length ≤ 1 ∨ (parent out).length ≤ 1 then none
    else some (parent out).dropLast := rfl
  rw [lastDotdot, hstep]
  by_cases hroot : out.length ≤ 1
  · rw [if_pos (by omega), if_pos (Or.inl hroot)]
    exact ends_outOfRoot s len 2 c
  · rw [if_neg (by omega)]
    refine (ends_scanParent h).bind ?_
    rintro id c' log ⟨rfl, rfl, hlog⟩
    by_cases hparent : (parent out).length ≤ 1
    · rw [if_pos (by omega), if_pos (Or.inr hparent)]
      exact (ends_outOfRoot s len 2 c').mono fun _ _ _ hr => hr.behind hlog
    · rw [if_neg (by omega), if_neg (not_or.mpr ⟨hroot, hparent⟩), Prog.ends_pure]
      have hfront : (parent out).dropLast <+: out := (List.dropLast_prefix _).trans (parent_front out)
      have hturns := h.turns hfront (List.append_nil dotdot).symm rfl (by decide) false rfl
      rw [List.length_dropLast] at hturns
      exact hturns.behind hlog

/-- A `..` and a slash. -/
theorem ends_innerDotdot {b : Byte} {rest : List Byte} (slashseen : Bool)
    (h : Stands s len c is out (dotdot ++ b :: rest)) :
    Prog.Ends (innerDotdot s (is + 3) out.length) c
      (Turns s len (collapsed out slashseen (dotdot :: segments rest)) (dotdot ++ b :: rest).length c) := by
  rw [innerDotdot, collapsed_cons _ _ _ (segments_ne_nil rest), segmentStep_dotdot]
  by_cases hroot : out.length ≤ 1
  · rw [if_pos (by omega), if_pos (Or.inl hroot)]
    exact ends_outOfRoot s len _ c
  · rw [if_neg (by omega)]
    refine (ends_scanParent h).bind ?_
    rintro id c' log ⟨rfl, rfl, hlog⟩
    have hbehind := h.behind
    have hle := h.is_le
    have hshort := (parent_front out).length_le
    rw [Prog.ends_bind, Prog.ends_read]
    have hread : Prog.LogIn s 0 (len + 1) (log ++ [.read s ((parent out).length - 1 : Nat)]) :=
      hlog.append (Prog.LogIn.nil.read (by omega))
    by_cases hparent : parent out = []
    · -- no slash in front: the first byte of what is kept is compared
      have hfirst : c' s ((parent out).length - 1 : Nat) ≠ ch '/' := by
        rw [hparent]
        exact parent_nil hparent (by omega) h.kept
      rw [if_neg hfirst, if_pos (Or.inr hparent)]
      refine (ends_outOfRoot s len (dotdot ++ b :: rest).length c').mono fun r c' log' hr => ?_
      rw [← List.append_assoc]
      exact hr.behind hread
    · obtain ⟨l, hl⟩ := parent_last hparent
      obtain ⟨dropped, hdropped⟩ := parent_front out
      have hlast : c' s ((parent out).length - 1 : Nat) = ch '/' := by
        have hat := h.kept
        rw [← hdropped, hl, Cells.at_append, Cells.at_append, Cells.at_singleton, Int.zero_add] at hat
        rw [hl, List.length_append, List.length_singleton, Nat.add_sub_cancel]
        exact hat.1.2
      rw [if_pos hlast, if_neg (not_or.mpr ⟨hroot, hparent⟩), Prog.ends_pure, ← List.append_assoc]
      have hpos := List.length_pos_iff.mpr hparent
      have hturns := h.turns (parent_front out) (by rw [← List.append_cons]) rfl
        (List.append_ne_nil_of_right_ne_nil _ (List.cons_ne_nil b [])) true rfl
      rw [← Nat.sub_add_cancel hpos] at hturns
      exact hturns.behind hread

/-- A segment up to its slash is copied. -/
theorem ends_copyTurn {seg rest : List Byte} (hord : OrdinarySegment seg) {b : Byte} (hb : isSlash b = true)
    (slashseen : Bool)
    (h : Stands s len c is out (seg ++ b :: rest)) :
    Prog.Ends (copyTurn s (len + 1) is out.length) c
      (Turns s len (collapsed out slashseen (segments (seg ++ b :: rest))) (seg ++ b :: rest).length c) := by
  have htotal := h.total
  have hbehind := h.behind
  have hpos := List.length_pos_iff.mpr hord.ne_nil
  have hnul := h.noNul
  rw [List.length_append, List.length_cons] at htotal
  have hcoming : c.At s is (seg ++ b :: (rest ++ [0])) := by
    have hat := h.coming
    rwa [List.append_assoc] at hat
  rw [copyTurn]
  refine (ends_copySegment len hb (rest ++ [0]) seg _ is out.length c hord.plain (by omega) h.behind
    (by omega) hcoming).bind ?_
  rintro _ c' log ⟨rfl, hat, hrest, hwithin, hlog⟩
  rw [Prog.ends_pure, List.append_nil]
  refine ⟨?_, hwithin.mono (by omega) (Int.le_refl _), hlog⟩
  have hkept : c'.At s 0 (out ++ seg) := by
    rw [Cells.at_append, Int.zero_add]
    exact ⟨h.kept.within hwithin (Or.inr (Or.inl (by omega))), hat⟩
  have hlen : out.length + seg.length = (out ++ seg).length := (List.length_append).symm
  have hstands : Stands s len c' (is + seg.length) (out ++ seg) (b :: rest) := by
    refine ⟨hkept, hrest, ?_, ?_, by rwa [List.append_assoc]⟩
    · rw [← hlen]
      omega
    · rw [List.length_cons]
      omega
  rw [hlen]
  refine .on hstands ?_ ?_
  · rw [List.length_append]
    omega
  · rw [segments_cons hb, segments_append hord.plain hb, collapsed_cons _ _ _ (segments_ne_nil rest),
      collapsed_cons _ _ _ (segments_ne_nil rest), segmentStep_ordinary hord]
    rfl

/-- A segment in front of the NUL is copied with the NUL. -/
theorem ends_copyTurn_last {seg : List Byte} (hord : OrdinarySegment seg) (slashseen : Bool)
    (h : Stands s len c is out seg) :
    Prog.Ends (copyTurn s (len + 1) is out.length) c
      (Turns s len (collapsed out slashseen (segments seg)) seg.length c) := by
  have htotal := h.total
  have hbehind := h.behind
  have hleft : collapsed out slashseen (segments seg) = some (out ++ seg) := by
    rw [segments_plain hord.plain]
    exact lastStep_ordinary hord out
  have hturns : len + 1 - is = (seg ++ [0]).length := by
    rw [List.length_append, List.length_singleton]
    omega
  have hplain : ∀ e ∈ seg ++ [0], isSlash e = false :=
    List.forall_mem_append.mpr ⟨hord.plain, List.forall_mem_singleton.mpr (by decide)⟩
  rw [copyTurn, hturns, hleft]
  refine (ends_copyEnd len (seg ++ [0]) is out.length c hplain h.behind (by omega) h.coming).bind ?_
  rintro _ c' log ⟨rfl, hat, -, hwithin, hlog⟩
  rw [Prog.ends_pure, List.append_nil, ← hturns]
  refine ⟨?_, hwithin.mono (by omega) (Int.le_refl _), hlog⟩
  have hend : is + (len + 1 - is) = len + 1 := by omega
  have hstring : c'.At s 0 (out ++ seg ++ [0]) := by
    rw [List.append_assoc, Cells.at_append, Int.zero_add]
    exact ⟨h.kept.within hwithin (Or.inr (Or.inl (by omega))), hat⟩
  rw [hend]
  refine .copied ⟨rfl, ?_, h.noNul, hstring⟩ (List.length_pos_iff.mpr hord.ne_nil)
  rw [Option.getD_some, List.length_append]
  omega

/-- The bytes in front of the next slash. -/
def leading (text : List Byte) : List Byte := text.takeWhile fun b => !isSlash b

/-- A segment is copied, unless it is a dot segment. -/
theorem ends_copyLeading (h : Stands s len c is out text) (hnil : leading text ≠ []) (hdot : leading text ≠ dot)
    (hdotdot : leading text ≠ dotdot) (slashseen : Bool) :
    Prog.Ends (copyTurn s (len + 1) is out.length) c
      (Turns s len (collapsed out slashseen (segments text)) text.length c) := by
  have hplain : ∀ b ∈ leading text, isSlash b = false := fun b hb => by
    simpa using List.mem_takeWhile_imp hb
  have hord : OrdinarySegment (leading text) := ⟨hnil, hdot, hdotdot, hplain⟩
  have hsplit : leading text ++ text.dropWhile (fun b => !isSlash b) = text := List.takeWhile_append_dropWhile
  cases hrest : text.dropWhile fun b => !isSlash b with
  | nil =>
    rw [hrest, List.append_nil] at hsplit
    rw [hsplit] at hord
    exact ends_copyTurn_last hord slashseen h
  | cons b rest =>
    have hb : isSlash b = true := by
      have hhead := List.head?_dropWhile_not (fun b => !isSlash b) text
      rw [hrest] at hhead
      simpa using hhead
    rw [hrest] at hsplit
    rw [← hsplit] at h ⊢
    exact ends_copyTurn hord hb slashseen h

theorem leading_cons {b : Byte} (hb : isSlash b = false) (text : List Byte) :
    leading (b :: text) = b :: leading text := by
  rw [leading, List.takeWhile_cons, hb]
  rfl

/-- A segment that starts with two dots. -/
theorem ends_dotsTurn {t : List Byte} (slashseen : Bool) (h : Stands s len c is out (ch '.' :: ch '.' :: t)) :
    Prog.Ends (do
        let b₂ ← Prog.read s (is + 2 : Nat)
        if b₂ = 0 then lastDotdot s (is + 2) out.length
        else if isSlash b₂ then innerDotdot s (is + 3) out.length
        else copyTurn s (len + 1) is out.length) c
      (Turns s len (collapsed out slashseen (segments (ch '.' :: ch '.' :: t)))
        (ch '.' :: ch '.' :: t).length c) := by
  have hdot : isSlash (ch '.') = false := by decide
  have htotal := h.total
  rw [List.length_cons, List.length_cons] at htotal
  have hlog : Prog.LogIn s 0 (len + 1) [.read s (is + 2 : Nat)] := Prog.LogIn.nil.read (by omega)
  rcases t with _ | ⟨b₂, t⟩
  · have hread : c s (is + 2 : Nat) = 0 := h.read (l := [ch '.', ch '.']) rfl
    rw [Prog.ends_bind, Prog.ends_read, hread, if_pos rfl]
    exact (ends_lastDotdot h).mono fun _ _ _ hr => hr.behind hlog
  · have hread : c s (is + 2 : Nat) = b₂ := h.read (l := [ch '.', ch '.']) rfl
    have hnul : b₂ ≠ 0 := fun hzero => h.noNul (by simp [hzero])
    rw [Prog.ends_bind, Prog.ends_read, hread, if_neg hnul]
    by_cases hslash : isSlash b₂ = true
    · have hsegs : segments (ch '.' :: ch '.' :: b₂ :: t) = dotdot :: segments t :=
        @segments_append dotdot (forall_text (by decide)) b₂ hslash t
      rw [if_pos hslash, hsegs]
      exact (ends_innerDotdot slashseen h).mono fun _ _ _ hr => hr.behind hlog
    · have hlead : leading (ch '.' :: ch '.' :: b₂ :: t) = ch '.' :: ch '.' :: b₂ :: leading t := by
        rw [leading_cons hdot, leading_cons hdot, leading_cons (Bool.eq_false_iff.mpr hslash)]
      have hcopy := ends_copyLeading h (by simp [hlead]) (by simp [hlead, dot, str]) (by simp [hlead, dotdot, str])
        slashseen
      rw [if_neg hslash]
      exact hcopy.mono fun _ _ _ hr => hr.behind hlog

/-- A segment that starts with a dot. -/
theorem ends_dotTurn {t : List Byte} (slashseen : Bool) (h : Stands s len c is out (ch '.' :: t)) :
    Prog.Ends (segmentTurn s (len + 1) is out.length (ch '.')) c
      (Turns s len (collapsed out slashseen (segments (ch '.' :: t))) (ch '.' :: t).length c) := by
  have hdot : isSlash (ch '.') = false := by decide
  have htotal := h.total
  rw [List.length_cons] at htotal
  have hlog : Prog.LogIn s 0 (len + 1) [.read s (is + 1 : Nat)] := Prog.LogIn.nil.read (by omega)
  rw [segmentTurn, if_pos rfl]
  rcases t with _ | ⟨b₁, t⟩
  · have hread : c s (is + 1 : Nat) = 0 := h.read (l := [ch '.']) rfl
    rw [Prog.ends_bind, Prog.ends_read, hread, if_neg (by decide), if_pos rfl, Prog.ends_pure]
    exact (h.turns_dot slashseen).behind hlog
  · have hread : c s (is + 1 : Nat) = b₁ := h.read (l := [ch '.']) rfl
    have hnul : b₁ ≠ 0 := fun hzero => h.noNul (by simp [hzero])
    rw [Prog.ends_bind, Prog.ends_read, hread]
    by_cases hslash : isSlash b₁ = true
    · have hleft : collapsed out true (segments t) = collapsed out slashseen (segments (ch '.' :: b₁ :: t)) := by
        rw [← List.singleton_append, segments_append (List.forall_mem_singleton.mpr hdot) hslash,
          collapsed_cons _ _ _ (segments_ne_nil t)]
        rfl
      rw [if_pos hslash, Prog.ends_pure]
      exact (h.turns (List.prefix_refl out) (List.append_cons [ch '.'] b₁ t) rfl (by simp) true hleft).behind hlog
    · rw [if_neg hslash, if_neg hnul]
      by_cases hdots : b₁ = ch '.'
      · subst hdots
        rw [if_pos rfl]
        exact (ends_dotsTurn slashseen h).mono fun _ _ _ hr => hr.behind hlog
      · have hlead : leading (ch '.' :: b₁ :: t) = ch '.' :: b₁ :: leading t := by
          rw [leading_cons hdot, leading_cons (Bool.eq_false_iff.mpr hslash)]
        have hno : leading (ch '.' :: b₁ :: t) ≠ dotdot := by
          rw [hlead]
          exact fun heq => hdots (List.cons.inj (List.cons.inj heq).2).1
        rw [if_neg hdots]
        exact (ends_copyLeading h (by simp [hlead]) (by simp [hlead, dot, str]) hno slashseen).mono
          fun _ _ _ hr => hr.behind hlog

/-- **A turn at a segment.** -/
theorem ends_segmentTurn {b : Byte} (hb : isSlash b = false) {t : List Byte} (slashseen : Bool)
    (h : Stands s len c is out (b :: t)) :
    Prog.Ends (segmentTurn s (len + 1) is out.length b) c
      (Turns s len (collapsed out slashseen (segments (b :: t))) (b :: t).length c) := by
  by_cases hdot : b = ch '.'
  · subst hdot
    exact ends_dotTurn slashseen h
  · have hlead := leading_cons hb t
    have hother : ∀ l : List Byte, leading (b :: t) ≠ ch '.' :: l := by
      intro l
      rw [hlead]
      exact fun heq => hdot (List.cons.inj heq).1
    rw [segmentTurn, if_neg hdot]
    exact ends_copyLeading h (by simp [hlead]) (hother []) (hother [ch '.']) slashseen

/-- A slash is written as `/`. -/
theorem Stands.turns_slash {b : Byte} (hb : isSlash b = true) {t : List Byte} (h : Stands s len c is out (b :: t)) :
    Turns s len (collapsed out false (segments (b :: t))) (b :: t).length c (.inl ⟨is + 1, out.length + 1, true⟩)
      (c.set s out.length (ch '/')) [.write s out.length] := by
  have htotal := h.total
  have hbehind := h.behind
  have hlen : out.length + 1 = (out ++ [ch '/']).length := (@List.length_append _ out [ch '/']).symm
  rw [List.length_cons] at htotal
  have hstands : Stands s len (c.set s out.length (ch '/')) (is + 1) (out ++ [ch '/']) t := by
    refine ⟨Cells.At.push h.kept (Int.zero_add _).symm, at_behind hbehind h.coming, ?_, by omega,
      fun hmem => h.noNul ?_⟩
    · rw [← hlen]
      omega
    · simp only [List.mem_append, List.mem_singleton] at hmem
      rcases hmem with (hout | hzero) | ht
      · exact List.mem_append_left _ hout
      · exact absurd hzero (by decide)
      · exact List.mem_append_right _ (List.mem_cons_of_mem b ht)
  rw [hlen]
  refine ⟨.on hstands (Nat.lt_succ_self _) ?_, (Cells.Within.refl _ _ _ _).set (by omega) (by omega),
    Prog.LogIn.nil.write (by omega)⟩
  rw [segments_cons hb, collapsed_cons _ _ _ (segments_ne_nil t)]
  rfl

/-- **One turn.** -/
theorem ends_pathTurn (slashseen : Bool) (h : Stands s len c is out text) :
    Prog.Ends (pathTurn s (len + 1) ⟨is, out.length, slashseen⟩) c
      (Turns s len (collapsed out slashseen (segments text)) text.length c) := by
  have htotal := h.total
  have hle := h.is_le
  have hbehind := h.behind
  have hlog : Prog.LogIn s 0 (len + 1) [.read s is] := Prog.LogIn.nil.read (by omega)
  rw [pathTurn, if_pos (by omega)]
  rcases text with _ | ⟨b, t⟩
  · have hread : c s is = 0 := h.read (l := []) rfl
    rw [Prog.ends_bind, Prog.ends_read, hread, if_pos rfl, Prog.ends_bind, Prog.ends_write, Prog.ends_pure]
    have hwrite : Prog.LogIn s 0 (len + 1) ([.read s is] ++ ([.write s out.length] ++ [])) :=
      hlog.append (Prog.LogIn.nil.write (by omega))
    refine ⟨.stop ⟨rfl, ?_, ?_, ?_⟩, (Cells.Within.refl _ _ _ _).set (by omega) (by omega), hwrite⟩
    · exact Nat.le_trans hbehind hle
    · exact fun hmem => h.noNul (List.mem_append_left _ hmem)
    · exact Cells.At.push h.kept (Int.zero_add _).symm
  · have hread : c s is = b := h.read (l := []) rfl
    have hnul : b ≠ 0 := fun hzero => h.noNul (by simp [hzero])
    rw [Prog.ends_bind, Prog.ends_read, hread, if_neg hnul]
    by_cases hb : isSlash b = true
    · have hne := segments_ne_nil t
      cases slashseen with
      | true =>
        have hleft : collapsed out true (segments t) = collapsed out true (segments (b :: t)) := by
          rw [segments_cons hb, collapsed_cons _ _ _ hne]
          rfl
        rw [hb, Bool.true_and, if_pos rfl, Prog.ends_pure]
        exact (h.turns (List.prefix_refl out) (List.append_cons [] b t) rfl (by simp) true hleft).behind hlog
      | false =>
        rw [Bool.false_and, if_neg Bool.false_ne_true, if_pos hb, Prog.ends_bind, Prog.ends_write, Prog.ends_pure]
        exact (h.turns_slash hb).behind hlog
    · have hb : isSlash b = false := Bool.eq_false_iff.mpr hb
      rw [hb, Bool.and_false, if_neg Bool.false_ne_true, if_neg Bool.false_ne_true]
      exact (ends_segmentTurn hb slashseen h).mono fun _ _ _ hr => hr.behind hlog

/-! ## The loop -/

/-- What the loop leaves from a turn on. -/
structure Collapses (s : ν) (len : Nat) (left : Option (List Byte)) (c : Cells ν Byte) (r : Int) (c' : Cells ν Byte)
    (log : List (Event ν)) : Prop where
  decoded : Decoded s len left r c'
  within : Cells.Within s 0 (len + 1) c c'
  log : Prog.LogIn s 0 (len + 1) log

/-- **The loop ends**: every turn consumes some of the text. -/
theorem ends_pathLoop : ∀ (n : Nat) (c : Cells ν Byte) (is : Nat) (out text : List Byte) (slashseen : Bool),
    Stands s len c is out text → text.length < n →
    Prog.Ends (Prog.loop (pathTurn s (len + 1)) n ⟨is, out.length, slashseen⟩) c
      (Collapses s len (collapsed out slashseen (segments text)) c) := by
  intro n
  induction n with
  | zero => exact fun _ _ _ _ _ _ hn => absurd hn (Nat.not_lt_zero _)
  | succ n ih =>
    intro c is out text slashseen h hn
    rw [Prog.loop_succ]
    refine (ends_pathTurn slashseen h).bind fun r c' log hturns => ?_
    obtain ⟨hturned, hwithin, hlog⟩ := hturns
    cases hturned with
    | stop hdecoded =>
      refine Prog.ends_pure.mpr ⟨hdecoded, hwithin, ?_⟩
      rw [List.append_nil]
      exact hlog
    | copied hdecoded hpos =>
      -- the NUL is consumed, and the loop's condition fails
      obtain ⟨n, rfl⟩ : ∃ k, n = k + 1 := ⟨n - 1, by omega⟩
      rw [Prog.afterTurn, Prog.loop_succ, pathTurn, if_neg (Nat.lt_irrefl _), Prog.ends_bind, Prog.ends_pure]
      refine Prog.ends_pure.mpr ⟨hdecoded, hwithin, ?_⟩
      rw [List.append_nil, List.append_nil]
      exact hlog
    | on hstands hless hleft =>
      rw [← hleft]
      refine (ih c' _ _ _ _ hstands (by omega)).mono ?_
      rintro r c'' log' ⟨hdecoded, hwithin', hlog'⟩
      exact ⟨hdecoded, hwithin.trans hwithin', hlog.append hlog'⟩

/-- **`http_decode_path`** ends, keeps to the string and its NUL, and leaves what is left of the path. -/
theorem ends_httpDecodePath {path : List Byte} (hlen : 1 ≤ path.length ∧ path.length ≤ MAX_DECODE_LEN)
    (hnul : 0 ∉ path)
    (hat : c.At s 0 (path ++ [0])) :
    Prog.Ends (httpDecodePath s path.length) c
      (Collapses s path.length (collapsed [] false (segments path)) c) := by
  rw [httpDecodePath, if_neg (by omega), Int.toNat_natCast]
  have hstands : Stands s path.length c 0 [] path :=
    ⟨trivial, hat, Nat.zero_le _, Nat.zero_add _, by simpa using hnul⟩
  exact ends_pathLoop (path.length + 1) c 0 [] path false hstands (Nat.lt_succ_self _)

/-! ## The normal form -/

/-- The second time, every cell stays as it is. -/
theorem ends_httpDecodePath_again {path : List Byte} (hlen : path.length ≤ MAX_DECODE_LEN) (hnul : 0 ∉ path)
    (hat : c.At s 0 (path ++ [0])) (hnormal : NormalForm path) :
    Prog.Ends (httpDecodePath s path.length) c fun r c' _ => r = 0 ∧ c' = c := by
  by_cases hempty : path.length = 0
  · rw [httpDecodePath, if_pos (by omega), Prog.ends_pure]
    exact ⟨rfl, rfl⟩
  · refine (ends_httpDecodePath ⟨by omega, hlen⟩ hnul hat).mono ?_
    rintro r c' log ⟨hdecoded, hwithin, -⟩
    rw [hnormal.collapsed] at hdecoded
    refine ⟨hdecoded.result, hat.eq_of_within hdecoded.string ?_⟩
    rw [List.length_append, List.length_singleton, Int.zero_add]
    exact hwithin

/-- **A path that is accepted** is left in normal form, within its own bytes, and the next call leaves
it as it is. -/
theorem httpDecodePath_normal {path : List Byte} (hlen : 1 ≤ path.length ∧ path.length ≤ MAX_DECODE_LEN)
    (hnul : 0 ∉ path)
    (hat : c.At s 0 (path ++ [0])) :
    Prog.Ends (httpDecodePath s path.length) c fun r c' log =>
      Prog.LogIn s 0 (path.length + 1) log ∧
      (r = 0 → ∃ out, c'.At s 0 (out ++ [0]) ∧ 0 ∉ out ∧ out.length ≤ path.length ∧ NormalPath out ∧
        Prog.Ends (httpDecodePath s out.length) c' fun r' c'' _ => r' = 0 ∧ c'' = c') := by
  refine (ends_httpDecodePath hlen hnul hat).mono ?_
  rintro r c' log ⟨hdecoded, -, hlog⟩
  refine ⟨hlog, fun hr => ?_⟩
  cases hleft : collapsed [] false (segments path) with
  | none =>
    have hrefused := hdecoded.left.mpr hleft
    omega
  | some out =>
    rw [hleft] at hdecoded
    have hnormal := collapsed_normal (segments path) false (segments_noSlash path) hleft
    have hfits : out.length ≤ path.length := hdecoded.fits
    exact ⟨out, hdecoded.string, hdecoded.noNul, hfits, hnormal.spec,
      ends_httpDecodePath_again (Nat.le_trans hfits hlen.2) hdecoded.noNul hdecoded.string hnormal⟩

theorem httpDecodePath_normal_ten :
    Prog.Ends (httpDecodePath () 10) (Cells.ofList (str "/a\\./b//.." ++ [0]) 7) fun r c' log =>
      Prog.LogIn () 0 (10 + 1) log ∧
      (r = 0 → ∃ out, c'.At () 0 (out ++ [0]) ∧ 0 ∉ out ∧ out.length ≤ 10 ∧ NormalPath out ∧
        Prog.Ends (httpDecodePath () out.length) c' fun r' c'' _ => r' = 0 ∧ c'' = c') :=
  @httpDecodePath_normal Unit _ () _ (str "/a\\./b//..") (by decide) (by decide) (Cells.at_ofList _ _)

/-! ## The root -/

/-- **A rooted path is refused** exactly when it escapes, and becomes `/` when it climbs back to the
root, unless its last segment is a `..` that takes the last name. -/
theorem httpDecodePath_escapes_iff {path : List Byte} (hlen : 1 ≤ path.length ∧ path.length ≤ MAX_DECODE_LEN)
    (hnul : 0 ∉ path) (hroot : path.head?.any isSlash = true) (hat : c.At s 0 (path ++ [0])) :
    Prog.Ends (httpDecodePath s path.length) c (fun r c' _ =>
        (r = -1 ↔ Escapes (segments path)) ∧
        (ClimbsToRoot (segments path) → r = 0 ∧ c'.At s 0 [ch '/', 0])) ↔
      ¬ EndsAtRoot (segments path) := by
  have hruns := ends_httpDecodePath hlen hnul hat
  obtain ⟨b, rest, rfl⟩ := List.exists_cons_of_ne_nil (List.length_pos_iff.mp hlen.1)
  have hb : isSlash b = true := hroot
  have hne := segments_ne_nil rest
  have hleft : collapsed [] false (segments (b :: rest)) = collapsed (pathOf [] []) true (segments rest) := by
    rw [segments_cons hb, collapsed_cons _ _ _ hne]
    rfl
  have hrefused := collapsed_eq_none_iff (segments_noSlash rest) hne
  have hclimbs : ClimbsToRoot ([] :: segments rest) ↔ ClimbsToRoot (segments rest) := by
    unfold ClimbsToRoot
    rw [escapes_root, named_root, climbs_root]
  rw [hleft] at hruns
  rw [segments_cons hb, escapes_root, endsAtRoot_root hne, hclimbs]
  constructor
  · intro h hend
    obtain ⟨r, c', ⟨⟨hdecoded, -, -⟩, hspec, -⟩⟩ := hruns.and h
    exact hend.not_escapes (hspec.mp (hdecoded.left.mpr (hrefused.mpr (Or.inr hend))))
  · intro hend
    refine hruns.mono ?_
    rintro r c' log ⟨hdecoded, -, -⟩
    refine ⟨?_, fun hclimb => ?_⟩
    · rw [hdecoded.left, hrefused]
      exact ⟨fun h => h.resolve_right hend, Or.inl⟩
    · rw [collapsed_root (segments_noSlash rest) hne hclimb hend] at hdecoded
      exact ⟨hdecoded.result, hdecoded.string⟩

end

end

/-- The climb of `/a/../` ends at the root, and a slash stands behind it. -/
theorem httpDecodePath_escapes_six :
    Prog.Ends (httpDecodePath () 6) (Cells.ofList (str "/a/../" ++ [0]) 7) fun r c' _ =>
      (r = -1 ↔ Escapes (segments (str "/a/../"))) ∧
      (ClimbsToRoot (segments (str "/a/../")) → r = 0 ∧ c'.At () 0 [ch '/', 0]) := by
  refine (@httpDecodePath_escapes_iff Unit _ () _ (str "/a/../") (by decide) (by decide) (by decide)
    (Cells.at_ofList _ _)).mpr ?_
  rintro ⟨front, hsegs, -⟩
  have hlast := congrArg List.getLast? hsegs
  rw [List.getLast?_concat] at hlast
  exact absurd hlast (by decide)

/-- `/a/..` is refused, though it does not escape. -/
theorem dotdot_refused :
    ¬ Prog.Ends (httpDecodePath () 5) (Cells.ofList (str "/a/.." ++ [0]) 7) fun r c' _ =>
      (r = -1 ↔ Escapes (segments (str "/a/.."))) ∧
      (ClimbsToRoot (segments (str "/a/..")) → r = 0 ∧ c'.At () 0 [ch '/', 0]) := by
  intro h
  have hruns := @ends_httpDecodePath Unit _ () (Cells.ofList (str "/a/.." ++ [0]) 7) (str "/a/..") (by decide)
    (by decide)
    (Cells.at_ofList _ _)
  obtain ⟨r, c', ⟨⟨hdecoded, -, -⟩, hspec, -⟩⟩ := hruns.and h
  have hescapes := hspec.mp (hdecoded.left.mpr (by decide))
  exact absurd ((escapes_iff _).mp hescapes) (by decide)

end WafProxy
