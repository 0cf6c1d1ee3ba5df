import Mathlib.Data.List.Infix
import WafProxy.Http.ContentLength

/-
  Where a head ends

  The state of `s_http_parse` is the length of the longest part of CRLFCRLF the
  bytes seen so far end with (`tailState`), so the function stops at the first
  CRLFCRLF and nowhere else, wherever the bytes are cut (`sHttpParse_head`,
  `sHttpParse_open`). A packet that starts with a whole head is cut there
  (`parsePacket_head`).
-/

namespace WafProxy
open Lib

/-- CRLFCRLF; CR is 13 and LF is 10. -/
def headMark : List Byte := [13, 10, 13, 10]

/-- A text that ends with its first CRLFCRLF. -/
structure IsHead (head : List Byte) : Prop where
  ends : headMark <:+ head
  first : ∀ p, p <+: head → headMark <:+ p → p = head

/-- One looks at the beginnings of the text. -/
theorem isHead_iff {head : List Byte} :
    IsHead head ↔ headMark <:+ head ∧ ∀ p ∈ head.inits, headMark <:+ p → p = head := by
  constructor
  · intro h
    exact ⟨h.ends, fun p hp => h.first p ((List.mem_inits _ _).mp hp)⟩
  · intro h
    exact ⟨h.1, fun p hp => h.2 p ((List.mem_inits _ _).mpr hp)⟩

instance (head : List Byte) : Decidable (IsHead head) := decidable_of_iff _ isHead_iff.symm

def getHead : List Byte := str "GET / HTTP/1.1\r\n\r\n"

/-- How much of CRLFCRLF the bytes end with; the last byte comes first. -/
def tailState (r : List Byte) : Nat :=
  if [10, 13, 10, 13] <+: r then 4
  else if [13, 10, 13] <+: r then 3
  else if [10, 13] <+: r then 2
  else if [13] <+: r then 1
  else 0

theorem tailState_nil : tailState [] = 0 := by decide

theorem tailState_four {p : List Byte} : tailState p.reverse = 4 ↔ headMark <:+ p := by
  have hrev : [10, 13, 10, 13] <+: p.reverse ↔ headMark <:+ p := by
    rw [← List.reverse_suffix, List.reverse_reverse]
    rfl
  rw [← hrev]
  unfold tailState
  constructor
  · intro h
    split at h
    · assumption
    · split at h
      · cases h
      · split at h
        · cases h
        · split at h <;> cases h
  · intro h
    rw [if_pos h]

/-! ## One byte -/

theorem tailState_cr (r : List Byte) :
    tailState (13 :: r) = if [10, 13] <+: r then 3 else 1 := by
  simp [tailState, List.cons_prefix_cons]

theorem tailState_lf (r : List Byte) :
    tailState (10 :: r) =
      if [13, 10, 13] <+: r then 4 else if [13] <+: r then 2 else 0 := by
  simp [tailState, List.cons_prefix_cons]

theorem tailState_other {c : Byte} (hr : c ≠ 13) (hn : c ≠ 10) (r : List Byte) :
    tailState (c :: r) = 0 := by
  simp [tailState, List.cons_prefix_cons, Ne.symm hr, Ne.symm hn]

/-- What the tail is, from the state. -/
theorem tailState_cases (r : List Byte) :
    tailState r = 4 ∨
    (tailState r = 3 ∧ [13, 10, 13] <+: r ∧ ¬ [10, 13] <+: r) ∨
    (tailState r = 2 ∧ [10, 13] <+: r ∧ ¬ [13] <+: r ∧ ¬ [13, 10, 13] <+: r) ∨
    (tailState r = 1 ∧ [13] <+: r ∧ ¬ [13, 10, 13] <+: r ∧
      ¬ [10, 13] <+: r) ∨
    (tailState r = 0 ∧ ¬ [13] <+: r ∧ ¬ [10, 13] <+: r ∧ ¬ [13, 10, 13] <+: r) := by
  cases r with
  | nil => decide
  | cons c r =>
    by_cases hr : c = 13
    · subst hr
      rw [tailState_cr]
      by_cases h : [10, 13] <+: r
      · simp [h, List.cons_prefix_cons]
      · simp [h, List.cons_prefix_cons]
    · by_cases hn : c = 10
      · subst hn
        rw [tailState_lf]
        by_cases h3 : [13, 10, 13] <+: r
        · simp [h3]
        · by_cases h1 : [13] <+: r
          · simp [h3, h1, List.cons_prefix_cons]
          · simp [h3, h1, List.cons_prefix_cons]
      · simp [tailState_other hr hn, List.cons_prefix_cons, Ne.symm hr, Ne.symm hn]

theorem sHttpParseByte_other {c : Byte} (hr : c ≠ 13) (hn : c ≠ 10) {s : Nat} (hs : s < 4) :
    sHttpParseByte s c = some 0 := by
  have hr' := Ne.symm hr
  have hn' := Ne.symm hn
  match s with
  | 0 => simp [sHttpParseByte, jumpBuf, ch, hr']
  | 1 => simp [sHttpParseByte, jumpBuf, ch, hr', hn']
  | 2 => simp [sHttpParseByte, jumpBuf, ch, hr']
  | 3 => simp [sHttpParseByte, jumpBuf, ch, hr', hn']

/-- One byte of `s_http_parse` follows the tail. -/
theorem sHttpParseByte_tail {r : List Byte} {c : Byte} (h : tailState r ≠ 4) :
    sHttpParseByte (tailState r) c = some (tailState (c :: r)) := by
  rcases tailState_cases r with h4 | ⟨hs, h1, h2⟩ | ⟨hs, h1, h2, h3⟩ | ⟨hs, h1, h2, h3⟩ | ⟨hs, h1, h2, h3⟩
  · contradiction
  all_goals
    rw [hs]
    by_cases hr : c = 13
    · subst hr
      rw [tailState_cr]
      simp_all [sHttpParseByte, jumpBuf, ch]
    · by_cases hn : c = 10
      · subst hn
        rw [tailState_lf]
        simp_all [sHttpParseByte, jumpBuf, ch]
      · rw [tailState_other hr hn]
        exact sHttpParseByte_other hr hn (by decide)

/-! ## A stretch of bytes -/

/-- Bytes that do not end a head are all consumed. -/
theorem sHttpParse_open (data : List Byte) : ∀ {p : List Byte},
    (∀ q, q <+: data → ¬ headMark <:+ p ++ q) →
    sHttpParse data (tailState p.reverse) = some (data.length, tailState (p ++ data).reverse) := by
  induction data with
  | nil =>
    intro p _
    simp [sHttpParse]
  | cons c data ih =>
    intro p h
    have h0 : tailState p.reverse ≠ 4 := fun h4 => h [] List.nil_prefix (by simpa using tailState_four.mp h4)
    have hrev : c :: p.reverse = (p ++ [c]).reverse := by simp
    have h1 : tailState (p ++ [c]).reverse ≠ 4 :=
      fun h4 => h [c] (List.cons_prefix_cons.mpr ⟨rfl, List.nil_prefix⟩) (tailState_four.mp h4)
    have hrest := ih (p := p ++ [c]) (by
      intro q hq
      have hcons := h (c :: q) (List.cons_prefix_cons.mpr ⟨rfl, hq⟩)
      simpa using hcons)
    rw [sHttpParse, sHttpParseByte_tail h0, hrev]
    simp only [Option.bind_eq_bind, Option.bind_some]
    rw [if_neg h1, hrest]
    simp

/-- **The head ends at its first CRLFCRLF**, whatever follows. -/
theorem sHttpParse_head {head body : List Byte} (h : IsHead head) :
    sHttpParse (head ++ body) 0 = some (head.length, 4) := by
  have hgen : ∀ (l p : List Byte), l ≠ [] → p ++ l = head →
      sHttpParse (l ++ body) (tailState p.reverse) = some (l.length, 4) := by
    intro l
    induction l with
    | nil =>
      intro p hne
      exact absurd rfl hne
    | cons c l ih =>
      intro p _ hp
      have h0 : tailState p.reverse ≠ 4 := by
        intro h4
        have heq := h.first p ⟨c :: l, hp⟩ (tailState_four.mp h4)
        rw [← hp] at heq
        simp at heq
      have hrev : c :: p.reverse = (p ++ [c]).reverse := by simp
      rw [List.cons_append, sHttpParse, sHttpParseByte_tail h0, hrev]
      simp only [Option.bind_eq_bind, Option.bind_some]
      by_cases hl : l = []
      · subst hl
        have h4 : tailState (p ++ [c]).reverse = 4 := tailState_four.mpr (hp ▸ h.ends)
        rw [if_pos h4]
        rfl
      · have h1 : tailState (p ++ [c]).reverse ≠ 4 := by
          intro h4
          have heq := h.first (p ++ [c]) ⟨l, by simpa using hp⟩ (tailState_four.mp h4)
          rw [← hp] at heq
          simp at heq
          exact hl heq
        rw [if_neg h1, ih (p ++ [c]) hl (by simpa using hp)]
        simp
  have hne : head ≠ [] := by
    intro hnil
    have hends := h.ends
    rw [hnil] at hends
    have hlen := hends.length_le
    simp [headMark] at hlen
  exact hgen head [] hne rfl

/-! ## A packet with a whole head -/

/-- **A head goes to `http_parse_head`, what stands behind it to
`http_parse_body`.** -/
theorem parsePacket_head {before : Http} {head body : List Byte} (h : IsHead head)
    (hfresh : before.loc.state = 0) :
    parsePacket before (head ++ body) =
      ((httpParseHead head.length { before with loc := { before.loc with state := 4 } }).run
        (Memory.ofList (head ++ body))).bind fun info => (parseBody info body).map fun r => (0, r) := by
  have hstate : ¬ before.loc.state = 4 := by
    rw [hfresh]
    decide
  have hlen : ((head ++ body).length : Int) - head.length = body.length := by
    rw [List.length_append]
    omega
  unfold parsePacket doHttpParseTest parseBody
  dsimp only
  rw [if_neg hstate, Access.run_bind, Access.run_pure, Option.bind_some, Access.run_bind, slice_whole,
    Option.bind_some, Access.run_bind, Access.run_ofOption, hfresh, sHttpParse_head h, Option.bind_some]
  dsimp only
  rw [if_neg (by decide), if_pos rfl, Access.run_bind]
  congr 1
  funext info
  rw [Access.run_bind, Access.run_atPtr, hlen, Memory.above_ofList]
  cases (httpParseBody body.length info).run (Memory.ofList body) with
  | none => rfl
  | some r => rfl

end WafProxy
