import Mathlib.Data.List.DropRight
import WafProxy.Http.Packets
import WafProxy.Http.RequestLine
import WafProxy.Lib.Pieces

/-
  The lines of a head — `http_parse_head` of http.c, `http_init_header_state` of
  http_table.c

  A line starts at the byte that leads into `HTTP_HEADER_STATE_CHAR1`. Two rows of
  the table lead there: the one of CHAR0, which passes over CR and LF, and the
  one of R1, which a CR inside a line leads to.

  What is proved:
    1. `headScanByte_quiet` — what a byte does that ends no line.
    2. `headLines_piece` — a stretch between two CRLF pairs is passed to
       `http_parse_line` from one of its places on, or not at all; from its
       beginning exactly when it is `Whole`.
    3. `headLines_iff` — the lines are the stretches exactly when every stretch
       that is not empty is `Whole`.

  Correspondence (C ↔ Lean):
    the stretches between CRLF pairs          ↔ `stretches`
    `begin` and `end` of `http_parse_line`    ↔ `begin` and `stop` of `HeadLine`
-/

namespace WafProxy
open Lib

/-- The stretches of a head between its CRLF pairs, the empty ones too. -/
def stretches (head : List Byte) : List (List Byte) := Lib.pieces 13 10 head

/-- Where the stretches that are not empty begin and end, the first of all beginning at `start`. -/
def stretchPlaces : Nat → List (List Byte) → List (Option Int × Int)
  | _, [] => []
  | start, s :: rest =>
    (if s = [] then [] else [(some (start : Int), ((start + s.length : Nat) : Int))]) ++
      stretchPlaces (start + s.length + 2) rest

/-- Where the lines begin and end that `http_parse_line` is given. -/
def linePlaces (lines : List HeadLine) : List (Option Int × Int) :=
  lines.map fun line => (line.begin, line.stop)

/-- A stretch that starts with another byte than CR and LF, and has CRs at its end only. -/
def Whole (s : List Byte) : Prop :=
  (∃ c ∈ s.head?, c ≠ 13 ∧ c ≠ 10) ∧ 13 ∉ s.rdropWhile (· = 13)

instance (s : List Byte) : Decidable (Whole s) := by
  unfold Whole
  infer_instance

/-! ## One byte more -/

theorem whole_single {c : Byte} (hr : c ≠ 13) (hn : c ≠ 10) : Whole [c] := by
  refine ⟨⟨c, rfl, hr, hn⟩, ?_⟩
  have hkeep : [c].rdropWhile (· = 13) = [c] := List.rdropWhile_concat_neg _ [] c (by simpa using hr)
  rw [hkeep]
  simpa using Ne.symm hr

theorem head?_concat {p : List Byte} (hne : p ≠ []) (c : Byte) : (p ++ [c]).head? = p.head? := by
  cases p with
  | nil => exact absurd rfl hne
  | cons d p => rfl

/-- A CR may stand behind a whole stretch. -/
theorem whole_concat_cr {p : List Byte} (hne : p ≠ []) : Whole (p ++ [13]) ↔ Whole p := by
  unfold Whole
  rw [head?_concat hne, List.rdropWhile_concat_pos _ p 13 (by simp)]

/-- Another byte may stand behind one that ends with no CR. -/
theorem whole_concat_other {p : List Byte} (hne : p ≠ []) {c : Byte} (hc : c ≠ 13) :
    Whole (p ++ [c]) ↔ Whole p ∧ p.getLast? ≠ some 13 := by
  have hkeep : (p ++ [c]).rdropWhile (· = 13) = p ++ [c] :=
    List.rdropWhile_concat_neg _ p c (by simpa using hc)
  obtain ⟨q, d, rfl⟩ : ∃ q d, p = q ++ [d] :=
    ⟨_, _, (List.dropLast_concat_getLast hne).symm⟩
  have hlast : (q ++ [d]).getLast? = some d := List.getLast?_concat
  unfold Whole
  rw [head?_concat hne, hkeep, hlast]
  by_cases hd : d = 13
  · subst hd
    simp
  · have hkeep' : (q ++ [d]).rdropWhile (· = 13) = q ++ [d] :=
      List.rdropWhile_concat_neg _ q d (by simpa using hd)
    rw [hkeep']
    simp only [List.mem_append, List.mem_singleton, Ne.symm hc, or_false, ne_eq, Option.some.injEq, hd,
      not_false_eq_true, and_true]

/-! ## The scanner inside a stretch -/

/-- A byte that ends no line. -/
theorem headScanByte_quiet {s : HeadScan} {c : Byte} {data : Int}
    (h : httpHeaderState s.st (headerChar c) ≠ .n1) :
    ∃ next, headScanByte s c data = (next, none) ∧ next.st = httpHeaderState s.st (headerChar c) ∧
      next.begin = if httpHeaderState s.st (headerChar c) = .char1 then some data else s.begin := by
  obtain ⟨hst, hbegin, -⟩ := headScanChar_fields s c data
  unfold headScanByte headScanLine
  cases hnext : httpHeaderState s.st (headerChar c) with
  | n1 => exact absurd hnext h
  | char1 =>
    rw [hnext] at hst
    rw [hst]
    exact ⟨_, rfl, rfl, rfl⟩
  | char0 | charN | r1 | r2 | n2 =>
    rw [hnext] at hst
    rw [hst]
    exact ⟨_, rfl, hst, hbegin⟩

/-- The scanner behind the beginning `p` of a stretch that starts at `start`. -/
inductive Scanned (start : Nat) (p : List Byte) (s : HeadScan) : Prop where
  /-- nothing but CR and LF so far -/
  | blank (st : s.st = .char0) (bytes : ∀ c ∈ p, c = 13 ∨ c = 10)
  /-- inside a line that starts `k` bytes behind `start` -/
  | line (k : Nat) (begin : s.begin = some ((start + k : Nat) : Int)) (lt : k < p.length)
      (whole : k = 0 ↔ Whole p)
      (st : s.st.InLine ∧ p.getLast? ≠ some 13 ∨ s.st = .r1 ∧ p.getLast? = some 13)

theorem headerChar_cr : headerChar 13 = .cr := by decide

theorem headerChar_lf : headerChar 10 = .lf := by decide

theorem headerChar_other {c : Byte} (hr : c ≠ 13) (hn : c ≠ 10) : headerChar c = .other := by
  have hr' : c ≠ ch '\r' := hr
  have hn' : c ≠ ch '\n' := hn
  simp [headerChar, hr', hn']

section
variable {start : Nat} {p : List Byte} {s : HeadScan} {c : Byte}

/-- A CR. -/
theorem scanned_cr (h : Scanned start p s) :
    ∃ next, headScanByte s 13 ((start + p.length : Nat) : Int) = (next, none) ∧
      Scanned start (p ++ [13]) next := by
  cases h with
  | blank st bytes =>
    have hrow : httpHeaderState s.st (headerChar 13) = .char0 := by
      rw [st, headerChar_cr]
      rfl
    obtain ⟨next, hnext, hst, -⟩ := @headScanByte_quiet s 13 ((start + p.length : Nat) : Int)
      (by rw [hrow]; decide)
    refine ⟨next, hnext, .blank (hst.trans hrow) ?_⟩
    intro d hd
    rcases List.mem_append.mp hd with hd | hd
    · exact bytes d hd
    · exact Or.inl (List.mem_singleton.mp hd)
  | line k begin lt whole st =>
    have hrow : httpHeaderState s.st (headerChar 13) = .r1 := by
      rw [headerChar_cr]
      rcases st with ⟨h | h, -⟩ | ⟨h, -⟩ <;> rw [h] <;> rfl
    obtain ⟨next, hnext, hst, hbegin⟩ := @headScanByte_quiet s 13 ((start + p.length : Nat) : Int)
      (by rw [hrow]; decide)
    rw [hrow, if_neg (by decide)] at hbegin
    have hne : p ≠ [] := List.ne_nil_of_length_pos (by omega)
    refine ⟨next, hnext, .line k (hbegin.trans begin) ?_ ?_ (Or.inr ⟨hst.trans hrow, ?_⟩)⟩
    · rw [List.length_append]
      omega
    · rw [whole_concat_cr hne]
      exact whole
    · exact List.getLast?_concat

/-- An LF that stands behind no CR. -/
theorem scanned_lf (h : Scanned start p s) (hlast : p.getLast? ≠ some 13) :
    ∃ next, headScanByte s 10 ((start + p.length : Nat) : Int) = (next, none) ∧
      Scanned start (p ++ [10]) next := by
  cases h with
  | blank st bytes =>
    have hrow : httpHeaderState s.st (headerChar 10) = .char0 := by
      rw [st, headerChar_lf]
      rfl
    obtain ⟨next, hnext, hst, -⟩ := @headScanByte_quiet s 10 ((start + p.length : Nat) : Int)
      (by rw [hrow]; decide)
    refine ⟨next, hnext, .blank (hst.trans hrow) ?_⟩
    intro d hd
    rcases List.mem_append.mp hd with hd | hd
    · exact bytes d hd
    · exact Or.inr (List.mem_singleton.mp hd)
  | line k begin lt whole st =>
    have hin : s.st.InLine := by
      rcases st with ⟨h, -⟩ | ⟨-, h⟩
      · exact h
      · exact absurd h hlast
    have hrow : httpHeaderState s.st (headerChar 10) = .charN := by
      rw [headerChar_lf]
      rcases hin with h | h <;> rw [h] <;> rfl
    obtain ⟨next, hnext, hst, hbegin⟩ := @headScanByte_quiet s 10 ((start + p.length : Nat) : Int)
      (by rw [hrow]; decide)
    rw [hrow, if_neg (by decide)] at hbegin
    have hne : p ≠ [] := List.ne_nil_of_length_pos (by omega)
    refine ⟨next, hnext, .line k (hbegin.trans begin) ?_ ?_ (Or.inl ⟨Or.inr (hst.trans hrow), ?_⟩)⟩
    · rw [List.length_append]
      omega
    · rw [whole_concat_other hne (by decide)]
      exact whole.trans (and_iff_left hlast).symm
    · rw [List.getLast?_concat]
      decide

/-- Another byte: behind a CR, and at the beginning, it starts a line. -/
theorem scanned_other (h : Scanned start p s) (hr : c ≠ 13) (hn : c ≠ 10) :
    ∃ next, headScanByte s c ((start + p.length : Nat) : Int) = (next, none) ∧
      Scanned start (p ++ [c]) next := by
  have hlast : (p ++ [c]).getLast? ≠ some 13 := by
    rw [List.getLast?_concat]
    simpa using hr
  have hlen : p.length < (p ++ [c]).length := by
    rw [List.length_append, List.length_singleton]
    omega
  have hchar := headerChar_other hr hn
  cases h with
  | blank st bytes =>
    have hrow : httpHeaderState s.st (headerChar c) = .char1 := by
      rw [st, hchar]
      rfl
    obtain ⟨next, hnext, hst, hbegin⟩ := @headScanByte_quiet s c ((start + p.length : Nat) : Int)
      (by rw [hrow]; decide)
    rw [hrow, if_pos rfl] at hbegin
    refine ⟨next, hnext, .line p.length hbegin hlen ?_ (Or.inl ⟨Or.inl (hst.trans hrow), hlast⟩)⟩
    constructor
    · intro hzero
      rw [List.length_eq_zero_iff.mp hzero]
      exact whole_single hr hn
    · intro hwhole
      -- a stretch that starts with CR or LF is not whole
      cases p with
      | nil => rfl
      | cons d p =>
        obtain ⟨⟨e, he, her, hen⟩, -⟩ := hwhole
        cases he
        rcases bytes d List.mem_cons_self with hd | hd
        · exact absurd hd her
        · exact absurd hd hen
  | line k begin lt whole st =>
    have hne : p ≠ [] := List.ne_nil_of_length_pos (by omega)
    rcases st with ⟨hin, hplast⟩ | ⟨hr1, hplast⟩
    · have hrow : httpHeaderState s.st (headerChar c) = .charN := by
        rw [hchar]
        rcases hin with h | h <;> rw [h] <;> rfl
      obtain ⟨next, hnext, hst, hbegin⟩ := @headScanByte_quiet s c ((start + p.length : Nat) : Int)
        (by rw [hrow]; decide)
      rw [hrow, if_neg (by decide)] at hbegin
      refine ⟨next, hnext,
        .line k (hbegin.trans begin) (by omega) ?_ (Or.inl ⟨Or.inr (hst.trans hrow), hlast⟩)⟩
      rw [whole_concat_other hne hr]
      exact whole.trans (and_iff_left hplast).symm
    · have hrow : httpHeaderState s.st (headerChar c) = .char1 := by
        rw [hchar, hr1]
        rfl
      obtain ⟨next, hnext, hst, hbegin⟩ := @headScanByte_quiet s c ((start + p.length : Nat) : Int)
        (by rw [hrow]; decide)
      rw [hrow, if_pos rfl] at hbegin
      refine ⟨next, hnext, .line p.length hbegin hlen ?_ (Or.inl ⟨Or.inl (hst.trans hrow), hlast⟩)⟩
      rw [whole_concat_other hne hr]
      constructor
      · intro hzero
        omega
      · intro hwhole
        exact absurd hplast hwhole.2

end

/-- The bytes of a stretch end no line. -/
theorem headLinesLoop_scanned {start : Nat} {rest : List Byte} (text : List Byte) :
    ∀ {p : List Byte} {s : HeadScan}, Scanned start p s → ¬ [13, 10] <:+: p ++ text →
    ∃ next, headLinesLoop (text ++ rest) ((start + p.length : Nat) : Int) s =
        headLinesLoop rest ((start + (p ++ text).length : Nat) : Int) next ∧
      Scanned start (p ++ text) next := by
  induction text with
  | nil =>
    intro p s h _
    rw [List.append_nil]
    exact ⟨s, rfl, h⟩
  | cons c text ih =>
    intro p s h hfree
    have hsplit : p ++ c :: text = p ++ [c] ++ text := by simp
    have hstep : ∃ next, headScanByte s c ((start + p.length : Nat) : Int) = (next, none) ∧
        Scanned start (p ++ [c]) next := by
      by_cases hr : c = 13
      · subst hr
        exact scanned_cr h
      · by_cases hn : c = 10
        · subst hn
          refine scanned_lf h fun hlast => hfree ?_
          obtain ⟨q, rfl⟩ : ∃ q, p = q ++ [13] := List.getLast?_eq_some_iff.mp hlast
          exact ⟨q, text, by simp⟩
        · exact scanned_other h hr hn
    obtain ⟨mid, hbyte, hmid⟩ := hstep
    rw [hsplit] at hfree ⊢
    obtain ⟨next, hloop, hnext⟩ := ih hmid hfree
    refine ⟨next, ?_, hnext⟩
    have hplace : ((start + p.length : Nat) : Int) + 1 = ((start + (p ++ [c]).length : Nat) : Int) := by
      simp only [List.length_append, List.length_singleton]
      omega
    rw [List.cons_append, headLinesLoop, hbyte]
    dsimp only
    rw [hplace, hloop]
    rfl

/-! ## A stretch and the pair behind it -/

/-- The line a stretch is passed on as: none, or one that starts within the stretch. -/
structure PieceLine (start : Nat) (piece : List Byte) (line : Option HeadLine) : Prop where
  most : (linePlaces line.toList).length ≤ if piece = [] then 0 else 1
  whole : linePlaces line.toList =
      (if piece = [] then [] else [(some (start : Int), ((start + piece.length : Nat) : Int))]) ↔
    piece = [] ∨ Whole piece

/-- The CR of the pair. -/
theorem scanned_pair {start : Nat} {piece : List Byte} {s : HeadScan} (h : Scanned start piece s)
    (rest : List Byte) :
    ∃ line next, headLinesLoop (13 :: 10 :: rest) ((start + piece.length : Nat) : Int) s =
        line.toList ++ headLinesLoop rest ((start + piece.length + 2 : Nat) : Int) next ∧
      next.st = .char0 ∧ PieceLine start piece line := by
  have htwo : ((start + piece.length : Nat) : Int) + 1 + 1 = ((start + piece.length + 2 : Nat) : Int) := by
    omega
  cases h with
  | blank st bytes =>
    -- CR and LF are passed over, and the line has not begun
    obtain ⟨s1, h1, hst1, -⟩ := @headScanByte_quiet s 13 ((start + piece.length : Nat) : Int)
      (by rw [st, headerChar_cr]; decide)
    rw [st, headerChar_cr] at hst1
    obtain ⟨s2, h2, hst2, -⟩ := @headScanByte_quiet s1 10 (((start + piece.length : Nat) : Int) + 1)
      (by rw [hst1, headerChar_lf]; decide)
    rw [hst1, headerChar_lf] at hst2
    refine ⟨none, s2, ?_, hst2, Nat.zero_le _, ?_⟩
    · rw [headLinesLoop, h1]
      dsimp only
      rw [headLinesLoop, h2]
      dsimp only
      rw [htwo]
      rfl
    · show [] = _ ↔ _
      by_cases hne : piece = []
      · simp [hne]
      · rw [if_neg hne]
        have hnot : ¬ Whole piece := by
          rintro ⟨⟨c, hc, hr, hn⟩, -⟩
          rcases bytes c (List.mem_of_mem_head? hc) with h | h
          · exact hr h
          · exact hn h
        simp [hne, hnot]
  | line k begin lt whole st =>
    have hne : piece ≠ [] := List.ne_nil_of_length_pos (by omega)
    -- the LF finds the state R1, and ends the line in front of the CR
    have hrow : httpHeaderState s.st (headerChar 13) = .r1 := by
      rw [headerChar_cr]
      rcases st with ⟨h | h, -⟩ | ⟨h, -⟩ <;> rw [h] <;> rfl
    obtain ⟨s1, h1, hst1, hbegin1⟩ := @headScanByte_quiet s 13 ((start + piece.length : Nat) : Int)
      (by rw [hrow]; decide)
    rw [hrow] at hst1
    rw [hrow, if_neg (by decide)] at hbegin1
    obtain ⟨hst2, hbegin2, -⟩ := headScanChar_fields s1 10 (((start + piece.length : Nat) : Int) + 1)
    rw [hst1, headerChar_lf] at hst2
    obtain ⟨line, next, h2, hst, hbegin, hstop⟩ : ∃ line next,
        headScanByte s1 10 (((start + piece.length : Nat) : Int) + 1) = (next, some line) ∧
        next.st = .char0 ∧ line.begin = s1.begin ∧ line.stop = ((start + piece.length : Nat) : Int) := by
      unfold headScanByte headScanLine
      rw [hst2]
      exact ⟨_, _, rfl, rfl, hbegin2, by dsimp only; omega⟩
    have hplaces : linePlaces (some line).toList =
        [(some ((start + k : Nat) : Int), ((start + piece.length : Nat) : Int))] := by
      simp [linePlaces, hbegin, hbegin1, begin, hstop]
    refine ⟨some line, next, ?_, hst, ?_, ?_⟩
    · rw [headLinesLoop, h1]
      dsimp only
      rw [headLinesLoop, h2]
      dsimp only
      rw [htwo]
      rfl
    · rw [if_neg hne]
      exact Nat.le_refl 1
    · rw [hplaces, if_neg hne, or_iff_right hne, ← whole]
      constructor
      · intro h
        have hplace := (Prod.mk.inj (List.cons.inj h).1).1
        have hint : ((start + k : Nat) : Int) = (start : Int) := Option.some.inj hplace
        omega
      · rintro rfl
        rfl

/-- **One stretch**: `http_parse_line` gets it whole exactly when it is `Whole`. -/
theorem headLines_piece {start : Nat} {piece : List Byte} {s : HeadScan} (hst : s.st = .char0)
    (hfree : ¬ [13, 10] <:+: piece) (rest : List Byte) :
    ∃ line next, headLinesLoop (piece ++ 13 :: 10 :: rest) (start : Int) s =
        line.toList ++ headLinesLoop rest ((start + piece.length + 2 : Nat) : Int) next ∧
      next.st = .char0 ∧ PieceLine start piece line := by
  obtain ⟨mid, hloop, hmid⟩ := @headLinesLoop_scanned start (13 :: 10 :: rest) piece [] s
    (.blank hst fun c hc => (by cases hc)) hfree
  obtain ⟨line, next, hpair, hnext⟩ := scanned_pair hmid rest
  exact ⟨line, next, hloop.trans hpair, hnext⟩

/-! ## All stretches -/

/-- There are no more lines than stretches. -/
theorem headLines_count (ps : List (List Byte)) : ∀ {start : Nat} {s : HeadScan}, s.st = .char0 →
    (∀ p ∈ ps, ¬ [13, 10] <:+: p) →
    (linePlaces (headLinesLoop (joined 13 10 ps) (start : Int) s)).length ≤
      (stretchPlaces start ps).length := by
  induction ps with
  | nil =>
    intro start s _ _
    exact Nat.le_refl 0
  | cons p ps ih =>
    intro start s hst hfree
    obtain ⟨hp, hps⟩ := List.forall_mem_cons.mp hfree
    obtain ⟨line, next, hloop, hnext, hline⟩ := @headLines_piece start p s hst hp (joined 13 10 ps)
    have hmost := hline.most
    have hrest := @ih (start + p.length + 2) next hnext hps
    rw [joined_cons, hloop, stretchPlaces]
    simp only [linePlaces, List.map_append, List.length_append, List.length_map] at hmost hrest ⊢
    split at hmost
    · next hnil =>
      rw [if_pos hnil]
      simp only [List.length_nil]
      omega
    · next hne =>
      rw [if_neg hne]
      simp only [List.length_singleton]
      omega

/-- The lines are the stretches exactly when every stretch is passed on whole. -/
theorem headLines_pieces (ps : List (List Byte)) : ∀ {start : Nat} {s : HeadScan}, s.st = .char0 →
    (∀ p ∈ ps, ¬ [13, 10] <:+: p) →
    (linePlaces (headLinesLoop (joined 13 10 ps) (start : Int) s) = stretchPlaces start ps ↔
      ∀ p ∈ ps, p = [] ∨ Whole p) := by
  induction ps with
  | nil =>
    intro start s _ _
    exact iff_of_true rfl fun p hp => (by cases hp)
  | cons p ps ih =>
    intro start s hst hfree
    obtain ⟨hp, hps⟩ := List.forall_mem_cons.mp hfree
    obtain ⟨line, next, hloop, hnext, hline⟩ := @headLines_piece start p s hst hp (joined 13 10 ps)
    have hcount := @headLines_count ps (start + p.length + 2) next hnext hps
    have hsplit : linePlaces (headLinesLoop (joined 13 10 (p :: ps)) (start : Int) s) =
        linePlaces line.toList ++
          linePlaces (headLinesLoop (joined 13 10 ps) ((start + p.length + 2 : Nat) : Int) next) := by
      rw [joined_cons, hloop]
      exact List.map_append
    rw [hsplit, stretchPlaces, List.forall_mem_cons, ← hline.whole, ← ih hnext hps]
    constructor
    · intro h
      -- neither part has more lines than stretches, so the parts are equal one by one
      have hlen := congrArg List.length h
      have hmost := hline.most
      simp only [List.length_append] at hlen
      refine List.append_inj h ?_
      split at hmost
      · next hnil =>
        rw [if_pos hnil] at hlen ⊢
        simp only [List.length_nil] at hlen ⊢
        omega
      · next hne =>
        rw [if_neg hne] at hlen ⊢
        simp only [List.length_singleton] at hlen ⊢
        omega
    · rintro ⟨hfirst, hrest⟩
      rw [hfirst, hrest]

/-- The lines of a head are its stretches, in order and once each. -/
def LinesAreStretches (head : List Byte) : Prop :=
  linePlaces (headLines head) = stretchPlaces 0 (stretches head)

/-- **Which bytes of a head belong to a line.** A block that ends with CRLF is made of its
stretches and the CRLF pairs behind them; the lines are exactly these stretches when each
of them starts with another byte than CR and LF and has CRs at its end only. -/
theorem headLines_iff {head : List Byte} (hend : [13, 10] <:+ head) :
    (joined 13 10 (stretches head) = head ∧ ∀ s ∈ stretches head, ¬ [13, 10] <:+: s) ∧
    (LinesAreStretches head ↔ ∀ s ∈ stretches head, s = [] ∨ Whole s) := by
  have hjoined : joined 13 10 (stretches head) = head := joined_pieces (by decide) hend
  have hfree : ∀ s ∈ stretches head, ¬ [13, 10] <:+: s := pieces_free head
  refine ⟨⟨hjoined, hfree⟩, ?_⟩
  have hiff := @headLines_pieces (stretches head) 0 {} rfl hfree
  rw [hjoined] at hiff
  exact hiff

theorem headLines_three : LinesAreStretches (str "GET / HTTP/1.1\r\nHost: a\r\nx\r\r\n\r\n") :=
  ((@headLines_iff (str "GET / HTTP/1.1\r\nHost: a\r\nx\r\r\n\r\n") (by decide)).2).mpr (by decide)

/-- What stands in front of a CR inside a line is left out. -/
theorem lineFront_lost : ¬ LinesAreStretches (str "GET /a\rb HTTP/1.1\r\n\r\n") ∧
    linePlaces (headLines (str "GET /a\rb HTTP/1.1\r\n\r\n")) = [(some 7, 17)] := by
  refine ⟨?_, by decide⟩
  intro h
  have hwhole := (headLines_pieces (stretches (str "GET /a\rb HTTP/1.1\r\n\r\n")) rfl (pieces_free _)).mp h
  exact absurd (hwhole (str "GET /a\rb HTTP/1.1") (by decide)) (by decide)

end WafProxy
