import WafProxy.Http.Head

/-
  The calls that a line leads to — `http_parse_head` of http.c

  `split` and the flags are collected byte by byte; the flags are cleared at the
  end of a line, `split` is not. What the locals are behind some bytes of a line
  is computed from these bytes alone (`HeadScan.over`).

  What is proved:
    1. `headScanByte_over` — one byte inside a line; `headLinesLoop_over` — all of
       them.
    2. `headLinesLoop_line` — a line and its CRLF lead to one call, with the flags
       of this line, and with the first colon of this line if it has one.
    3. `headLines_first` — the lines of a head are its first one and those behind it.

  Correspondence (C ↔ Lean):
    `SET_NEED_..._DECODE(flag)` over a line  ↔ `lineFlag`
    `split` behind a line                    ↔ `splitBehind`
-/

namespace WafProxy
open Lib

/-- The escape characters of a line. -/
def lineFlag (l : List Byte) : DecodeFlag where
  url := ch '%' ∈ l
  html := ch '&' ∈ l
  escape := ch '\\' ∈ l

def DecodeFlag.or (a b : DecodeFlag) : DecodeFlag where
  url := a.url || b.url
  html := a.html || b.html
  escape := a.escape || b.escape

/-- The pointer to the first colon, or the one that was set before. -/
def splitBehind (split : Option Int) (data : Int) (l : List Byte) : Option Int :=
  if ch ':' ∈ l then some (data + (l.takeWhile (· ≠ ch ':')).length) else split

/-- The locals behind the bytes `l` of a line, the first of which stands at `data`. -/
def HeadScan.over (s : HeadScan) (data : Int) (l : List Byte) : HeadScan :=
  { s with
    flag := s.flag.or (lineFlag l)
    split := if s.tmpFlag then s.split else splitBehind s.split data l
    tmpFlag := s.tmpFlag || decide (ch ':' ∈ l) }

/-! ## The bytes of a line -/

/-- The states inside a line. -/
def HeaderState.InLine (st : HeaderState) : Prop := st = .char1 ∨ st = .charN

/-- What the byte itself does to the locals. -/
theorem headScanChar_fields (s : HeadScan) (c : Byte) (data : Int) :
    (headScanChar s c data).st = httpHeaderState s.st (headerChar c) ∧
    (headScanChar s c data).begin = s.begin ∧ (headScanChar s c data).num = s.num := by
  unfold headScanChar
  dsimp only
  split
  · exact ⟨rfl, rfl, rfl⟩
  · split
    · exact ⟨rfl, rfl, rfl⟩
    · split
      · exact ⟨rfl, rfl, rfl⟩
      · split <;> exact ⟨rfl, rfl, rfl⟩

theorem DecodeFlag.or_assoc (a b c : DecodeFlag) : (a.or b).or c = a.or (b.or c) := by
  simp [DecodeFlag.or, Bool.or_assoc]

theorem lineFlag_cons (c : Byte) (l : List Byte) : lineFlag (c :: l) = (lineFlag [c]).or (lineFlag l) := by
  simp [lineFlag, DecodeFlag.or]

theorem HeadScan.over_nil (s : HeadScan) (data : Int) : s.over data [] = s := by
  cases s with
  | mk st flag begin split tmpFlag num =>
    cases flag
    simp [HeadScan.over, splitBehind, lineFlag, DecodeFlag.or]

/-- The first colon of a line that starts with another byte. -/
theorem splitBehind_cons {c : Byte} (hc : c ≠ ch ':') (split : Option Int) (data : Int) (l : List Byte) :
    splitBehind split data (c :: l) = splitBehind split (data + 1) l := by
  have hmem : ch ':' ∈ c :: l ↔ ch ':' ∈ l := by simp [hc.symm]
  unfold splitBehind
  rw [List.takeWhile_cons_of_pos (by simpa using hc)]
  by_cases hl : ch ':' ∈ l
  · rw [if_pos (hmem.mpr hl), if_pos hl, List.length_cons]
    congr 1
    omega
  · rw [if_neg fun h => hl (hmem.mp h), if_neg hl]

theorem splitBehind_single {c : Byte} (hc : c ≠ ch ':') (split : Option Int) (data : Int) :
    splitBehind split data [c] = split := by
  simp [splitBehind, hc.symm]

theorem HeadScan.over_cons (s : HeadScan) (data : Int) (c : Byte) (l : List Byte) :
    (s.over data [c]).over (data + 1) l = s.over data (c :: l) := by
  have hflag : (s.flag.or (lineFlag [c])).or (lineFlag l) = s.flag.or (lineFlag (c :: l)) := by
    rw [DecodeFlag.or_assoc, ← lineFlag_cons]
  unfold HeadScan.over
  rw [hflag]
  by_cases hc : c = ch ':'
  · simp [splitBehind, hc]
  · rw [splitBehind_single hc, splitBehind_cons hc]
    cases s.tmpFlag <;> simp [Ne.symm hc]

/-- What a byte that is no CR and no LF does to the locals. -/
theorem headScanChar_over (s : HeadScan) {c : Byte} (data : Int) (hr : c ≠ ch '\r') (hn : c ≠ ch '\n') :
    headScanChar s c data = { s.over data [c] with st := httpHeaderState s.st .other } := by
  have hchar : headerChar c = .other := by simp [headerChar, hr, hn]
  have hor : s.flag.or {} = s.flag := by simp [DecodeFlag.or]
  unfold headScanChar HeadScan.over
  rw [hchar]
  dsimp only
  -- every escape character sets one flag, and is no colon
  by_cases hpercent : c = ch '%'
  · rw [if_pos hpercent, hpercent]
    have hflag : lineFlag [ch '%'] = { url := true } := by decide
    have hmem : ch ':' ∉ [ch '%'] := by decide
    simp [hflag, splitBehind, hmem, DecodeFlag.or]
  rw [if_neg hpercent]
  by_cases hamp : c = ch '&'
  · rw [if_pos hamp, hamp]
    have hflag : lineFlag [ch '&'] = { html := true } := by decide
    have hmem : ch ':' ∉ [ch '&'] := by decide
    simp [hflag, splitBehind, hmem, DecodeFlag.or]
  rw [if_neg hamp]
  by_cases hback : c = ch '\\'
  · rw [if_pos hback, hback]
    have hflag : lineFlag [ch '\\'] = { escape := true } := by decide
    have hmem : ch ':' ∉ [ch '\\'] := by decide
    simp [hflag, splitBehind, hmem, DecodeFlag.or]
  rw [if_neg hback]
  have hflag : lineFlag [c] = {} := by
    simp [lineFlag, Ne.symm hpercent, Ne.symm hamp, Ne.symm hback]
  by_cases hcolon : c = ch ':'
  · rw [hflag, hor, hcolon]
    cases htmp : s.tmpFlag with
    | false => simp [splitBehind]
    | true => simp
  · rw [if_neg fun h => hcolon h.1, hflag, hor, splitBehind_single hcolon]
    simp [Ne.symm hcolon]

theorem headScanByte_over {s : HeadScan} {c : Byte} {data : Int} (hst : s.st.InLine) (hr : c ≠ ch '\r')
    (hn : c ≠ ch '\n') : headScanByte s c data = ({ s.over data [c] with st := .charN }, none) := by
  have hnext : httpHeaderState s.st .other = .charN := by
    rcases hst with h | h <;> rw [h] <;> rfl
  unfold headScanByte
  rw [headScanChar_over s data hr hn, hnext]
  rfl

/-- **The bytes of a line call nothing**, and leave what is computed from them. -/
theorem headLinesLoop_over {rest : List Byte} (l : List Byte) : ∀ {data : Int} {s : HeadScan}, s.st.InLine →
    (∀ c ∈ l, c ≠ ch '\r' ∧ c ≠ ch '\n') → ∃ st : HeaderState, st.InLine ∧
    headLinesLoop (l ++ rest) data s = headLinesLoop rest (data + l.length) { s.over data l with st := st } := by
  induction l with
  | nil =>
    intro data s hst _
    refine ⟨s.st, hst, ?_⟩
    rw [HeadScan.over_nil, List.nil_append, List.length_nil, Int.natCast_zero, Int.add_zero]
  | cons c l ih =>
    intro data s hst hl
    obtain ⟨hr, hn⟩ := hl c List.mem_cons_self
    obtain ⟨st, hin, hloop⟩ := @ih (data + 1) { s.over data [c] with st := .charN } (Or.inr rfl)
      fun q hq => hl q (List.mem_cons_of_mem _ hq)
    have hlen : data + 1 + (l.length : Int) = data + ((c :: l).length : Nat) := by
      rw [List.length_cons]
      omega
    refine ⟨st, hin, ?_⟩
    rw [List.cons_append, headLinesLoop, headScanByte_over hst hr hn]
    dsimp only
    rw [hloop, hlen, ← HeadScan.over_cons s data c l]
    rfl

/-! ## A line -/

/-- The locals between two lines. -/
structure HeadScan.Between (s : HeadScan) : Prop where
  st : s.st = .char0
  flag : s.flag = {}
  tmpFlag : s.tmpFlag = false

/-- The call that a line at `data` leads to. -/
def lineCall (s : HeadScan) (data : Int) (l : List Byte) : HeadLine where
  flag := lineFlag l
  begin := some data
  split := splitBehind s.split data l
  stop := data + l.length
  num := s.num

/-- The locals behind that call. -/
def HeadScan.next (s : HeadScan) (data : Int) (l : List Byte) : HeadScan where
  begin := some data
  split := splitBehind s.split data l
  num := s.num + 1

theorem HeadScan.next_between (s : HeadScan) (data : Int) (l : List Byte) : (s.next data l).Between :=
  ⟨rfl, rfl, rfl⟩

/-- The CRLF behind a line makes the call of the line. -/
theorem headLinesLoop_crlf {rest : List Byte} {data : Int} {s : HeadScan} (hst : s.st.InLine) :
    headLinesLoop (ch '\r' :: ch '\n' :: rest) data s =
      { flag := s.flag, begin := s.begin, split := s.split, stop := data, num := s.num } ::
        headLinesLoop rest (data + 2) { s with st := .char0, tmpFlag := false, flag := {}, num := s.num + 1 } := by
  have hcr : headScanByte s (ch '\r') data = ({ s with st := .r1 }, none) := by
    have hchar : headerChar (ch '\r') = .cr := by decide
    have hnext : httpHeaderState s.st .cr = .r1 := by
      rcases hst with h | h <;> rw [h] <;> rfl
    have h1 : ch '\r' ≠ ch '%' := by decide
    have h2 : ch '\r' ≠ ch '&' := by decide
    have h3 : ch '\r' ≠ ch '\\' := by decide
    have h4 : ch '\r' ≠ ch ':' := by decide
    simp only [headScanByte, headScanLine, headScanChar, hchar, hnext, if_neg h1, if_neg h2,
      if_neg h3, h4, false_and, if_false]
  have hlf : headScanByte { s with st := .r1 } (ch '\n') (data + 1) =
      ({ s with st := .char0, tmpFlag := false, flag := {}, num := s.num + 1 },
        some { flag := s.flag, begin := s.begin, split := s.split, stop := data, num := s.num }) := by
    have hchar : headerChar (ch '\n') = .lf := by decide
    have h1 : ch '\n' ≠ ch '%' := by decide
    have h2 : ch '\n' ≠ ch '&' := by decide
    have h3 : ch '\n' ≠ ch '\\' := by decide
    have h4 : ch '\n' ≠ ch ':' := by decide
    have hstop : data + 1 - 1 = data := by omega
    simp only [headScanByte, headScanLine, headScanChar, hchar, httpHeaderState, if_neg h1,
      if_neg h2, if_neg h3, h4, false_and, if_false, hstop]
  have htwo : data + 1 + 1 = data + 2 := by omega
  rw [headLinesLoop, hcr]
  dsimp only
  rw [headLinesLoop, hlf]
  dsimp only
  rw [htwo]
  rfl

/-- **A line and its CRLF lead to one call.** -/
theorem headLinesLoop_line {rest l : List Byte} {data : Int} {s : HeadScan} (hs : s.Between) (hne : l ≠ [])
    (hl : ∀ c ∈ l, c ≠ ch '\r' ∧ c ≠ ch '\n') :
    headLinesLoop (l ++ ch '\r' :: ch '\n' :: rest) data s =
      lineCall s data l :: headLinesLoop rest (data + l.length + 2) (s.next data l) := by
  obtain ⟨c, l, rfl⟩ := List.exists_cons_of_ne_nil hne
  obtain ⟨hr, hn⟩ := hl c List.mem_cons_self
  -- the first byte starts the line
  have hfirst : headScanByte s c data = ({ s.over data [c] with st := .char1, begin := some data }, none) := by
    unfold headScanByte
    rw [headScanChar_over s data hr hn, hs.st]
    rfl
  obtain ⟨st, hin, hloop⟩ := @headLinesLoop_over (ch '\r' :: ch '\n' :: rest) l (data + 1)
    { s.over data [c] with st := .char1, begin := some data } (Or.inl rfl)
    fun q hq => hl q (List.mem_cons_of_mem _ hq)
  have hcrlf := @headLinesLoop_crlf rest (data + 1 + l.length)
    { HeadScan.over { s.over data [c] with st := .char1, begin := some data } (data + 1) l with st := st } hin
  have hlen : data + 1 + (l.length : Int) = data + ((c :: l).length : Nat) := by
    rw [List.length_cons]
    omega
  rw [List.cons_append, headLinesLoop, hfirst]
  dsimp only
  rw [hloop, hcrlf, hlen]
  have hover : HeadScan.over { s.over data [c] with st := .char1, begin := some data } (data + 1) l =
      { s.over data (c :: l) with st := .char1, begin := some data } := by
    rw [← HeadScan.over_cons s data c l]
    rfl
  have hflag : s.flag.or (lineFlag (c :: l)) = lineFlag (c :: l) := by
    rw [hs.flag]
    simp [DecodeFlag.or]
  have hsplit : (s.over data (c :: l)).split = splitBehind s.split data (c :: l) := by
    rw [HeadScan.over, hs.tmpFlag]
    rfl
  rw [hover]
  dsimp only
  rw [hsplit, show (s.over data (c :: l)).flag = lineFlag (c :: l) from hflag]
  rfl

/-- **The first line of a head goes to `http_parse_line` whole.** -/
theorem headLines_first {line rest : List Byte} (hne : line ≠ []) (hplain : ∀ c ∈ line, c ≠ ch '\r' ∧ c ≠ ch '\n') :
    headLines (line ++ ch '\r' :: ch '\n' :: rest) =
      lineCall {} 0 line :: headLinesLoop rest (line.length + 2) (HeadScan.next {} 0 line) := by
  rw [headLines, headLinesLoop_line ⟨rfl, rfl, rfl⟩ hne hplain, Int.zero_add]

theorem httpParseHeadLoop_first {line rest : List Byte} (hne : line ≠ [])
    (hplain : ∀ c ∈ line, c ≠ ch '\r' ∧ c ≠ ch '\n') (info : Http) (m : Memory Byte) :
    (httpParseHeadLoop (line ++ ch '\r' :: ch '\n' :: rest) 0 {} info).run m =
      ((httpParseHeadLine info (lineCall {} 0 line)).run m).bind fun r =>
        (httpParseHeadLoop rest (line.length + 2) (HeadScan.next {} 0 line) r).run m := by
  rw [httpParseHeadLoop_lines, ← headLines, headLines_first hne hplain, httpParseLines, Access.run_bind]
  congr 1
  funext r
  exact (httpParseHeadLoop_lines _).symm

end WafProxy
