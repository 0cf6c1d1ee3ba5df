import WafProxy.Http.Header

/-
  The request head — http.c

  `s_http_parse` looks for the CRLFCRLF that ends a head, from the state its
  last call left; `http_parse_head` cuts the head it is given into lines. The
  line cutter does not look at the parser's state, so the lines of a head are
  also given on their own (`headLines`).

  Correspondence (C ↔ Lean):
    `jump_buf` with its NUL            ↔ `jumpBuf`
    `s_http_parse`                     ↔ `sHttpParse` (the bytes consumed, `local->state`)
    `http_header_state`                ↔ `httpHeaderState`
    the locals of `http_parse_head`    ↔ `HeadScan`
    `http_init`, `http_parse_head`     ↔ `httpInit`, `httpParseHead`
-/

namespace WafProxy
open Lib

/-! ## The end of a head -/

def jumpBuf : List Byte := [ch '\r', ch '\n', ch '\r', ch '\n', 0]

/-- One turn of the loop of `s_http_parse`: `lstate` behind the byte. An index
behind `jump_buf` is undefined. -/
def sHttpParseByte (lstate : Nat) (c : Byte) : Option Nat := do
  let lstate := if (← jumpBuf[lstate]?) = c then lstate + 1 else 0
  pure (if (← jumpBuf[lstate]?) = c then lstate + 1 else lstate)

/-- `s_http_parse`: the number of bytes consumed and the state it leaves. -/
def sHttpParse : List Byte → Nat → Option (Nat × Nat)
  | [], lstate => some (0, lstate)
  | c :: data, lstate => do
    let lstate ← sHttpParseByte lstate c
    if lstate = 4 then some (1, 4)
    else
      let (n, lstate) ← sHttpParse data lstate
      some (n + 1, lstate)

/-! ## Lines -/

/-- `HTTP_HEADER_STATE_…`. -/
inductive HeaderState where
  | char0
  | char1
  | charN
  | r1
  | n1
  | r2
  | n2
  deriving DecidableEq, Repr

/-- The column of `http_header_state` a byte selects. -/
inductive HeaderChar where
  | other
  | cr
  | lf
  deriving DecidableEq, Repr

def headerChar (c : Byte) : HeaderChar :=
  if c = ch '\r' then .cr else if c = ch '\n' then .lf else .other

def httpHeaderState : HeaderState → HeaderChar → HeaderState
  | .char0, .other => .char1
  | .char0, _ => .char0
  | .char1, .cr => .r1
  | .char1, _ => .charN
  | .charN, .cr => .r1
  | .charN, _ => .charN
  | .r1, .other => .char1
  | .r1, .cr => .r1
  | .r1, .lf => .n1
  | .n1, .other => .char1
  | .n1, .cr => .r2
  | .n1, .lf => .n1
  | .r2, .lf => .n2
  | .r2, _ => .r2
  | .n2, .other => .char1
  | .n2, _ => .n2

/-- The locals of `http_parse_head`. -/
structure HeadScan where
  st : HeaderState := .char0
  flag : DecodeFlag := {}
  begin : Option Int := none
  split : Option Int := none
  tmpFlag : Bool := false
  num : Nat := 0
  deriving DecidableEq, Repr

/-- The arguments of one call of `http_parse_line`, and the flags it is called
under. -/
structure HeadLine where
  flag : DecodeFlag
  begin : Option Int
  split : Option Int
  stop : Int
  num : Nat
  deriving DecidableEq, Repr

/-- The first `switch`, on the byte at `data`. -/
def headScanChar (s : HeadScan) (c : Byte) (data : Int) : HeadScan :=
  let s := { s with st := httpHeaderState s.st (headerChar c) }
  if c = ch '%' then { s with flag := { s.flag with url := true } }
  else if c = ch '&' then { s with flag := { s.flag with html := true } }
  else if c = ch '\\' then { s with flag := { s.flag with escape := true } }
  else if c = ch ':' ∧ s.tmpFlag = false then { s with split := some data, tmpFlag := true }
  else s

/-- The second `switch`: the locals behind the byte, and the line it ends. -/
def headScanLine (s : HeadScan) (data : Int) : HeadScan × Option HeadLine :=
  match s.st with
  | .char1 => ({ s with begin := some data }, none)
  | .n1 =>
    ({ s with st := .char0, tmpFlag := false, flag := {}, num := s.num + 1 },
      some { flag := s.flag, begin := s.begin, split := s.split, stop := data - 1, num := s.num })
  | _ => (s, none)

def headScanByte (s : HeadScan) (c : Byte) (data : Int) : HeadScan × Option HeadLine :=
  headScanLine (headScanChar s c data) data

/-- The calls of `http_parse_line`, one for each line. -/
def headLinesLoop : List Byte → Int → HeadScan → List HeadLine
  | [], _, _ => []
  | c :: l, data, s =>
    let (s, line) := headScanByte s c data
    line.toList ++ headLinesLoop l (data + 1) s

def headLines (head : List Byte) : List HeadLine := headLinesLoop head 0 {}

/-! ## `http_parse_head` -/

def httpInit (info : Http) : Http :=
  { info with
    loc := { info.loc with formStatus := .begin, formFlag := .arg }
    httpInt := {}
    arg := { maxNum := 32 }
    str := {} }

/-- The call of `http_parse_line` and what stands around it. -/
def httpParseHeadLine (info : Http) (line : HeadLine) : Packet.Read Http := do
  let begin ← Access.ofOption line.begin
  let info ← httpParseLine { info with tmpFlag := line.flag } begin line.split line.stop line.num
  pure (info.withInt fun i => { i with headerLineNum := i.headerLineNum + 1 })

def httpParseHeadLoop : List Byte → Int → HeadScan → Http → Packet.Read Http
  | [], _, _, info => pure info
  | c :: l, data, s, info =>
    match headScanByte s c data with
    | (s, none) => httpParseHeadLoop l (data + 1) s info
    | (s, some line) => do
      let info ← httpParseHeadLine info line
      httpParseHeadLoop l (data + 1) s info

/-- One call of `http_parse_line` after the other. -/
def httpParseLines : List HeadLine → Http → Packet.Read Http
  | [], info => pure info
  | line :: lines, info => do
    let info ← httpParseHeadLine info line
    httpParseLines lines info

/-- **`http_parse_head` makes the calls of `headLines`.** -/
theorem httpParseHeadLoop_lines (l : List Byte) : ∀ {data : Int} {s : HeadScan} {info : Http}
    {m : Memory Byte}, (httpParseHeadLoop l data s info).run m =
      (httpParseLines (headLinesLoop l data s) info).run m := by
  induction l with
  | nil =>
    intro data s info m
    rfl
  | cons c l ih =>
    intro data s info m
    unfold httpParseHeadLoop headLinesLoop
    cases headScanByte s c data with
    | mk s' line =>
      cases line with
      | none => exact ih
      | some line =>
        show _ = (httpParseLines (line :: headLinesLoop l (data + 1) s') info).run m
        unfold httpParseLines
        rw [Access.run_bind, Access.run_bind]
        congr 1
        funext r
        exact ih

/-- `http_parse_head(data, data_len, 0, info, 0)` for the pointer `data`. -/
def httpParseHead (dataLen : Nat) (info : Http) : Packet.Read Http := do
  let info := httpInit info
  let info := info.withInt fun i => { i with headerLen := i.headerLen + dataLen }
  let data ← Access.slice 0 dataLen
  let info ← httpParseHeadLoop data 0 {} info
  pure (httpSetState info .head)

end WafProxy
