import WafProxy.Http.Basic

/-
  The argument table and the argument parser — http_arg.c

  `arg->cur` is the only item `http_append_arg` is ever given, and a NULL item
  is dereferenced. The parser collects a stretch (`tmp_data`, `tmp_len`) and
  appends it when it ends; a second `=` lengthens the stretch without starting
  one, so that the stretch stored in the end reaches as many bytes further.

  Correspondence (C ↔ Lean):
    `http_get_empty_arg`                    ↔ `httpGetEmptyArg`
    `http_decode_arg`                       ↔ `HttpArg.decode`
    `http_append_arg`                       ↔ `httpAppendArg`
    the locals of `_http_parse_args`        ↔ `ArgScan`
    the `switch`, the loop, the function    ↔ `httpParseArgsByte`, `httpParseArgsLoop`,
                                              `httpParseArgs`
-/

namespace WafProxy
open Lib

/-! ## The table -/

namespace HttpArgCtrl

/-- The item `cur` points to is changed. -/
def onCur (a : HttpArgCtrl) (f : HttpArg → HttpArg) : HttpArgCtrl :=
  match a.cur with
  | some i => { a with arg := a.arg.modify i f }
  | none => a

/-- `*arg->cur`. -/
def item (a : HttpArgCtrl) : Option HttpArg := a.cur.bind fun i => a.arg[i]?

end HttpArgCtrl

/-- `arg->cur = http_get_empty_arg(info)`: NULL when the table is full. -/
def httpGetEmptyArg (a : HttpArgCtrl) : HttpArgCtrl :=
  if a.maxNum ≤ a.arg.length then { a with cur := none }
  else { a with cur := some a.arg.length, arg := a.arg ++ [{}] }

/-- A decoded text replaces a string when it is shorter and not empty. -/
def XStr.decode (flag : DecodeFlag) (x : XStr) : XStr :=
  let buf := httpDecodeString DECODE_BUF (x.p.getD []) flag
  if 0 < buf.length ∧ buf.length < x.len then { p := some buf, nul := buf.length } else x

def HttpArg.decode (item : HttpArg) : HttpArg :=
  if item.decodeFlag.needDecode then
    { item with
      name := item.name.decode item.decodeFlag
      value := item.value.decode item.decodeFlag }
  else item

/-- `http_append_str` to the name or to the value, by `arg_flag`. -/
def HttpArg.append (item : HttpArg) (value : List Byte) : Option HttpArg :=
  if item.argFlag then (item.value.append value).map fun v => { item with value := v }
  else (item.name.append value).map fun n => { item with name := n }

/-- `http_append_arg(value, len, info, arg->cur)`. The condition in front of
the decoding starts with `1 |`, so the decoding always runs. -/
def httpAppendArg (value : List Byte) (a : HttpArgCtrl) : Option HttpArgCtrl :=
  if value = [] then some a
  else
    match a.item with
    | none => none
    | some item => (item.append value).map fun item' => a.onCur fun _ => item'.decode

/-! ## The parser -/

/-- The locals of `_http_parse_args`, with what it writes through pointers. -/
structure ArgScan where
  tmpData : Option Int := none
  tmpLen : Nat := 0
  arg : HttpArgCtrl
  httpInt : HttpInt
  deriving DecidableEq, Repr

namespace ArgScan

/-- `http_append_arg(tmp_data, tmp_len, info, arg->cur)`. -/
def appendTmp (s : ArgScan) : Packet.Read ArgScan :=
  match s.tmpData with
  | none => pure s
  | some data => do
    let value ← Access.slice data s.tmpLen
    let arg ← Access.ofOption (httpAppendArg value s.arg)
    pure { s with arg := arg }

/-- `http_append_arg("\0", 1, info, arg->cur)`. -/
def appendNul (s : ArgScan) : Packet.Read ArgScan := do
  let arg ← Access.ofOption (httpAppendArg [0] s.arg)
  pure { s with arg := arg }

/-- The byte belongs to the stretch, and starts one when there is none. -/
def extend (s : ArgScan) (inUrl : Bool) (begin : Int) : ArgScan :=
  { s with
    tmpData := some (s.tmpData.getD begin)
    tmpLen := s.tmpLen + 1
    httpInt := if inUrl then { s.httpInt with urlArgLen := s.httpInt.urlArgLen + 1 } else s.httpInt }

def onCur (s : ArgScan) (f : HttpArg → HttpArg) : ArgScan := { s with arg := s.arg.onCur f }

end ArgScan

/-- The `switch` of `_http_parse_args` on the byte at `begin`. After an `&` that
finds no empty slot `cur` is NULL and the function returns -1. -/
def httpParseArgsByte (inUrl : Bool) (begin : Int) (c : Byte) (s : ArgScan) :
    Packet.Read ArgScan :=
  if c = ch '%' ∨ c = ch '+' then
    pure ((s.onCur fun i => { i with decodeFlag := { i.decodeFlag with url := true } }).extend
      inUrl begin)
  else if c = ch '\\' then
    pure ((s.onCur fun i => { i with decodeFlag := { i.decodeFlag with escape := true } }).extend
      inUrl begin)
  else if c = ch '&' then do
    let s ← s.appendTmp
    let httpInt :=
      if inUrl then { s.httpInt with urlArgCnt := s.httpInt.urlArgCnt + 1 } else s.httpInt
    let arg := httpGetEmptyArg (s.arg.onCur fun i => { i with completeFlag := true })
    pure { tmpData := none, tmpLen := 0, arg := arg.onCur fun i => { i with argFlag := false },
           httpInt := httpInt }
  else if c = ch '=' then
    if (s.arg.item.map HttpArg.argFlag) ≠ some true then do
      let s ← s.appendTmp
      let s ← { s with tmpData := none, tmpLen := 0 }.appendNul
      pure (s.onCur fun i => { i with argFlag := true })
    else pure { s with tmpLen := s.tmpLen + 1 }
  else pure (s.extend inUrl begin)

/-- The loop; `begin` is the address of the first of the remaining bytes. -/
def httpParseArgsLoop (inUrl : Bool) : List Byte → Int → ArgScan → Packet.Read ArgScan
  | [], _, s => pure s
  | c :: data, begin, s => do
    let s ← httpParseArgsByte inUrl begin c s
    if s.arg.cur = none then pure s else httpParseArgsLoop inUrl data (begin + 1) s

/-- What follows the loop. -/
def httpParseArgsEnd (inUrl : Bool) (state : HttpState) (s : ArgScan) : Packet.Read ArgScan := do
  let s ← s.appendTmp
  if inUrl then
    let s ← s.appendNul
    pure { s.onCur (fun i => { i with completeFlag := true }) with
      httpInt := { s.httpInt with urlArgCnt := s.httpInt.urlArgCnt + 1 } }
  else if state = .none then
    let s ← s.appendNul
    pure (s.onCur fun i => { i with completeFlag := true })
  else pure s

/-- `_http_parse_args(info, data, data_len, in_url)` for the pointer `data`. -/
def httpParseArgs (info : Http) (dataLen : Int) (inUrl : Bool) : Packet.Read Http :=
  let arg := if info.arg.cur = none then httpGetEmptyArg info.arg else info.arg
  if arg.cur = none then pure { info with arg := arg }
  else do
    let data ← Access.slice 0 dataLen.toNat
    let s ← httpParseArgsLoop inUrl data 0 { arg := arg, httpInt := info.httpInt }
    if s.arg.cur = none then pure { info with arg := s.arg, httpInt := s.httpInt }
    else do
      let s ← httpParseArgsEnd inUrl info.logic.state s
      pure { info with arg := s.arg, httpInt := s.httpInt }

end WafProxy
