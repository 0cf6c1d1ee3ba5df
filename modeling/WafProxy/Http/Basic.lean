import WafProxy.Http.Types

/-
  Strings of the parser — http_basic.c

  A function that is given a pointer into the packet is an `Access`: it reads
  the packet's memory at that address, and a read outside of it is undefined.
  A length is an `Int`, since differences of two pointers are passed on
  unchecked.

  Correspondence (C ↔ Lean):
    `http_char2num`, `http_clean_str_cmp`     ↔ `httpChar2num`, `httpCleanStrCmp`
    `strlstrip`, `strlstr`                    ↔ `strlstrip`, `strlstr`
    `strlstr` on `cache_buf`                  ↔ `strlstrText`
    `http_set_str`, `http_append_str`         ↔ `httpSetStr`, `httpAppendStr`
-/

namespace WafProxy
open Lib

/-- Reading the packet. -/
abbrev Packet.Read := Access Byte

def httpChar2num (c : Byte) : Nat :=
  if islower c then (c - ch 'a').toNat
  else if isupper c then (c - ch 'A').toNat
  else 26

/-- `http_clean_str_cmp(dst, dst_len, src, strlen(src)) == 0`. The byte behind
the match is read too. -/
def httpCleanStrCmp (dst dstLen : Int) (src : List Byte) : Packet.Read Bool :=
  if dstLen < src.length then pure false
  else do
    if ← strncasecmpEq dst src then
      let c ← Access.read (dst + src.length)
      pure (c = ch ' ' || c = ch ':' || c = ch '\r' || c = ch '\t' || c = 0)
    else pure false

/-! ## `strlstrip` and `strlstr` -/

/-- What `strlstrip` takes off: white space and colons. -/
def stripped (c : Byte) : Bool := isspace c || c = ch ':'

/-- The first loop of `strlstrip`, at most `n` bytes on. -/
def stripFront : Nat → Int → Packet.Read Int
  | 0, p => pure p
  | n + 1, p => do
    let c ← Access.read p
    if stripped c then stripFront n (p + 1) else pure p

/-- The second loop, at most `n` bytes back. -/
def stripBack : Nat → Int → Packet.Read Int
  | 0, p => pure p
  | n + 1, p => do
    let c ← Access.read (p - 1)
    if stripped c then stripBack n (p - 1) else pure p

/-- `strlstrip(&begin, &end)`: the two pointers it leaves. -/
def strlstrip (begin stop : Int) : Packet.Read (Int × Int) := do
  let begin ← stripFront (stop - begin).toNat begin
  let stop ← stripBack (stop - begin).toNat stop
  pure (begin, stop)

def strlstrLoop (pattern : List Byte) : Nat → Int → Packet.Read (Option Int)
  | 0, _ => pure none
  | n + 1, begin => do
    let l ← Access.slice begin pattern.length
    if l = pattern then pure (some begin) else strlstrLoop pattern n (begin + 1)

/-- `strlstr`. It compares before it looks at its bound: once also when `slen`
is smaller than `plen`. -/
def strlstr (src slen : Int) (pattern : List Byte) : Packet.Read (Option Int) :=
  strlstrLoop pattern (max 1 (slen - pattern.length + 1)).toNat src

/-- `strlstr` on a text in `cache_buf`: what stands from the match on. A
comparison that runs past the text meets its terminating NUL. -/
def strlstrText (pattern : List Byte) : List Byte → Option (List Byte)
  | [] => none
  | c :: l => if pattern.isPrefixOf (c :: l) then some (c :: l) else strlstrText pattern l

/-! ## `http_set_str` and `http_append_str` -/

/-- `sizeof(buf)` of `http_set_str` and of `http_decode_arg`. -/
def DECODE_BUF : Nat := 8192

/-- What `http_set_str` makes of a text: decoded where a flag asks for it and
something is left. The NUL is written at the length before decoding. -/
def XStr.ofText (tmpFlag : DecodeFlag) (data : List Byte) : XStr :=
  let buf := if tmpFlag.needDecode then httpDecodeString DECODE_BUF data tmpFlag else []
  let mydata := if buf ≠ [] then buf else data
  { p := some (mydata.set data.length 0), nul := data.length }

def httpSetStr (tmpFlag : DecodeFlag) (x : XStr) (data len : Int) : Packet.Read XStr :=
  if len ≤ 0 then pure x
  else do
    let text ← Access.slice data len.toNat
    pure (XStr.ofText tmpFlag text)

/-- The `max_len` `http_append_str` allocates with. -/
def APPEND_MAX : Nat := 4096

/-- `http_append_str` on a text. The first text is stored whole; one longer
than the buffer overruns it. -/
def XStr.append (x : XStr) (data : List Byte) : Option XStr :=
  match x.p with
  | none => if APPEND_MAX < data.length then none else some { p := some data, nul := data.length }
  | some bytes =>
    if bytes.length + data.length < APPEND_MAX then
      some { p := some (bytes ++ data), nul := bytes.length + data.length }
    else some x

def httpAppendStr (x : XStr) (data len : Int) : Packet.Read XStr :=
  if len < 0 then Access.fail
  else do
    let text ← Access.slice data len.toNat
    Access.ofOption (x.append text)

/-- `len` is lowered by `k`, to 0 at most; a NUL is written only behind what is
left. -/
def XStr.cut (x : XStr) (k : Nat) : XStr :=
  { p := x.p.map (·.take (x.len - k)), nul := if x.len - k = 0 then x.nul else x.len - k }

end WafProxy
