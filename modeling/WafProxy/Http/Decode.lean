import WafProxy.Lib.CString
import WafProxy.Packet

/-
  The decoders — http_decode.c and base64.c

  `_http_string_decode` fills its output from the last character of the input
  to the first and is followed by `_http_reverse_string`, so the output buffer
  read from its end is the decoded text in reading order. That is how it is
  kept here: the head of the list is `out_string[out_len - 1]`, and the
  reversal is the identity. The two in-place decoders write behind what they
  read, so they are plain functions of the text; behind `input_len` stands the
  NUL their caller wrote there.

  Correspondence (C ↔ Lean):
    `_http_character_to_digit`              ↔ `httpCharacterToDigit`
    `_http_percent_xx_decode_backward`, …   ↔ `httpPercentXxDecodeBackward`, …
    `_http_string_decode`                   ↔ `httpStringDecode`
    `_http_html_entities_decode_inplace`    ↔ `httpHtmlEntitiesDecode`
    `_http_escape_decode_inplace`           ↔ `httpEscapeDecode`
    `http_decode_string`                    ↔ `httpDecodeString`
    `b64_decode`                            ↔ `b64Decode`
-/

namespace WafProxy
open Lib

/-- The bits of `tmp_flag` and of `decode_flag`. -/
structure DecodeFlag where
  url : Bool := false
  html : Bool := false
  escape : Bool := false
  deriving DecidableEq, Repr

/-- `GET_NEED_DECODE`. -/
def DecodeFlag.needDecode (f : DecodeFlag) : Bool := f.url || f.html || f.escape

/-! ## Percent decoding -/

/-- A digit, or -1. Bit 5 is set first, so the bytes 16 to 25 count as digits. -/
def httpCharacterToDigit (c : Byte) : Int :=
  let tmp := c ||| 32
  if ch 'a' ≤ tmp ∧ tmp ≤ ch 'f' then (tmp.toNat : Int) - 87
  else if ch '0' ≤ tmp ∧ tmp ≤ ch '9' then (tmp.toNat : Int) - 48
  else -1

/-- On hexadecimal digits the code agrees with `strtol`. -/
theorem httpCharacterToDigit_hex : ∀ b, isxdigit b = true → httpCharacterToDigit b = (digitValue b).getD 0 := by
  apply forall_byte
  decide +kernel

/-- The letters behind a `%` are no digits. -/
theorem httpCharacterToDigit_letter :
    ∀ a, tolower a = ch 'x' ∨ tolower a = ch 'u' → httpCharacterToDigit a < 0 := by
  apply forall_byte
  decide +kernel

/-- Two digits to one byte, `00` excepted. -/
def httpPercentXxDecodeBackward : List Byte → Option (List Byte)
  | a :: b :: string =>
    let digit1 := httpCharacterToDigit a
    let digit2 := httpCharacterToDigit b
    if 0 ≤ digit1 ∧ 0 ≤ digit2 ∧ ¬ (digit1 = 0 ∧ digit2 = 0) then
      some (UInt8.ofInt (digit1 * 16 + digit2) :: string)
    else none
  | _ => none

/-- The full-width form: what stands there is not checked to be digits. -/
def httpPercentFFxxDecodeBackward : List Byte → Option (List Byte)
  | a :: b :: string =>
    some (UInt8.ofInt ((httpCharacterToDigit a + 2) * 16 + httpCharacterToDigit b) :: string)
  | _ => none

/-- One step of undoing an encoded percent sign. -/
def httpPercentCombine (string : List Byte) : Option (List Byte) :=
  if startsWithCase string (str "%u0025") then some (ch '%' :: string.drop 6)
  else if startsWithCase string (str "%x25") then some (ch '%' :: string.drop 4)
  else if startsWithCase string (str "%25") then some (ch '%' :: string.drop 3)
  else none

def httpPercentCombineLoop : Nat → List Byte → List Byte
  | 0, string => string
  | n + 1, string =>
    match httpPercentCombine string with
    | some string' => httpPercentCombineLoop n string'
    | none => string

/-- `NO_PERCENT`, `PERCENT_XX`, `PERCENT_U00XX`, `PERCENT_XYY`, `PERCENT_UFFXX`. -/
inductive PercentType where
  | noPercent
  | xx
  | u00xx
  | xyy
  | uffxx
  deriving DecidableEq, Repr

/-- `_http_string_decode_type_backward`; `tmpLen` is -1 when all levels are
decoded. With three characters the two `u` comparisons start in front of the
buffer; whatever stands there, nothing is decoded. -/
def httpStringDecodeTypeBackward (string : List Byte) (tmpLen : Int) :
    Option PercentType × List Byte :=
  let string := if tmpLen = -1 then httpPercentCombineLoop string.length string else string
  let len := string.length
  if len ≤ 2 then (some .noPercent, string)
  else if (string[1]? = some (ch 'x') ∨ string[1]? = some (ch 'X')) ∧ (3 ≤ tmpLen ∨ tmpLen = -1) then
    (if len ≤ 3 then some .noPercent else some .xyy, string)
  else if startsWithCase string (str "%u00") ∧ (5 ≤ tmpLen ∨ tmpLen = -1) then
    (if len ≤ 5 then some .noPercent else some .u00xx, string)
  else if startsWithCase string (str "%uff") ∧ (5 ≤ tmpLen ∨ tmpLen = -1) then
    (if len ≤ 5 then some .noPercent else some .uffxx, string)
  else if 2 ≤ tmpLen ∨ tmpLen = -1 then (some .xx, string)
  else (none, string)

def httpStringDecodeBackward (string : List Byte) (tmpLen : Int) : List Byte :=
  match httpStringDecodeTypeBackward string tmpLen with
  | (some .xx, string) => (httpPercentXxDecodeBackward (string.drop 1)).getD string
  | (some .u00xx, string) => (httpPercentXxDecodeBackward (string.drop 4)).getD string
  | (some .uffxx, string) => (httpPercentFFxxDecodeBackward (string.drop 4)).getD string
  | (some .xyy, string) => (httpPercentXxDecodeBackward (string.drop 2)).getD string
  | (_, string) => string

/-- One turn of the loop of `_http_string_decode`: the output and `tmp_len`,
the number of characters since the last `%`, a `+` not counted. -/
def httpStringDecodeStep (cic : Bool) (c : Byte) : List Byte × Int → List Byte × Int
  | (out, tmpLen) =>
    if c = ch '%' then
      (httpStringDecodeBackward (c :: out) (if cic then -1 else tmpLen), if cic then tmpLen else 0)
    else if c = ch '+' then (ch ' ' :: out, tmpLen)
    else (c :: out, if cic then tmpLen else tmpLen + 1)

/-- `_http_string_decode` and the reversal behind it; `cic` is `CIC_DECODE`. -/
def httpStringDecode (inString : List Byte) (cic : Bool) : List Byte :=
  (inString.foldr (httpStringDecodeStep cic) ([], 0)).1

example : httpStringDecode (str "a%2541%u0042") false = str "a%41B" := by decide

/-! ## HTML entities -/

/-- What stands behind an `&`: a byte and the text behind the reference, or the
number of characters to copy from the `&` on. -/
def httpHtmlReference (text : List Byte) : (Byte × List Byte) ⊕ Nat :=
  let skipSemicolon (l : List Byte) := if l.head? = some (ch ';') then l.tail else l
  match text with
  | [] => .inr 1
  | c :: input =>
    if c = ch '#' then
      match input with
      | [] => .inr 2
      | x :: hex =>
        if x = ch 'x' ∨ x = ch 'X' then
          if hex.takeWhile isxdigit = [] then .inr 3
          else .inl (UInt8.ofInt (strtol hex 16), skipSemicolon (hex.dropWhile isxdigit))
        else if input.takeWhile isdigit = [] then .inr 2
        else .inl (UInt8.ofInt (strtol input 10), skipSemicolon (input.dropWhile isdigit))
    else
      let rest := skipSemicolon (text.dropWhile isalnum)
      if text.takeWhile isalnum = [] then .inr 1
      else if startsWithCase text (str "quot") then .inl (ch '"', rest)
      else if startsWithCase text (str "amp") then .inl (ch '&', rest)
      else if startsWithCase text (str "lt") then .inl (ch '<', rest)
      else if startsWithCase text (str "gt") then .inl (ch '>', rest)
      else if startsWithCase text (str "nbsp") then .inl (32, rest)
      else .inr ((text.takeWhile isalnum).length + 1)

def httpHtmlEntitiesLoop : Nat → List Byte → List Byte
  | 0, _ => []
  | _ + 1, [] => []
  | n + 1, c :: input =>
    if c = ch '&' ∧ input ≠ [] then
      match httpHtmlReference input with
      | .inl (b, rest) => b :: httpHtmlEntitiesLoop n rest
      | .inr copy =>
        (c :: input).take copy ++ httpHtmlEntitiesLoop n ((c :: input).drop copy)
    else c :: httpHtmlEntitiesLoop n input

/-- `_http_html_entities_decode_inplace`. Every turn consumes a character. -/
def httpHtmlEntitiesDecode (input : List Byte) : List Byte :=
  httpHtmlEntitiesLoop input.length input

example : httpHtmlEntitiesDecode (str "&lt;&#65;&#x42&x") = str "<AB&x" := by decide

/-! ## Backslash escapes -/

def x2c (a b : Byte) : Byte :=
  let digit (c : Byte) := if ch 'A' ≤ c then (c &&& 0xdf) - ch 'A' + 10 else c - ch '0'
  digit a * 16 + digit b

def isodigit (b : Byte) : Bool := ch '0' ≤ b && b ≤ ch '7'

/-- The `switch` of `_http_escape_decode_inplace`. -/
def escapeChar (c : Byte) : Option Byte :=
  if c = ch 'a' then some 7
  else if c = ch 'b' then some 8
  else if c = ch 'f' then some 12
  else if c = ch 'n' then some 10
  else if c = ch 'r' then some 13
  else if c = ch 't' then some 9
  else if c = ch 'v' then some 11
  else if c = ch '\\' ∨ c = ch '?' ∨ c = ch '\'' ∨ c = ch '"' then some c
  else none

def httpEscapeLoop : Nat → List Byte → List Byte
  | 0, _ => []
  | _ + 1, [] => []
  | _ + 1, [c] => [c]
  | n + 1, c :: d :: input =>
    if c ≠ ch '\\' then c :: httpEscapeLoop n (d :: input)
    else
      match escapeChar d with
      | some e => e :: httpEscapeLoop n input
      | none =>
        if d = ch 'x' ∨ d = ch 'X' then
          match input with
          | h :: k :: rest =>
            if isxdigit h ∧ isxdigit k then x2c h k :: httpEscapeLoop n rest
            else c :: d :: httpEscapeLoop n input
          | _ => c :: d :: httpEscapeLoop n input
        else if isodigit d then
          let buf := ((d :: input).take 3).takeWhile isodigit
          UInt8.ofInt (strtol buf 8) :: httpEscapeLoop n ((d :: input).drop buf.length)
        else c :: d :: httpEscapeLoop n input

/-- `_http_escape_decode_inplace`. Every turn consumes a character. -/
def httpEscapeDecode (input : List Byte) : List Byte := httpEscapeLoop input.length input

/-! ## `http_decode_string` -/

def MAX_DECODE_LEN : Nat := 16384

/-- One turn of the loop of `http_decode_string`: `tmp_buf`, and whether
another turn follows. -/
def httpDecodeRound (flag : DecodeFlag) (maxUrlOutLen inStringLen : Nat) (tmp : List Byte) :
    List Byte × Bool :=
  let tmp1 := if flag.html then httpHtmlEntitiesDecode tmp else tmp
  let tmp2 := if flag.escape then httpEscapeDecode tmp1 else tmp1
  let again := tmp1.length ≠ tmp.length ∨ tmp2.length ≠ tmp1.length
  if flag.url then
    let out := if 2 < inStringLen then httpStringDecode tmp2 false else tmp2.take (maxUrlOutLen - 1)
    (out.take (MAX_DECODE_LEN - 1), true)
  else (tmp2, again)

def httpDecodeLoop (flag : DecodeFlag) (maxUrlOutLen inStringLen : Nat) :
    Nat → List Byte → List Byte
  | 0, tmp => tmp
  | cnt + 1, tmp =>
    match httpDecodeRound flag maxUrlOutLen inStringLen tmp with
    | (tmp', true) => httpDecodeLoop flag maxUrlOutLen inStringLen cnt tmp'
    | (tmp', false) => tmp'

/-- The decoded text. The returns 0 and -1 are the empty list: the callers only
test for a positive length. -/
def httpDecodeString (maxUrlOutLen : Nat) (inString : List Byte) (flag : DecodeFlag) : List Byte :=
  if maxUrlOutLen < inString.length ∨ MAX_DECODE_LEN < inString.length then []
  else
    (httpDecodeLoop flag maxUrlOutLen inString.length 16 inString).take (maxUrlOutLen - 1)

/-! ## base64.c -/

/-- `Base64Values`; its indices are 0 to 127. -/
def base64Value (c : Byte) : Option Int :=
  if 128 ≤ c then none
  else if isupper c then some ((c.toNat : Int) - 65)
  else if islower c then some ((c.toNat : Int) - 71)
  else if isdigit c then some ((c.toNat : Int) + 4)
  else if c = ch '+' then some 62
  else if c = ch '/' then some 63
  else if c = ch '=' then some (-3)
  else if isspace c then some (-2)
  else some (-1)

/-- What `b64_decode` does with the text behind the first pad character. -/
def b64Pad (state : Nat) (tarindex : Nat) (src target : List Byte) : Int :=
  let finish (l : List Byte) : Int :=
    if l.all isspace ∧ target.getD tarindex 0 = 0 then tarindex else -1
  match state with
  | 2 =>
    match src.dropWhile isspace with
    | c :: rest => if c = ch '=' then finish rest else -1
    | [] => -1
  | 3 => finish src
  | _ => -1

/-- The loop of `b64_decode`: the return value and the target buffer. `none`
stands for an index behind `Base64Values`. The source is NUL-terminated: `src`
is its text. Source and target may be one buffer, since the target is written
behind what was read. -/
def b64DecodeLoop (targsize : Nat) : List Byte → Nat → Nat → List Byte → Option (Int × List Byte)
  | [], state, tarindex, target => some (if state ≠ 0 then -1 else tarindex, target)
  | c :: src, state, tarindex, target =>
    if isspace c then b64DecodeLoop targsize src state tarindex target
    else if c = ch '=' then some (b64Pad state tarindex src target, target)
    else
      match base64Value c with
      | none => none
      | some pos =>
        if pos = -1 then some (-1, target)
        else
          let p := pos.toNat.toUInt8
          let old := target.getD tarindex 0
          match state with
          | 0 =>
            if targsize ≤ tarindex then some (-1, target)
            else b64DecodeLoop targsize src 1 tarindex (target.set tarindex (p <<< 2))
          | 1 =>
            if targsize ≤ tarindex + 1 then some (-1, target)
            else b64DecodeLoop targsize src 2 (tarindex + 1)
              ((target.set tarindex (old ||| p >>> 4)).set (tarindex + 1) ((p &&& 0x0f) <<< 4))
          | 2 =>
            if targsize ≤ tarindex + 1 then some (-1, target)
            else b64DecodeLoop targsize src 3 (tarindex + 1)
              ((target.set tarindex (old ||| p >>> 2)).set (tarindex + 1) ((p &&& 0x03) <<< 6))
          | _ =>
            if targsize ≤ tarindex then some (-1, target)
            else b64DecodeLoop targsize src 0 (tarindex + 1) (target.set tarindex (old ||| p))

def b64Decode (src target : List Byte) (targsize : Nat) : Option (Int × List Byte) :=
  b64DecodeLoop targsize src 0 0 target

example : b64Decode (str "dTpw") (str "dTpw") 4 = some (3, str "u:pw") := by decide

end WafProxy
