import WafProxy.Http.Decode

/-
  The parser's state — the structures of http.h

  `http_t` is cut into the parts its accessor functions return. A flag that is
  only ever 0 or 1 is a `Bool`, an enumeration is an inductive type whose first
  constructor is the value 0, and a pointer into one of the two tables is the
  index it points to. A table holds the slots that have been handed out, so
  `num` is its length; every other slot is still zero. The default of every
  field is 0, so `{}` is a zeroed `http_t`.

  Correspondence (C ↔ Lean):
    `local_t`, `logic_t`, `http_int_t`      ↔ `HttpLocal`, `HttpLogic`, `HttpInt`
    `x_str_t`, `http_str_t`                 ↔ `XStr`, `HttpStr`
    `http_arg_t`, `http_arg_ctrl_t`         ↔ `HttpArg`, `HttpArgCtrl`
    `http_file_t`, `http_file_ctrl_t`       ↔ `HttpFile`, `HttpFileCtrl`
    `http_t`                                ↔ `Http`
    `cache_buf[0..cache_buf_len)`           ↔ `cacheBuf`
    `arg.cur`, `file.cur`                   ↔ `cur`

  Requests only: `dir` is 0 and `state_0` is the HTTP state. The fields no
  function of the request path reads are left out (see the list of `local_t`
  from `sub_status` to `tenc_1` and from `subject_flag` on, `state_1`,
  `retcode`, `max_len`, `new_num`, the pool, `init_flag`, `ssn`).
-/

namespace WafProxy
open Lib

/-! ## Enumerations -/

/-- `HTTP_STATE_…`. -/
inductive HttpState where
  | init
  | head
  | body
  | none
  | error
  deriving DecidableEq, Repr

/-- `HTTP_METHOD_…`; the first is `HTTP_METHOD_NONE`. -/
inductive HttpMethod where
  | none
  | na
  | get
  | post
  | head
  | option
  | put
  | connect
  | delete
  | trace
  | webdav
  deriving DecidableEq, Repr

/-- `HTTP_TYPE_…`. -/
inductive HttpType where
  | na
  | mr
  | soap
  | xml
  | multiform
  | html
  | formenc
  | plain
  | amf
  | css
  | js
  | mixXml
  | commonJs
  | textJs
  | rpc
  | rssXml
  | xhtmlXml
  | message
  deriving DecidableEq, Repr

/-- `HTTP_FORM_BEGIN`, `HTTP_FORM_HEADER`, `HTTP_FORM_BODY`. -/
inductive FormStatus where
  | begin
  | header
  | body
  deriving DecidableEq, Repr

/-- `HTTP_FORM_ARG`, `HTTP_FORM_FILE`. -/
inductive FormFlag where
  | arg
  | file
  deriving DecidableEq, Repr

/-- `HTTP_CHUNK_SIZE`, `HTTP_CHUNK_FIN`. -/
inductive ChunkFlag where
  | size
  | fin
  deriving DecidableEq, Repr

/-- `LABEL_STATE_…`; `unset` is the 0 of a zeroed `http_t`. -/
inductive LabelState where
  | unset
  | begin
  | run
  | null
  deriving DecidableEq, Repr

/-! ## Strings -/

/-- `x_str_t`. `p` is NULL or points to `bytes = p[0..len)`; `nul` is the index
of the NUL written behind them. -/
structure XStr where
  p : Option (List Byte) := none
  nul : Nat := 0
  deriving DecidableEq, Repr

namespace XStr

def len (x : XStr) : Nat := (x.p.getD []).length

/-- What `%s` prints: the bytes up to the first NUL, `(null)` for NULL. A text
whose NUL was written behind its end is followed by bytes nobody wrote. -/
def cString (x : XStr) : Option (List Byte) :=
  match x.p with
  | none => some (str "(null)")
  | some bytes =>
    if 0 ∈ bytes ∨ x.nul = bytes.length then some (bytes.takeWhile (· ≠ 0)) else none

end XStr

/-- `http_str_t`. -/
structure HttpStr where
  rawUrl : XStr := {}
  url : XStr := {}
  urlAndArg : XStr := {}
  host : XStr := {}
  agent : XStr := {}
  auth : XStr := {}
  authUser : XStr := {}
  authPass : XStr := {}
  reference : XStr := {}
  location : XStr := {}
  contentType : XStr := {}
  boundary : XStr := {}
  cookie : XStr := {}
  deriving DecidableEq, Repr

/-! ## The tables -/

/-- `http_arg_t`. -/
structure HttpArg where
  name : XStr := {}
  value : XStr := {}
  completeFlag : Bool := false
  argFlag : Bool := false
  decodeFlag : DecodeFlag := {}
  deriving DecidableEq, Repr

/-- `http_arg_ctrl_t`. -/
structure HttpArgCtrl where
  cur : Option Nat := none
  maxNum : Nat := 0
  arg : List HttpArg := []
  deriving DecidableEq, Repr

/-- `http_file_t`. -/
structure HttpFile where
  name : XStr := {}
  value : XStr := {}
  completeFlag : Bool := false
  rawFileLen : Int := 0
  deriving DecidableEq, Repr

/-- `http_file_ctrl_t`. -/
structure HttpFileCtrl where
  cur : Option Nat := none
  file : List HttpFile := []
  deriving DecidableEq, Repr

/-! ## `http_t` -/

/-- `local_t`. -/
structure HttpLocal where
  unRecvContentLen : Int := 0
  unRecvChunkedLen : Int := 0
  chunkFlag : ChunkFlag := .size
  cacheBuf : List Byte := []
  state : Nat := 0
  formStatus : FormStatus := .begin
  formFlag : FormFlag := .arg
  myformLabelNum : Nat := 0
  myformLabelState : LabelState := .unset
  nullFile : Bool := false
  formHeaderState : Nat := 0
  boundaryCnt : Nat := 0
  deriving DecidableEq, Repr

/-- `logic_t`. -/
structure HttpLogic where
  state : HttpState := .init
  method : HttpMethod := .none
  contentType : HttpType := .na
  isChunked : Bool := false
  isClosed : Bool := false
  deriving DecidableEq, Repr

/-- `http_int_t`. -/
structure HttpInt where
  headerLen : Int := 0
  contentLen : Int := 0
  maxHeaderLineLen : Int := 0
  bodyLen : Int := 0
  urlArgLen : Int := 0
  urlArgCnt : Int := 0
  headerLineNum : Int := 0
  headerCookieNum : Int := 0
  headerRangeNum : Int := 0
  deriving DecidableEq, Repr

/-- `http_t`. -/
structure Http where
  loc : HttpLocal := {}
  logic : HttpLogic := {}
  httpInt : HttpInt := {}
  str : HttpStr := {}
  arg : HttpArgCtrl := {}
  file : HttpFileCtrl := {}
  tmpFlag : DecodeFlag := {}
  deriving DecidableEq, Repr

/-- A zeroed `http_t`. -/
def Http.zero : Http := {}

/-- `http_set_state`. -/
def httpSetState (info : Http) (state : HttpState) : Http :=
  { info with logic := { info.logic with state := state } }

end WafProxy
