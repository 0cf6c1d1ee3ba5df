import WafProxy.Http.Arg

/-
  Header lines — http_header.c and the tables of http_table.c

  A table slot holds a name and its function; the slots of one cell are tried
  in order, a free slot ends the search. The functions that only return 0
  (`parse_ac`, `parse_set`, …) are one constructor each and change nothing.

  Correspondence (C ↔ Lean):
    `http_header[a][b][c]`, `http_methods[a][b]`  ↔ `headerCell`, `methodCell`
    `parse_au`, `parse_cont`, …                   ↔ `parseAu`, `parseCont`, …
    the counting loops of `parse_coo`, `parse_ra` ↔ `countFields`
    `http_get_content_type`, `get_post_boundary`  ↔ `httpGetContentType`, `getPostBoundary`
    `http_parse_content_type`                     ↔ `httpParseContentType`
    `http_match_header_table`                     ↔ `httpMatchHeaderTable`
    `http_myparse_method`, `parse_method`         ↔ `httpMyparseMethod`, `parseMethod`
    `http_parse_line` with `dir == 0`             ↔ `httpParseLine`
-/

namespace WafProxy
open Lib

/-- A string of `http_str_t` is replaced. -/
def Http.withStr (info : Http) (f : HttpStr → HttpStr) : Http := { info with str := f info.str }

def Http.withInt (info : Http) (f : HttpInt → HttpInt) : Http :=
  { info with httpInt := f info.httpInt }

/-! ## Single headers -/

/-- One more than the number of separators found behind `start`; the byte at
`stop` is searched too. -/
def countFields (pattern : List Byte) (stop : Int) : Nat → Int → Int → Packet.Read Int
  | 0, _, cnt => pure cnt
  | n + 1, start, cnt =>
    if start < stop then do
      match ← strlstr (start + 1) (stop - start) pattern with
      | some start' => countFields pattern stop n start' (cnt + 1)
      | none => pure cnt
    else pure cnt

def parseTr (info : Http) : Http := { info with logic := { info.logic with isChunked := true } }

def parseUs (data dataLen : Int) (info : Http) : Packet.Read Http := do
  let x ← httpSetStr info.tmpFlag info.str.agent data dataLen
  pure (info.withStr fun s => { s with agent := x })

def parseHo (data dataLen : Int) (info : Http) : Packet.Read Http := do
  let x ← httpSetStr info.tmpFlag info.str.host data dataLen
  pure (info.withStr fun s => { s with host := x })

def parseLo (data dataLen : Int) (info : Http) : Packet.Read Http := do
  let x ← httpSetStr info.tmpFlag info.str.location data dataLen
  pure (info.withStr fun s => { s with location := x })

def parseRe (data dataLen : Int) (info : Http) : Packet.Read Http := do
  let x ← httpSetStr info.tmpFlag info.str.reference data dataLen
  pure (info.withStr fun s => { s with reference := x })

def parseCoo (data dataLen : Int) (info : Http) : Packet.Read Http := do
  let x ← httpAppendStr info.str.cookie data dataLen
  let cnt ← countFields (str ";") (data + dataLen) dataLen.toNat data 1
  pure ((info.withStr fun s => { s with cookie := x }).withInt fun i =>
    { i with headerCookieNum := cnt })

def parseRa (data dataLen : Int) (info : Http) : Packet.Read Http := do
  let cnt ← countFields (str ",") (data + dataLen) dataLen.toNat data 1
  pure (info.withInt fun i => { i with headerRangeNum := cnt })

/-- `parse_conn` on a request: `close` is looked at on responses only. -/
def parseConn (data : Int) (info : Http) : Packet.Read Http := do
  if ← strncasecmpEq data (str "close") then pure info
  else pure { info with logic := { info.logic with isClosed := false } }

/-- `parse_conl`, whose `buf` has 24 bytes. -/
def parseConl (data dataLen : Int) (info : Http) : Packet.Read Http :=
  if dataLen < 0 ∨ 23 < dataLen then pure info
  else do
    let buf ← Access.slice data dataLen.toNat
    pure (info.withInt fun i => { i with contentLen := toInt32 (strtol buf 10) })

/-! ## `Authorization` -/

/-- `strlstrip` on a text of its own, here the decoded credentials. -/
def stripText (l : List Byte) : List Byte :=
  ((l.dropWhile stripped).reverse.dropWhile stripped).reverse

/-- What `parse_au` does behind `Basic`, on the text `auth.p` that
`http_set_str` has just stored. -/
def parseBasic (tmpFlag : DecodeFlag) (s : HttpStr) : Option HttpStr := do
  let src ← s.auth.cString
  let bytes ← s.auth.p
  let (flag, target) ← b64Decode src bytes s.auth.len
  let auth : XStr :=
    if 0 < flag then { p := some (target.take flag.toNat), nul := flag.toNat }
    else { s.auth with p := some target }
  let text := stripText (auth.p.getD [])
  let user := text.takeWhile (· ≠ ch ':')
  let pass := text.drop (user.length + 1)
  let set (x : XStr) (l : List Byte) := if l = [] then x else XStr.ofText tmpFlag l
  if user.length < text.length then
    pure { s with auth := auth, authUser := set s.authUser user, authPass := set s.authPass pass }
  else pure { s with auth := auth }

def parseAu (data dataLen : Int) (info : Http) : Packet.Read Http := do
  let digest ← strncasecmpEq data (str "Digest")
  let negotiate ← if digest then pure true else strncasecmpEq data (str "Negotiate")
  let other ← if negotiate then pure true else strncasecmpEq data (str "NTLM")
  if other then
    let x ← httpSetStr info.tmpFlag info.str.auth data dataLen
    pure (info.withStr fun s => { s with auth := x })
  else
    let basic ← strncasecmpEq data (str "Basic")
    if basic then
      let (begin, stop) ← strlstrip (data + 5) (data + dataLen)
      if stop - begin ≤ 0 then pure info
      else
        let x ← httpSetStr info.tmpFlag info.str.auth begin (stop - begin)
        let s ← Access.ofOption (parseBasic info.tmpFlag { info.str with auth := x })
        pure { info with str := s }
    else pure info

/-! ## `Content-Type` -/

/-- `http_content_type_table`. -/
def httpContentTypeTable : List (List Byte × HttpType) :=
  [(str "text/xml", .xml), (str "application/xml", .xml), (str "application/rss xml", .rssXml),
   (str "application/soap xml", .soap), (str "application/xhtml xml", .xhtmlXml),
   (str "multipart/related", .mr), (str "multipart/form-data", .multiform),
   (str "text/html", .html), (str "application/x-www-form-urlencoded", .formenc),
   (str "text/plain", .plain), (str "application/x-amf", .amf), (str "text/css", .css),
   (str "application/x-javascript", .js), (str "application/javascript", .commonJs),
   (str "text/javascript", .textJs), (str "multipart/x-mixed-replace", .mixXml),
   (str "message/http", .message), (str "application/rpc", .rpc)]

/-- The first entry that stands at `begin` and is followed by `;`, CR, NUL or a
space. -/
def httpFindContentType (begin stop : Int) : List (List Byte × HttpType) → Packet.Read HttpType
  | [] => pure .na
  | (name, id) :: table =>
    if stop - begin < name.length then httpFindContentType begin stop table
    else do
      if ← strncasecmpEq begin name then
        let c ← Access.read (begin + name.length)
        if c = ch ';' ∨ c = ch '\r' ∨ c = 0 ∨ c = ch ' ' then pure id
        else httpFindContentType begin stop table
      else httpFindContentType begin stop table

def httpGetContentType (begin stop : Int) (info : Http) : Packet.Read Http := do
  let id ← httpFindContentType begin stop httpContentTypeTable
  pure { info with logic := { info.logic with contentType := id } }

/-- The number of dashes at the start of a stretch of at most `n` bytes. -/
def countDashes : Nat → Int → Packet.Read Nat
  | 0, _ => pure 0
  | n + 1, begin => do
    let c ← Access.read begin
    if c ≠ ch '-' then pure 0
    else
      let k ← countDashes n (begin + 1)
      pure (k + 1)

def getPostBoundary (begin stop : Int) (info : Http) : Packet.Read Http := do
  let x ← httpSetStr info.tmpFlag info.str.boundary begin (stop - begin)
  let k ← countDashes (stop - begin).toNat begin
  pure { info.withStr (fun s => { s with boundary := x }) with
    loc := { info.loc with boundaryCnt := info.loc.boundaryCnt + k + 2 } }

/-- `parse_table_parsing`. -/
def parseTableParsing (begin stop : Int) (info : Http) : Packet.Read Http := do
  let boundary ← if stop - begin < 9 then pure false else strncasecmpEq begin (str "boundary=")
  if boundary then getPostBoundary (begin + 9) stop info
  else
    let type ← if stop - begin < 5 then pure false else strncasecmpEq begin (str "type=")
    if type then httpGetContentType (begin + 5) stop info else pure info

/-- Spaces and tabs are skipped up to `stop`; the byte at `stop` is read. -/
def skipBlanks : Nat → Int → Packet.Read Int
  | 0, begin => do
    let _ ← Access.read begin
    pure begin
  | n + 1, begin => do
    let c ← Access.read begin
    if c = ch ' ' ∨ c = ch '\t' then skipBlanks n (begin + 1) else pure begin

/-- The loop of `http_parse_content_type` over what `;` separates. -/
def contentTypeParams (stop : Int) : Nat → Int → Http → Packet.Read Http
  | 0, _, info => pure info
  | n + 1, begin, info =>
    if begin < stop ∧ stop - begin < 4096 then do
      let ptr := (← strlstr begin (stop - begin) (str ";")).getD stop
      let begin ← skipBlanks (ptr - begin).toNat begin
      let info ← parseTableParsing begin ptr info
      contentTypeParams stop n (ptr + 1) info
    else pure info

def httpParseContentType (begin stop : Int) (info : Http) : Packet.Read Http := do
  let ptr := (← strlstr begin (stop - begin) (str ";")).getD stop
  let info ← httpGetContentType begin ptr info
  if info.logic.contentType = .na then pure info
  else contentTypeParams stop (stop - ptr).toNat (ptr + 1) info

def parseCont (data dataLen : Int) (info : Http) : Packet.Read Http := do
  let x ← httpSetStr info.tmpFlag info.str.contentType data dataLen
  httpParseContentType data (data + dataLen) (info.withStr fun s => { s with contentType := x })

/-! ## The header table -/

/-- The functions of the header table. -/
inductive HeaderFn where
  | au | ac | ace | conl | cont | conn | cone | coo | ho | lo | re | ra | set | tr | us
  | xp | xpb | xa | xf
  deriving DecidableEq, Repr

/-- `table[i].func(value, value_len, 0, info)`. -/
def HeaderFn.call (f : HeaderFn) (data dataLen : Int) (info : Http) : Packet.Read Http :=
  match f with
  | .au => parseAu data dataLen info
  | .conl => parseConl data dataLen info
  | .cont => parseCont data dataLen info
  | .conn => parseConn data info
  | .coo => parseCoo data dataLen info
  | .ho => parseHo data dataLen info
  | .lo => parseLo data dataLen info
  | .re => parseRe data dataLen info
  | .ra => parseRa data dataLen info
  | .tr => pure (parseTr info)
  | .us => parseUs data dataLen info
  | .ac | .ace | .cone | .set | .xp | .xpb | .xa | .xf => pure info

/-- What `http_init_header_table` registers, in the order of the slots. -/
def httpHeaderTable : List (List Byte × HeaderFn) :=
  [(str "authorization", .au), (str "Accept", .ac), (str "Accept-Encoding", .ace),
   (str "content-length", .conl), (str "content-type", .cont), (str "Connection", .conn),
   (str "content-Encoding", .cone), (str "cookie", .coo), (str "host", .ho),
   (str "location", .lo), (str "Referer", .re), (str "range", .ra), (str "set-cookie", .set),
   (str "transfer-encoding", .tr), (str "User-Agent", .us), (str "x-pad", .xp),
   (str "x-powered-by", .xpb), (str "X-AspNet-Version", .xa), (str "X-Forwarded-For", .xf)]

/-- The used slots of `http_header[a][b][c]`. -/
def headerCell (a b c : Byte) : List (List Byte × HeaderFn) :=
  httpHeaderTable.filter fun e =>
    (e.1.take 3).map httpChar2num = [httpChar2num a, httpChar2num b, httpChar2num c]

/-- The loop of `http_match_header_table`: the function of the first slot whose
key is the name. -/
def httpFindHeader (name nameLen : Int) :
    List (List Byte × HeaderFn) → Packet.Read (Option HeaderFn)
  | [] => pure none
  | (key, f) :: table =>
    if (key.length : Int) ≠ nameLen then httpFindHeader name nameLen table
    else do
      if ← httpCleanStrCmp name nameLen key then pure (some f)
      else httpFindHeader name nameLen table

/-- The search of `http_match_header_table`. -/
def httpLookupHeader (name nameLen : Int) : Packet.Read (Option HeaderFn) := do
  let a ← Access.read name
  let b ← Access.read (name + 1)
  let c ← Access.read (name + 2)
  httpFindHeader name nameLen (headerCell a b c)

def httpMatchHeaderTable (name nameLen value valueLen : Int) (info : Http) :
    Packet.Read Http := do
  match ← httpLookupHeader name nameLen with
  | some f => f.call value valueLen info
  | none => pure info

/-! ## The request line -/

/-- What `http_init_method_table` registers, in the order of the slots. -/
def httpMethodTable : List (List Byte × HttpMethod) :=
  [(str "connect", .connect), (str "copy", .webdav), (str "DELETE", .delete),
   (str "head", .head), (str "get", .get), (str "lock", .webdav), (str "mkcol", .webdav),
   (str "move", .webdav), (str "OPTIONS", .option), (str "post", .post), (str "put", .put),
   (str "PROPFIND", .webdav), (str "PROPPATCH", .webdav), (str "TRACE", .trace),
   (str "UNLOCK", .webdav)]

/-- The used slots of `http_methods[a][b]`. -/
def methodCell (a b : Byte) : List (List Byte × HttpMethod) :=
  httpMethodTable.filter fun e =>
    (e.1.take 2).map httpChar2num = [httpChar2num a, httpChar2num b]

/-- The loop of `parse_method`: the key of the first slot that matches. -/
def httpFindMethod (begin len : Int) :
    List (List Byte × HttpMethod) → Packet.Read (Option (List Byte))
  | [] => pure none
  | (key, _) :: table =>
    if (key.length : Int) ≠ len then httpFindMethod begin len table
    else do
      if ← httpCleanStrCmp begin len key then pure (some key)
      else httpFindMethod begin len table

def httpMyparseMethod (data len : Int) (info : Http) : Packet.Read Http := do
  let (begin, stop) ← strlstrip data (data + len - 8 - 1)
  let (begin, stop) ← strlstrip begin stop
  let mylen := stop - begin
  let rawUrl ← httpSetStr {} info.str.rawUrl begin mylen
  let urlAndArg ← httpSetStr info.tmpFlag info.str.urlAndArg begin mylen
  let tmp ← strlstr data len (str "?")
  let url ← httpSetStr info.tmpFlag info.str.url begin (match tmp with
    | none => mylen
    | some tmp => tmp - begin)
  let info := info.withStr fun s => { s with rawUrl := rawUrl, urlAndArg := urlAndArg, url := url }
  match tmp with
  | none => pure info
  | some tmp =>
    let info ← Access.atPtr (tmp + 1) (httpParseArgs info (stop - (tmp + 1)) true)
    pure { info with arg := { info.arg with cur := none } }

/-- `parse_method`. `logic->method=table->value` reads the first slot of the
cell, whichever slot matched. -/
def parseMethod (data dataLen : Int) (info : Http) : Packet.Read Http := do
  match ← strlstr data dataLen (str " ") with
  | none => pure info
  | some space =>
    let (begin, stop) ← strlstrip data space
    let dataLen := dataLen - (begin - data)
    let a ← Access.read begin
    let b ← Access.read (begin + 1)
    match ← httpFindMethod begin (stop - begin) (methodCell a b) with
    | none =>
      httpMyparseMethod (stop + 1) (begin + dataLen - stop - 1)
        { info with logic := { info.logic with method := .na } }
    | some key =>
      let value := ((methodCell a b).head?.map Prod.snd).getD .none
      let info := { info with logic := { info.logic with method := value } }
      if (key.length : Int) + 1 < dataLen then
        httpMyparseMethod (begin + key.length + 1) (dataLen - key.length - 1) info
      else pure info

/-! ## Lines -/

/-- `http_parse_line` on a request. -/
def httpParseLine (info : Http) (begin : Int) (split : Option Int) (stop : Int) (num : Nat) :
    Packet.Read Http :=
  if num = 0 then parseMethod begin (stop - begin) info
  else
    match split with
    | none => pure info
    | some split => do
      let info := info.withInt fun i =>
        { i with maxHeaderLineLen := max i.maxHeaderLineLen (stop - begin) }
      let (begin, tmp) ← strlstrip begin split
      let nameLen := tmp - begin
      let (tmp, stop) ← strlstrip split stop
      httpMatchHeaderTable begin nameLen tmp (stop - tmp) info

end WafProxy
