import WafProxy.Http.UrlEdit

/-
  The calls that edit a header — http_modify.c

  Each call takes a text from a modification record, puts a blank in front of it and
  has one line of the header edited, or the URL of the request line. A text that
  is missing, empty or of 2000 bytes and more is refused. Whether a line is inserted
  or updated depends on what the parser has seen, which no edit changes; for the
  content length it depends on a flag that the call itself sets; for
  X-Forwarded-For and Content-Encoding on the header.

  Correspondence (C ↔ Lean):
    `_http_strlen_max`                          ↔ `httpStrlenMax`
    `http_header_modify_t`                      ↔ `HeaderRecord`
    `_http_append_forward`, `_http_append_gzip` ↔ `EditStream.httpAppendForward`, `EditStream.httpAppendGzip`
    `_http_replace_content_len`                 ↔ `StreamState.httpReplaceContentLen`
    `_http_replace_host`, `_http_update_host`   ↔ `EditStream.httpReplaceHost`, `EditStream.httpUpdateHost`
    `_http_replace_refer`, `_http_update_refer` ↔ `EditStream.httpReplaceRefer`, `EditStream.httpUpdateRefer`
    `_http_replace_location`                    ↔ `EditStream.httpReplaceLocation`
    `_http_update_location`                     ↔ `EditStream.httpUpdateLocation`
    `_http_replace_auth`                        ↔ `EditStream.httpReplaceAuth`
    `_http_remove_chunk`, `_http_remove_gzip`   ↔ `EditStream.httpRemoveChunk`, `EditStream.httpRemoveGzip`
    `_http_remove_cookie`, `_http_remove_auth`  ↔ `EditStream.httpRemoveCookie`, `EditStream.httpRemoveAuth`
    `http_replace_host` and the other calls     ↔ `HeaderCall`, `HeaderCall.run`
    `clen_isset_0`, `clen_isset_1`              ↔ `clenIsset`
  The flag is the one of the direction in hand. `none` is memory that is not there:
  `strlen` of a URL that is NULL.
-/

namespace WafProxy
open Lib

/-! ## The texts -/

def MAX_LINE_LEN : Nat := 2000

/-- `_http_strlen_max`: 0 for NULL and for a text that is not shorter than `max`. -/
def httpStrlenMax (s : Option (List Byte)) (max : Nat) : Nat :=
  match s with
  | none => 0
  | some text => if max ≤ text.length then 0 else text.length

/-- The texts of `http_header_modify_t`; `none` is NULL. No call reads the lengths beside them. -/
structure HeaderRecord where
  url : Option (List Byte) := none
  host : Option (List Byte) := none
  auth : Option (List Byte) := none
  refer : Option (List Byte) := none
  xff : Option (List Byte) := none
  location : Option (List Byte) := none
  contentLen : Option (List Byte) := none

/-- An edit, with what it returns. -/
abbrev StreamCall := EditStream → Option (Int × EditStream)

/-- `snprintf(buf, sizeof(buf), " %s", text)` for a text that is not refused, and the edit with it. -/
def withText (text : Option (List Byte)) (edit : List Byte → StreamCall) : StreamCall := fun s =>
  if httpStrlenMax text MAX_LINE_LEN = 0 then some (-1, s)
  else edit ((str " " ++ text.getD []).take (VALUE_BUF - 1)) s

namespace EditStream

/-- A line the parser has seen is updated, else one is inserted. -/
def replaceSeen (label : List Byte) (seen : Nat) (value : List Byte) : StreamCall := fun s =>
  if seen = 0 then s.httpInsertLine label value else s.httpUpdateLine label value

/-- A line the parser has seen is updated. -/
def updateSeen (label : List Byte) (seen : Nat) (value : List Byte) : StreamCall := fun s =>
  if seen = 0 then some (-1, s) else s.httpUpdateLine label value

section
variable (info : Http)

def httpReplaceHost : List Byte → StreamCall := replaceSeen (str "Host:") info.str.host.len

def httpUpdateHost : List Byte → StreamCall := updateSeen (str "Host:") info.str.host.len

def httpReplaceRefer : List Byte → StreamCall := replaceSeen (str "Referer:") info.str.reference.len

def httpUpdateRefer : List Byte → StreamCall := updateSeen (str "Referer:") info.str.reference.len

def httpReplaceLocation : List Byte → StreamCall := replaceSeen (str "Location:") info.str.location.len

def httpUpdateLocation : List Byte → StreamCall := updateSeen (str "Location:") info.str.location.len

def httpReplaceAuth : List Byte → StreamCall := replaceSeen (str "Authorization:") info.str.auth.len

/-- The text is looked at once more, now with the blank in front of it. -/
def httpAppendForward (ip : List Byte) : StreamCall := fun s =>
  if httpStrlenMax (some ip) MAX_LINE_LEN = 0 then some (-1, s)
  else
    match xMemcasestr (str "\r\nX-Forwarded-For:") s.data with
    | none => s.httpInsertLine (str "X-Forwarded-For:") ip
    | some _ => s.httpAppendLine (str "X-Forwarded-For:") (str "," ++ ip)

def httpAppendGzip : StreamCall := fun s =>
  match xMemcasestr (str "\r\nContent-Encoding:") s.data with
  | none => s.httpInsertLine (str "Content-Encoding:") (str " gzip")
  | some _ => s.httpAppendLine (str "Content-Encoding:") (str ";gzip")

def httpRemoveChunk : StreamCall := fun s =>
  if info.logic.isChunked = false then some (-1, s) else s.httpRemoveLine (str "transfer-encoding:")

def httpRemoveGzip : StreamCall := fun s => s.httpRemoveLine (str "Content-Encoding:")

def httpRemoveCookie : StreamCall := fun s => s.httpRemoveLine (str "cookie:")

def httpRemoveAuth : StreamCall := fun s => s.httpRemoveLine (str "Authorization:")

end

end EditStream

/-! ## The calls -/

/-- The stream and the flag of the direction. -/
structure StreamState where
  stream : EditStream
  clenIsset : Bool

/-- An edit leaves the flag alone. -/
def StreamState.edit (st : StreamState) (call : StreamCall) : Option (Int × StreamState) :=
  (call st.stream).map fun r => (r.1, { st with stream := r.2 })

/-- The flag is set before the line is inserted. -/
def StreamState.httpReplaceContentLen (st : StreamState) (len : List Byte) : Option (Int × StreamState) :=
  if st.clenIsset = false then
    StreamState.edit { st with clenIsset := true } fun s => s.httpInsertLine (str "content-length:") len
  else st.edit fun s => s.httpUpdateLine (str "content-length:") len

/-- The calls of http_modify.c on a record. -/
inductive HeaderCall where
  | replaceHost
  | updateHost
  | appendXff
  | appendGzip
  | replaceContentLen
  | replaceRefer
  | updateRefer
  | replaceLocation
  | updateLocation
  | updateUrl
  | removeChunk
  | removeGzip
  | removeCookie
  | removeAuth
  | replaceAuth
  deriving DecidableEq, Repr

def HeaderCall.run (info : Http) (pak : HeaderRecord) (st : StreamState) : HeaderCall → Option (Int × StreamState)
  | .replaceHost => st.edit (withText pak.host (EditStream.httpReplaceHost info))
  | .updateHost => st.edit (withText pak.host (EditStream.httpUpdateHost info))
  | .appendXff => st.edit (withText pak.xff EditStream.httpAppendForward)
  | .appendGzip => st.edit EditStream.httpAppendGzip
  | .replaceContentLen =>
    if httpStrlenMax pak.contentLen MAX_LINE_LEN = 0 then some (-1, st)
    else st.httpReplaceContentLen ((str " " ++ pak.contentLen.getD []).take (VALUE_BUF - 1))
  | .replaceRefer => st.edit (withText pak.refer (EditStream.httpReplaceRefer info))
  | .updateRefer => st.edit (withText pak.refer (EditStream.httpUpdateRefer info))
  | .replaceLocation => st.edit (withText pak.location (EditStream.httpReplaceLocation info))
  | .updateLocation => st.edit (withText pak.location (EditStream.httpUpdateLocation info))
  | .updateUrl => pak.url.bind fun url => st.edit fun s => s.httpUpdateUrl url
  | .removeChunk => st.edit (EditStream.httpRemoveChunk info)
  | .removeGzip => st.edit EditStream.httpRemoveGzip
  | .removeCookie => st.edit EditStream.httpRemoveCookie
  | .removeAuth => st.edit EditStream.httpRemoveAuth
  | .replaceAuth => st.edit (withText pak.auth (EditStream.httpReplaceAuth info))

end WafProxy
