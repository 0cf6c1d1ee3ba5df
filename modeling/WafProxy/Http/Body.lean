import WafProxy.Http.Form

/-
  The request body — http_body.c

  `recv_chunk` only looks for the end of a chunked body; the bytes themselves,
  chunk lines and all, go to the argument parser as they come.

  Correspondence (C ↔ Lean):
    `http_read_line` with one byte  ↔ `httpReadLine` (the line when the byte ends it)
    `recv_chunk`                    ↔ `recvChunk` (its loop: `recvChunkLoop`)
    `http_parse_body_args`          ↔ `httpParseBodyArgs`
    `http_parse_body`               ↔ `httpParseBody` (up to the arguments: `httpBodyCount`)
-/

namespace WafProxy
open Lib

/-! ## Chunks -/

/-- `http_read_line` on one byte. The text it looks for stands in what is
cached, which a NUL follows. -/
def httpReadLine (c : Byte) (loc : HttpLocal) : Option (List Byte) × HttpLocal :=
  if 512 < loc.cacheBuf.length + 1 then (none, loc)
  else
    let cacheBuf := loc.cacheBuf ++ [c]
    if (strlstrText (str "\r\n") cacheBuf).isSome then
      (some cacheBuf, { loc with cacheBuf := [] })
    else (none, { loc with cacheBuf := cacheBuf })

/-- The loop of `recv_chunk` on the bytes left. Every turn that does not end it
consumes at least one of them, so their number is fuel enough. -/
def recvChunkLoop : Nat → List Byte → HttpLocal → HttpLocal
  | 0, _, loc => loc
  | _ + 1, [], loc => loc
  | n + 1, c :: data, loc =>
    if 0 < loc.unRecvChunkedLen then
      if ((c :: data).length : Int) < loc.unRecvChunkedLen then
        { loc with unRecvChunkedLen := loc.unRecvChunkedLen - (c :: data).length }
      else if loc.chunkFlag = .fin then { loc with unRecvChunkedLen := 0 }
      else
        recvChunkLoop n ((c :: data).drop loc.unRecvChunkedLen.toNat)
          { loc with unRecvChunkedLen := 0, chunkFlag := .size }
    else
      match httpReadLine c loc with
      | (none, loc) => recvChunkLoop n data loc
      | (some line, loc) =>
        let len := toInt32 (strtol line 16)
        if len < 0 then { loc with unRecvChunkedLen := len }
        else if len = 0 then
          recvChunkLoop n data { loc with unRecvChunkedLen := 2, chunkFlag := .fin }
        else recvChunkLoop n data { loc with unRecvChunkedLen := toInt32 (len + 2) }

def recvChunk (data : List Byte) (info : Http) : Http :=
  let loc := recvChunkLoop data.length data info.loc
  let info := { info with loc := loc }
  if loc.chunkFlag = .fin ∧ loc.unRecvChunkedLen = 0 then httpSetState info .none else info

/-! ## `http_parse_body` -/

/-- `http_parse_body_args` for the pointer `data`. -/
def httpParseBodyArgs (dataLen : Int) (info : Http) : Packet.Read Http :=
  if dataLen ≤ 0 then pure info
  else
    match info.logic.contentType with
    | .multiform => do
      let data ← Access.slice 0 dataLen.toNat
      Access.ofOption (httpParseForm data info)
    | .amf => pure info
    | _ => httpParseArgs info dataLen false

/-- `http_parse_body` up to its call of `http_parse_body_args`. -/
def httpBodyCount (data : List Byte) (info : Http) : Http :=
  let info := info.withInt fun i => { i with bodyLen := i.bodyLen + data.length }
  if info.logic.isChunked then recvChunk data info
  else
    let left := toInt32 (info.loc.unRecvContentLen - data.length)
    let info := { info with loc := { info.loc with unRecvContentLen := left } }
    httpSetState info (if left ≤ 0 then .none else .body)

/-- `http_parse_body` for the pointer `data`. -/
def httpParseBody (len : Int) (info : Http) : Packet.Read Http :=
  if len ≤ 0 then pure info
  else do
    let data ← Access.slice 0 len.toNat
    httpParseBodyArgs len (httpBodyCount data info)

end WafProxy
