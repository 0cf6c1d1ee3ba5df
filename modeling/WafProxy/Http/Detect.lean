import WafProxy.Http.Body

/-
  One packet — `do_http_parse_test` of detect_module.c

  Correspondence (C ↔ Lean):
    `do_http_parse_test`  ↔ `doHttpParseTest`, for the pointer `buf`
    a run of it           ↔ `parsePackets`
-/

namespace WafProxy
open Lib

/-- `do_http_parse_test(p_http, buf, len)` for the pointer `buf`: its return
value and the state it leaves. -/
def doHttpParseTest (len : Nat) (info : Http) : Packet.Read (Int × Http) := do
  let info ← if info.loc.state = 4 then httpParseBody len info else pure info
  let buf ← Access.slice 0 len
  let (headLen, state) ← Access.ofOption (sHttpParse buf info.loc.state)
  let info := { info with loc := { info.loc with state := state } }
  if state < 4 then pure (-1, info)
  else if state = 4 then
    let info ← httpParseHead headLen info
    let info ← Access.atPtr headLen (httpParseBody ((len : Int) - headLen) info)
    pure (0, info)
  else pure (0, info)

/-- `do_http_parse_test` on a packet of its own. -/
def parsePacket (info : Http) (packet : List Byte) : Option (Int × Http) :=
  (doHttpParseTest packet.length info).run (Memory.ofList packet)

/-- The packets one after the other; `none` when a call is undefined. -/
def parsePackets : Http → List (List Byte) → Option Http
  | info, [] => some info
  | info, packet :: packets =>
    (parsePacket info packet).bind fun r => parsePackets r.2 packets

end WafProxy
