import WafProxy.Packet
import WafProxy.ConnectionTable

/-
  The proxy worker — work2.c, with the socket wrappers of sock_util.c it calls

  A worker function that takes `t_ctx` and a connection `s` is a function on
  `Ctx`: the worker (`wi`) and that connection. Return codes are the source's
  0 and -1. What the kernel and the pools answer during one event is `Answers`,
  one field for each call site (a call site runs at most once in an event,
  `send` apart, whose answers are used in order; where the list has run out,
  `send` takes all it is offered). Every behaviour of these calls is some value of `Answers`: `send`
  never takes more than it is offered, `recv` never gives more than it is asked
  for, and a new descriptor is positive and not open already.

  Correspondence (C ↔ Lean):
    `sk_send`, `sk_recv`, `sk_tcp_client_nb`  ↔ `skSend`, `skRecv`, `skTcpClientNb`
    `epoll_ctl` ADD, DEL                       ↔ `epollAdd`, `epollDel`
    `_work_…`                                  ↔ `work…`
    the `while (pkt)` loops of the two senders ↔ `sendtoClientLoop`, `sendtoServerLoop`
    the `for` bodies of `_work_send_data` and
    `_work_recv_data`                          ↔ `workSendEvent` (its two branches are
                                                 `sendDataClient`, `sendDataServer`),
                                                 `workRecvEvent`

  `close(fd)` also takes the descriptor out of every epoll set. Of `g_cfg.stat`
  the three counters the worker writes are kept, with their 64-bit wrap-around.
  Trace output (`FLOW`, `ERR`, `DBG…`) is left out.

  `calls` (the worker functions called on a connection) and `freed` (the calls
  of `_work_free_connection`) are bookkeeping of the model, as are `nextPkt`
  and `puts` (what was taken from and given back to `pktpool`).
-/

namespace WafProxy

/-! ## What the kernel answers -/

/-- `send(2)`: a hard error, EAGAIN or EINTR, or at most `k` bytes taken. -/
inductive SendRes where
  | error
  | again
  | accept (k : Nat)
  deriving DecidableEq, Repr

/-- `recv(2)`: a hard error, EAGAIN or EINTR, or bytes; no bytes is the peer's
orderly close. -/
inductive RecvRes where
  | error
  | again
  | bytes (l : List Byte)
  deriving DecidableEq, Repr

/-- `connect(2)` on a new socket: failed, connected, or EINPROGRESS. -/
inductive ConnectRes where
  | fail
  | done (fd : Nat)
  | inprogress (fd : Nat)
  deriving DecidableEq, Repr

structure Answers where
  pool : Bool := true
  recv : RecvRes := .again
  connect : ConnectRes := .fail
  connected : Bool := true
  sends : List SendRes := []
  addSvr : Bool := true
  delWait : Bool := true
  addConn : Bool := true
  addBlk : Bool := true
  delBlk : Bool := true
  deriving DecidableEq, Repr

/-- `sk_send`: -1, or the number of bytes taken (0 when the call would block). -/
def skSend (r : SendRes) (buf : List Byte) : Int :=
  if buf.length < 1 then -1
  else match r with
    | .error => -1
    | .again => 0
    | .accept k => (min k buf.length : Nat)

/-- `sk_recv`: the return value, the bytes stored, and `*closed`. -/
def skRecv (r : RecvRes) (len : Nat) : Int × List Byte × Bool :=
  if len < 1 then (-1, [], false)
  else match r with
    | .error => (-1, [], false)
    | .again => (0, [], false)
    | .bytes l => ((l.take len).length, l.take len, (l.take len).isEmpty)

/-- `sk_tcp_client_nb`: the new descriptor and `*wait`. -/
def skTcpClientNb (r : ConnectRes) (fds : List Nat) : Option (Nat × Bool) :=
  match r with
  | .fail => none
  | .done fd => if 0 < fd ∧ fd ∉ fds then some (fd, false) else none
  | .inprogress fd => if 0 < fd ∧ fd ∉ fds then some (fd, true) else none

/-- An epoll set: the registered descriptors with the id stored beside each. -/
abbrev EpollSet := List (Nat × Nat)

/-- `EPOLL_CTL_ADD`, which refuses a descriptor that is registered. -/
def epollAdd (ok : Bool) (ep : EpollSet) (fd id : Nat) : Option EpollSet :=
  if ok ∧ fd ∉ ep.map Prod.fst then some ((fd, id) :: ep) else none

def epollRemove (ep : EpollSet) (fd : Nat) : EpollSet := ep.filter (fun p => p.1 ≠ fd)

/-- `EPOLL_CTL_DEL`, which refuses a descriptor that is not registered. -/
def epollDel (ok : Bool) (ep : EpollSet) (fd : Nat) : Option EpollSet :=
  if ok ∧ fd ∈ ep.map Prod.fst then some (epollRemove ep fd) else none

/-! ## The worker's state -/

/-- `workfd_t`. -/
structure WorkFd where
  fd : Nat
  isSsl : Bool := false
  addr : IpAddr := ⟨0, []⟩
  port : UInt16 := 0
  deriving DecidableEq, Repr

/-- The worker functions that take a connection. -/
inductive WorkFn where
  | getPacket
  | getServer
  | cleanConnection
  | freeConnection
  | checkServer
  | recvfromClient
  | recvfromServer
  | parseClient
  | parseServer
  | sendtoClient
  | sendtoServer
  | processClient
  | processServer
  deriving DecidableEq, Repr

/-- The places `_work_free_connection` is called from: by the function that
calls it and, inside the process functions, by the call that failed before. -/
inductive Site where
  | getConnection
  | recvData
  | recvfromClient
  | parseClient
  | sendtoServer
  | clientDone
  | recvfromServer
  | parseServer
  | sendtoClient
  | serverDone
  | sendData
  | sendDataClient
  | sendDataCheck
  | sendDataServer
  deriving DecidableEq, Repr

/-- One call of `_work_free_connection`: from where, the connection passed, and
its `nalloced` after both queues were cleaned. -/
structure Freed where
  site : Site
  conn : Connection
  left : Int
  deriving DecidableEq, Repr

/-- The counters of `g_cfg.stat` the worker writes. -/
structure ProxyStat where
  nowlive : UInt64 := 0
  nclirecv : UInt64 := 0
  nsvrrecv : UInt64 := 0
  deriving DecidableEq, Repr

/-- `work_t`, with the kernel's open descriptors and the bookkeeping. -/
structure Work where
  inq : List WorkFd := []
  max : Nat
  sesstbl : ConnectionTable Connection
  sendEpfd : EpollSet := []
  recvEpfd : EpollSet := []
  nblocked : Int := 0
  stat : ProxyStat := {}
  fds : List Nat := []
  nextPkt : Nat := 0
  puts : List Nat := []
  nextSerial : Nat := 0
  calls : List (WorkFn × Nat) := []
  freed : List Freed := []

/-- `close(2)`. -/
def Work.close (wi : Work) (fd : Nat) : Work :=
  { wi with
    fds := wi.fds.filter (fun x => x ≠ fd)
    sendEpfd := epollRemove wi.sendEpfd fd
    recvEpfd := epollRemove wi.recvEpfd fd }

/-- What a worker function called with `t_ctx` and `s` reaches. -/
structure Ctx where
  wi : Work
  s : Connection

def Ctx.call (c : Ctx) (f : WorkFn) : Ctx :=
  { c with wi.calls := c.wi.calls ++ [(f, c.s.serial)] }

/-- `mempool_put(pkt); s->nalloced--`. -/
def Ctx.put (c : Ctx) (pkt : Packet) : Ctx :=
  { c with wi.puts := c.wi.puts ++ [pkt.id], s.nalloced := c.s.nalloced - 1 }

/-- The connection's changes reach the table, which holds its pointer. -/
def Ctx.store (c : Ctx) : Work :=
  { c.wi with sesstbl := c.wi.sesstbl.store c.s.id c.s }

/-! ## Getting a packet and a server -/

/-- The packet `mempool_get` and the `memset` give. -/
def Ctx.newPkt (c : Ctx) : Packet :=
  { id := c.wi.nextPkt, data := [], capacity := PKT_CAPACITY, sendpos := 0 }

/-- `s->nalloced++; q->pkt = pkt`, with the packet just taken. -/
def Ctx.withPkt (c : Ctx) (q : Side) (pkt : Packet) : Ctx :=
  { c with wi.nextPkt := c.wi.nextPkt + 1,
           s := { c.s.setQ q { c.s.q q with pkt := some pkt } with nalloced := c.s.nalloced + 1 } }

def workGetPacket (a : Answers) (q : Side) (c : Ctx) : Option Packet × Ctx :=
  let c := c.call .getPacket
  if a.pool then (some c.newPkt, c.withPkt q c.newPkt) else (none, c)

def workGetServer (a : Answers) (c : Ctx) : Int × Ctx :=
  let c := c.call .getServer
  if 0 < c.s.svrfd then (0, c)
  else match skTcpClientNb a.connect c.wi.fds with
    | none => (-1, { c with s.isSvrerror := true })
    | some (fd, wait) =>
      let c := { c with wi.fds := fd :: c.wi.fds }
      if wait then
        match epollAdd a.addSvr c.wi.sendEpfd fd c.s.id with
        | none => (-1, { c with wi := c.wi.close fd, s.isSvrerror := true })
        | some ep =>
          (0, { c with wi.sendEpfd := ep, wi.nblocked := c.wi.nblocked + 1,
                       s.isSvrwait := true, s.svrfd := fd })
      else
        match epollAdd a.addSvr c.wi.recvEpfd fd c.s.id with
        | none => (-1, { c with wi := c.wi.close fd, s.isSvrerror := true })
        | some ep => (0, { c with wi.recvEpfd := ep, s.svrfd := fd })

/-! ## Freeing a connection -/

/-- The pointers `q->pkt` and `q->blkpkt` are left as they are. -/
def workCleanConnection (q : Side) (c : Ctx) : Ctx :=
  let c := c.call .cleanConnection
  let own := (c.s.q q).owned
  let s := c.s.setQ q { c.s.q q with inq := [], outq := [] }
  { c with wi.puts := c.wi.puts ++ own.map Packet.id,
           s := { s with nalloced := s.nalloced - own.length } }

/-- The client half of the closing in `_work_free_connection`; a failed
`EPOLL_CTL_DEL` is only logged there. -/
def Ctx.closeClient (c : Ctx) : Ctx :=
  if 0 < c.s.clifd then
    let send := if c.s.isCliblock then epollRemove c.wi.sendEpfd c.s.clifd else c.wi.sendEpfd
    let recv := epollRemove c.wi.recvEpfd c.s.clifd
    { c with wi := { c.wi with sendEpfd := send, recvEpfd := recv }.close c.s.clifd }
  else c

/-- The server half. -/
def Ctx.closeServer (c : Ctx) : Ctx :=
  if 0 < c.s.svrfd then
    let send :=
      if c.s.isSvrwait ∨ c.s.isSvrblock then epollRemove c.wi.sendEpfd c.s.svrfd else c.wi.sendEpfd
    let recv := if c.s.isSvrwait then c.wi.recvEpfd else epollRemove c.wi.recvEpfd c.s.svrfd
    { c with wi := { c.wi with sendEpfd := send, recvEpfd := recv }.close c.s.svrfd }
  else c

/-- The last lines of `_work_free_connection`; `passed` is the connection it was
called with. -/
def Ctx.delete (site : Site) (passed : Connection) (c : Ctx) : Ctx :=
  { c with wi := { c.wi with
      sesstbl := c.wi.sesstbl.delSlot c.s.id
      stat := { c.wi.stat with nowlive := c.wi.stat.nowlive - 1 }
      freed := c.wi.freed ++ [⟨site, passed, c.s.nalloced⟩] } }

def workFreeConnection (site : Site) (c : Ctx) : Ctx :=
  let closed := (c.call .freeConnection).closeClient.closeServer
  (workCleanConnection .svr (workCleanConnection .cli closed)).delete site c.s

/-! ## Completing the connect, receiving, parsing -/

def workCheckServer (a : Answers) (c : Ctx) : Int × Ctx :=
  let c := c.call .checkServer
  let fd := c.s.svrfd
  if ¬ a.connected then (-1, c)
  else
    let c := { c with s.isSvrwait := false, wi.nblocked := c.wi.nblocked - 1 }
    match epollDel a.delWait c.wi.sendEpfd fd with
    | none => (-1, c)
    | some ep =>
      let c := { c with wi.sendEpfd := ep }
      match epollAdd a.addConn c.wi.recvEpfd fd c.s.id with
      | none => (-1, c)
      | some ep => (0, { c with wi.recvEpfd := ep })

/-- `pkt->len += n` and the count of the client's bytes. -/
def Ctx.fillClient (c : Ctx) (pkt : Packet) (got : List Byte) : Ctx :=
  { c with
    wi.stat.nclirecv := c.wi.stat.nclirecv + UInt64.ofNat got.length
    s.cliq.pkt := some pkt, s.wire.cliRecv := c.s.wire.cliRecv ++ got }

/-- `if (pkt->len == 0)`: the packet is given back. -/
def Ctx.dropClient (c : Ctx) (pkt : Packet) : Ctx :=
  if pkt.data.length = 0 then { c.put pkt with s.cliq.pkt := none } else c

/-- `_work_recvfrom_client` from `pkt->len += n` on. -/
def gotfromClient (pkt : Packet) (got : List Byte) (close : Bool) (c : Ctx) : Ctx :=
  let pkt := { pkt with data := pkt.data ++ got }
  let c := (c.fillClient pkt got).dropClient pkt
  if close then { c with s.isCliclose := true } else c

def workRecvfromClient (a : Answers) (c : Ctx) : Int × Ctx :=
  let c := c.call .recvfromClient
  match workGetPacket a .cli c with
  | (none, c) => (-1, c)
  | (some pkt, c) =>
    match skRecv a.recv (pkt.capacity - pkt.data.length) with
    | (n, got, close) =>
      if n < 0 then (-1, { c with s.isClierror := true }) else (0, gotfromClient pkt got close c)

/-- `pkt->len += n` and the count of the server's bytes. -/
def Ctx.fillServer (c : Ctx) (pkt : Packet) (got : List Byte) : Ctx :=
  { c with
    wi.stat.nsvrrecv := c.wi.stat.nsvrrecv + UInt64.ofNat got.length
    s.svrq.pkt := some pkt, s.wire.svrRecv := c.s.wire.svrRecv ++ got }

/-- `if (pkt->len == 0)`: the packet is given back. -/
def Ctx.dropServer (c : Ctx) (pkt : Packet) : Ctx :=
  if pkt.data.length = 0 then { c.put pkt with s.svrq.pkt := none } else c

/-- `_work_recvfrom_server` from `pkt->len += n` on. -/
def gotfromServer (pkt : Packet) (got : List Byte) (close : Bool) (c : Ctx) : Ctx :=
  let pkt := { pkt with data := pkt.data ++ got }
  let c := (c.fillServer pkt got).dropServer pkt
  if close then { c with s.isSvrclose := true } else c

def workRecvfromServer (a : Answers) (c : Ctx) : Int × Ctx :=
  let c := c.call .recvfromServer
  match workGetPacket a .svr c with
  | (none, c) => (-1, c)
  | (some pkt, c) =>
    match skRecv a.recv pkt.capacity with
    | (n, got, close) =>
      if n < 0 then (-1, { c with s.isSvrerror := true }) else (0, gotfromServer pkt got close c)

/-- `RET_FAIL` of common.h. -/
def RET_FAIL : Int := -1

/-- The calls of `do_http_parse_test` and `module_detect_entry` stand inside
`if (0)`, so `ret` keeps its initial 0. -/
def workParseClient (c : Ctx) : Int × Ctx :=
  let c := c.call .parseClient
  match c.s.cliq.pkt with
  | none => (0, c)
  | some pkt =>
    let ret : Int := 0
    if ret = RET_FAIL then (-1, c)
    else (0, { c with s.cliq.pkt := none, s.cliq.outq := pktqIn c.s.cliq.outq pkt })

def workParseServer (c : Ctx) : Int × Ctx :=
  let c := c.call .parseServer
  match c.s.svrq.pkt with
  | none => (0, c)
  | some pkt => (0, { c with s.svrq.pkt := none, s.svrq.outq := pktqIn c.s.svrq.outq pkt })

/-! ## Sending -/

/-- How one turn of a `while (pkt)` loop ends: the function returns, or the
loop goes on to the next packet of the queue. -/
inductive Round where
  | ret (code : Int) (c : Ctx)
  | next (c : Ctx)

/-- The queue's output list, as `pktq_out` leaves it. -/
def Ctx.setOutq (c : Ctx) : Side → List Packet → Ctx
  | .cli, l => { c with s.cliq.outq := l }
  | .svr, l => { c with s.svrq.outq := l }

/-- The `while (pkt)` loop of a sender with `pkt` in hand, `q` being what is
left of its output queue. -/
def sendLoop (side : Side) (round : SendRes → Packet → Ctx → Round) :
    List Packet → List SendRes → Packet → Ctx → Int × Ctx
  | q, rs, pkt, c =>
    match round (rs.headD (.accept pkt.data.length)) pkt c with
    | .ret code c => (code, c)
    | .next c =>
      match q with
      | [] => (0, c)
      | pkt :: q => sendLoop side round q rs.tail pkt (c.setOutq side q)

def sendtoClientRound (a : Answers) (r : SendRes) (pkt : Packet) (c : Ctx) : Round :=
  let len := pkt.unsent.length
  let n := skSend r pkt.unsent
  if n < 0 then .ret (-1) ({ c with s.isClierror := true }.put pkt)
  else
    let c := { c with s.wire.cliSent := c.s.wire.cliSent ++ pkt.unsent.take n.toNat }
    if n < len then
      let pkt := { pkt with sendpos := pkt.sendpos + n.toNat }
      -- `if (s->is_cliblock) break;` leaves `blkpkt` NULL: nothing points at `pkt` any more
      if c.s.isCliblock then .ret 0 { c with s.svrq.leak := c.s.svrq.leak ++ [pkt] }
      else match epollAdd a.addBlk c.wi.sendEpfd c.s.clifd c.s.id with
        | none => .ret (-1) (c.put pkt)
        | some ep => .ret 0 { c with
            wi.sendEpfd := ep, wi.nblocked := c.wi.nblocked + 1
            s.svrq.blkpkt := some pkt, s.isCliblock := true }
    else if c.s.isCliblock then
      match epollDel a.delBlk c.wi.sendEpfd c.s.clifd with
      | none => .ret (-1) (c.put pkt)
      | some ep => .next ({ c with
          wi.sendEpfd := ep, wi.nblocked := c.wi.nblocked - 1, s.isCliblock := false }.put pkt)
    else .next (c.put pkt)

def sendtoClientLoop (a : Answers) := sendLoop .svr (sendtoClientRound a)

def workSendtoClient (a : Answers) (c : Ctx) : Int × Ctx :=
  let c := c.call .sendtoClient
  if c.s.svrq.outq.length < 1 ∧ c.s.svrq.blkpkt = none then (0, c)
  else match c.s.svrq.blkpkt with
    | some pkt => sendtoClientLoop a c.s.svrq.outq a.sends pkt { c with s.svrq.blkpkt := none }
    | none =>
      match pktqOut c.s.svrq.outq with
      | none => (0, c)
      | some (pkt, q) => sendtoClientLoop a q a.sends pkt { c with s.svrq.outq := q }

/-- Unlike `sendtoClientRound`, a `send` that took nothing is an error here. -/
def sendtoServerRound (a : Answers) (r : SendRes) (pkt : Packet) (c : Ctx) : Round :=
  let len := pkt.unsent.length
  let n := skSend r pkt.unsent
  if n ≤ 0 then .ret (-1) ({ c with s.isSvrerror := true }.put pkt)
  else
    let c := { c with s.wire.svrSent := c.s.wire.svrSent ++ pkt.unsent.take n.toNat }
    if n < len then
      let pkt := { pkt with sendpos := pkt.sendpos + n.toNat }
      -- `if (s->is_svrblock) break;` leaves `blkpkt` NULL: nothing points at `pkt` any more
      if c.s.isSvrblock then .ret 0 { c with s.cliq.leak := c.s.cliq.leak ++ [pkt] }
      else match epollAdd a.addBlk c.wi.sendEpfd c.s.svrfd c.s.id with
        | none => .ret (-1) ({ c with s.isSvrerror := true }.put pkt)
        | some ep => .ret 0 { c with
            wi.sendEpfd := ep, wi.nblocked := c.wi.nblocked + 1
            s.cliq.blkpkt := some pkt, s.isSvrblock := true }
    else if c.s.isSvrblock then
      match epollDel a.delBlk c.wi.sendEpfd c.s.svrfd with
      | none => .ret (-1) ({ c with s.isSvrerror := true }.put pkt)
      | some ep => .next ({ c with
          wi.sendEpfd := ep, wi.nblocked := c.wi.nblocked - 1, s.isSvrblock := false }.put pkt)
    else .next (c.put pkt)

def sendtoServerLoop (a : Answers) := sendLoop .cli (sendtoServerRound a)

def workSendtoServer (a : Answers) (c : Ctx) : Int × Ctx :=
  let c := c.call .sendtoServer
  if c.s.cliq.outq.length < 1 ∧ c.s.cliq.blkpkt = none then (0, c)
  else match workGetServer a c with
    | (r, c) =>
      if r ≠ 0 then (-1, c)
      else if c.s.isSvrwait then (0, c)
      else match c.s.cliq.blkpkt with
        | some pkt => sendtoServerLoop a c.s.cliq.outq a.sends pkt { c with s.cliq.blkpkt := none }
        | none =>
          match pktqOut c.s.cliq.outq with
          | none => (0, c)
          | some (pkt, q) => sendtoServerLoop a q a.sends pkt { c with s.cliq.outq := q }

/-! ## The handlers -/

/-- `_work_process_client` and what the caller sees of `s` afterwards. -/
def workProcessClient (a : Answers) (c : Ctx) : Int × Ctx :=
  let c := c.call .processClient
  match workRecvfromClient a c with
  | (r, c) =>
    if r ≠ 0 then (-1, workFreeConnection .recvfromClient c)
    else match workParseClient c with
      | (r, c) =>
        if r ≠ 0 then (-1, workFreeConnection .parseClient c)
        else match workSendtoServer a c with
          | (r, c) =>
            if r ≠ 0 then (-1, workFreeConnection .sendtoServer c)
            else if c.s.isClierror ∨ c.s.isCliclose then (-1, workFreeConnection .clientDone c)
            else (0, c)

/-- Returns 0 also when the last branch has freed the connection. -/
def workProcessServer (a : Answers) (c : Ctx) : Int × Ctx :=
  let c := c.call .processServer
  match workRecvfromServer a c with
  | (r, c) =>
    if r ≠ 0 then (-1, workFreeConnection .recvfromServer c)
    else match workParseServer c with
      | (r, c) =>
        if r ≠ 0 then (-1, workFreeConnection .parseServer c)
        else match workSendtoClient a c with
          | (r, c) =>
            if r ≠ 0 then (-1, workFreeConnection .sendtoClient c)
            else if c.s.isSvrerror ∨ c.s.isSvrclose then (0, workFreeConnection .serverDone c)
            else (0, c)

/-- `struct epoll_event`: the pair stored at registration, and `EPOLLERR`. -/
structure Event where
  fd : Nat
  id : Nat
  err : Bool := false
  deriving DecidableEq, Repr

/-- One turn of the loop of `_work_recv_data`. -/
def workRecvEvent (a : Answers) (e : Event) (wi : Work) : Work :=
  match wi.sesstbl.findSlot e.id with
  | none => wi
  | some s =>
    if e.err then (workFreeConnection .recvData ⟨wi, s⟩).store
    else if s.clifd = e.fd then
      if ¬ s.isSvrblock then (workProcessClient a ⟨wi, s⟩).2.store else wi
    else if s.svrfd = e.fd then
      if ¬ s.isCliblock then (workProcessServer a ⟨wi, s⟩).2.store else wi
    else wi

/-- The branch of `_work_send_data` for the client's descriptor. -/
def sendDataClient (a : Answers) (c : Ctx) : Ctx :=
  match workSendtoClient a c with
  | (r, c) => if r ≠ 0 then workFreeConnection .sendDataClient c else c

/-- The branch for the server's descriptor. A connection the first `if` has
freed is passed on to `_work_sendto_server`. -/
def sendDataServer (a : Answers) (c : Ctx) : Ctx :=
  let c :=
    if c.s.isSvrwait then
      match workCheckServer a c with
      | (r, c) => if r ≠ 0 then workFreeConnection .sendDataCheck c else c
    else c
  match workSendtoServer a c with
  | (r, c) => if r ≠ 0 then workFreeConnection .sendDataServer c else c

/-- One turn of the loop of `_work_send_data`. -/
def workSendEvent (a : Answers) (e : Event) (wi : Work) : Work :=
  match wi.sesstbl.findSlot e.id with
  | none => wi
  | some s =>
    if e.err then (workFreeConnection .sendData ⟨wi, s⟩).store
    else if s.clifd = e.fd then (sendDataClient a ⟨wi, s⟩).store
    else if s.svrfd = e.fd then (sendDataServer a ⟨wi, s⟩).store
    else wi

/-! ## Taking over accepted clients -/

/-- What `_work_alloc_connection` and `epoll_ctl` answer for one client. -/
structure TakeAnswers where
  ssn : Bool := true
  add : Bool := true
  deriving DecidableEq, Repr

/-- `_work_alloc_connection`; `sesstblRun_records` says that the slots may hold
the connections themselves. -/
def workAllocConnection (ssn : Bool) (wi : Work) : Option Ctx :=
  if ssn then
    let s : Connection := { serial := wi.nextSerial }
    match wi.sesstbl.addSlot (fun id => { s with id := id }) with
    | none => none
    | some (id, t) =>
      some ⟨{ wi with sesstbl := t, nextSerial := wi.nextSerial + 1 }, { s with id := id }⟩
  else none

/-- One turn of the loop of `_work_get_connection`. -/
def workTakeClient (a : TakeAnswers) (wfd : WorkFd) (wi : Work) : Work :=
  match workAllocConnection a.ssn wi with
  | none => wi.close wfd.fd
  | some c =>
    match epollAdd a.add c.wi.recvEpfd wfd.fd c.s.id with
    | none => (workFreeConnection .getConnection { c with wi := c.wi.close wfd.fd }).store
    | some ep =>
      { c with
        wi.recvEpfd := ep
        s := { c.s with clifd := wfd.fd, cliaddr := wfd.addr, cliport := wfd.port } : Ctx }.store

def workTakeClients : List TakeAnswers → List WorkFd → Work → Work
  | _, [], wi => wi
  | as, wfd :: q, wi => workTakeClients as.tail q (workTakeClient (as.headD {}) wfd wi)

def workGetConnection (as : List TakeAnswers) (wi : Work) : Work :=
  workTakeClients as wi.inq { wi with inq := [] }

/-- `work_add_connection`, called by the accept thread with a client it has
just accepted; on -1 `_accept_client` closes the client again. -/
def workAddConnection (wfd : WorkFd) (wi : Work) : Int × Work :=
  if wi.max < 1 ∨ wi.max ≤ wi.inq.length then (-1, wi)
  else (0, { wi with inq := wi.inq ++ [wfd] })

end WafProxy
