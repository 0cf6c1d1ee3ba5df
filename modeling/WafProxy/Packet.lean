/-
  Packets and connections — the data model of packet.h and connection.h

  A `packet_t` is kept with the number of the `mempool_get` that handed it out,
  so that one pool unit used twice is two packets here. `len` is the length of
  `data`. A `pktq_t` is the list its `next` links spell, from `head` to `tail`;
  its `len` is the length of that list.

  Correspondence (C ↔ Lean):
    `packet_t`, `pktq_t`                     ↔ `Packet`, `List Packet`
    `pktq_in`, `pktq_out`                    ↔ `pktqIn`, `pktqOut`
    `connection_queue_t`, `connection_t`     ↔ `ConnectionQueue`, `Connection`

  Not modelled because no function of the worker reads it: `sid`, `pos`,
  `recvpos`, `is_request`, the `pos` and `nbyte` of a queue, `index`,
  `svraddr`, the splice pipes and the two `sslwait` flags. `http_ctx` is only
  used inside `if (0)` (see `workParseClient`).

  Three fields are bookkeeping of this model, not of the source: `serial`
  numbers the connections a worker ever allocates, `wire` records the bytes the
  sockets of a connection carried, and `leak` holds the packets a queue dropped
  its last pointer to without `mempool_put`.
-/

namespace WafProxy

abbrev Byte := UInt8

/-- `packet_t`: `data` is `data[0..len)`. -/
structure Packet where
  id : Nat
  data : List Byte
  capacity : Nat
  sendpos : Nat
  deriving DecidableEq, Repr

/-- The bytes from `data + sendpos` up to `len`. -/
def Packet.unsent (p : Packet) : List Byte := p.data.drop p.sendpos

def MAX_PKTLEN : Nat := 4096

/-- `sizeof(packet_t)` with 8-byte pointers. -/
def PACKET_T_SIZE : Nat := 40

/-- `g_cfg.pktpool->memsize - sizeof(packet_t)`. -/
def PKT_CAPACITY : Nat := MAX_PKTLEN - PACKET_T_SIZE

def pktqIn (q : List Packet) (pkt : Packet) : List Packet := q ++ [pkt]

def pktqOut : List Packet → Option (Packet × List Packet)
  | [] => none
  | pkt :: q => some (pkt, q)

/-- `connection_queue_t`; `leak` is bookkeeping. -/
structure ConnectionQueue where
  inq : List Packet := []
  outq : List Packet := []
  pkt : Option Packet := none
  blkpkt : Option Packet := none
  leak : List Packet := []
  deriving DecidableEq, Repr

/-- The packets a queue owns. -/
def ConnectionQueue.owned (q : ConnectionQueue) : List Packet :=
  q.pkt.toList ++ q.blkpkt.toList ++ q.inq ++ q.outq

/-- The unsent bytes a queue holds, in the order they go out: the blocked
packet, then the output queue. -/
def ConnectionQueue.pending (q : ConnectionQueue) : List Byte :=
  (q.blkpkt.toList ++ q.outq).flatMap Packet.unsent

/-- `ip_addr_t`: the family and the address bytes. -/
structure IpAddr where
  family : Int
  addr : List Byte
  deriving DecidableEq, Repr

/-- The bytes received from and sent to the two peers of a connection. -/
structure Wire where
  cliRecv : List Byte := []
  svrSent : List Byte := []
  svrRecv : List Byte := []
  cliSent : List Byte := []
  deriving DecidableEq, Repr

/-- `connection_t`. A descriptor of 0 is a socket not opened yet, as in the
zeroed structure. -/
structure Connection where
  id : Nat := 0
  cliaddr : IpAddr := ⟨0, []⟩
  cliport : UInt16 := 0
  clifd : Nat := 0
  cliq : ConnectionQueue := {}
  svrfd : Nat := 0
  svrq : ConnectionQueue := {}
  nalloced : Int := 0
  isClierror : Bool := false
  isCliclose : Bool := false
  isCliblock : Bool := false
  isSvrerror : Bool := false
  isSvrclose : Bool := false
  isSvrwait : Bool := false
  isSvrblock : Bool := false
  serial : Nat := 0
  wire : Wire := {}
  deriving DecidableEq, Repr

/-- The packets both queues of a connection own. -/
def Connection.owned (s : Connection) : List Packet := s.cliq.owned ++ s.svrq.owned

/-- Which of the two queues of a connection. -/
inductive Side where
  | cli
  | svr
  deriving DecidableEq, Repr

def Connection.q (s : Connection) : Side → ConnectionQueue
  | .cli => s.cliq
  | .svr => s.svrq

def Connection.setQ (s : Connection) : Side → ConnectionQueue → Connection
  | .cli, q => { s with cliq := q }
  | .svr, q => { s with svrq := q }

end WafProxy
