import WafProxy.Packet

/-
  One direction of a connection — what a sender of the worker has to keep

  A connection relays two byte streams. `Dir` is one of them: the queue its
  packets wait in, the block and wait flags of the side they go to, and the
  bytes received and sent so far. `Connection.up` is the stream from the client
  to the server, `Connection.down` the one back.

  Three conditions follow a sender through its loop:
    1. `Dir.Ready` — before it runs: nothing is being received, and the bytes
       received are the bytes sent followed by the bytes pending.
    2. `Dir.InHand p` — while the loop holds `p`, which no field points at.
    3. `Dir.Ok` — between events: `Ready`, and nothing waits on an idle side.

  The stream equation is promised while no packet was leaked. A packet leaks
  when a side that is blocked already takes it in part once more (`leaked`).
-/

namespace WafProxy

structure Dir where
  q : ConnectionQueue
  block : Bool
  wait : Bool
  recvd : List Byte
  sent : List Byte

def Connection.up (s : Connection) : Dir :=
  ⟨s.cliq, s.isSvrblock, s.isSvrwait, s.wire.cliRecv, s.wire.svrSent⟩

/-- The client's side is connected from the start, so it never waits. -/
def Connection.down (s : Connection) : Dir :=
  ⟨s.svrq, s.isCliblock, false, s.wire.svrRecv, s.wire.cliSent⟩

/-- A packet `n` more bytes of which were sent. -/
def Packet.advance (p : Packet) (n : Nat) : Packet := { p with sendpos := p.sendpos + n }

theorem Packet.unsent_advance (p : Packet) (n : Nat) : (p.advance n).unsent = p.unsent.drop n := by
  simp only [Packet.unsent, Packet.advance, List.drop_drop]

@[simp] theorem ConnectionQueue.pending_eq (q : ConnectionQueue) :
    q.pending = (q.blkpkt.elim [] Packet.unsent) ++ q.outq.flatMap Packet.unsent := by
  unfold ConnectionQueue.pending
  cases q.blkpkt <;> simp

namespace Dir

/-- Before a sender runs. -/
structure Ready (d : Dir) : Prop where
  pkt : d.q.pkt = none
  inq : d.q.inq = []
  wait : d.wait = true → d.block = false
  idle : d.block = false → d.q.blkpkt = none
  stuck : d.block = true → d.q.blkpkt = none → d.q.leak ≠ []
  blk : ∀ p, d.q.blkpkt = some p → p.unsent ≠ []
  out : ∀ p ∈ d.q.outq, p.unsent ≠ []
  stream : d.q.leak = [] → d.recvd = d.sent ++ d.q.pending

/-- Between events. -/
structure Ok (d : Dir) : Prop extends Ready d where
  drained : d.block = false → d.wait = false → d.q.outq = []

/-- While the loop of a sender holds `p`. -/
structure InHand (p : Packet) (d : Dir) : Prop where
  pkt : d.q.pkt = none
  inq : d.q.inq = []
  blk : d.q.blkpkt = none
  wait : d.wait = false
  hand : p.unsent ≠ []
  out : ∀ p ∈ d.q.outq, p.unsent ≠ []
  stream : d.q.leak = [] → d.recvd = d.sent ++ (p.unsent ++ d.q.outq.flatMap Packet.unsent)

/-- A new direction. -/
theorem ok_new : Ok ⟨{}, false, false, [], []⟩ := by
  refine ⟨?_, fun _ _ => rfl⟩
  constructor <;> simp

/-! ## Taking a packet in hand -/

theorem Ready.pick {d : Dir} {p : Packet} (h : Ready d) (hp : d.q.blkpkt = some p)
    (hw : d.wait = false) : InHand p { d with q := { d.q with blkpkt := none } } where
  pkt := h.pkt
  inq := h.inq
  blk := rfl
  wait := hw
  hand := h.blk p hp
  out := h.out
  stream hl := by simpa [hp] using h.stream hl

theorem Ready.pop {d : Dir} {p : Packet} {l : List Packet} (h : Ready d) (hb : d.q.blkpkt = none)
    (ho : d.q.outq = p :: l) (hw : d.wait = false) :
    InHand p { d with q := { d.q with outq := l } } where
  pkt := h.pkt
  inq := h.inq
  blk := hb
  wait := hw
  hand := h.out p (by simp [ho])
  out p' hp' := h.out p' (by simp [ho, hp'])
  stream hl := by simpa [hb, ho] using h.stream hl

/-! ## What a `send` does to the packet in hand -/

theorem drop_ne_nil {l : List Byte} {n : Nat} (h : n < l.length) : l.drop n ≠ [] := by
  intro hd
  have := congrArg List.length hd
  simp only [List.length_drop, List.length_nil] at this
  omega

/-- Taken in part by a side that was free: the packet waits in `blkpkt`. -/
theorem InHand.blocked {d : Dir} {p : Packet} {n : Nat} (h : InHand p d)
    (hn : n < p.unsent.length) :
    Ok { d with q := { d.q with blkpkt := some (p.advance n) }, block := true,
                sent := d.sent ++ p.unsent.take n } where
  pkt := h.pkt
  inq := h.inq
  wait hw := by simp [h.wait] at hw
  idle hb := by simp at hb
  stuck _ hb := by simp at hb
  blk p' hp' := by
    simp only [Option.some.injEq] at hp'
    rw [← hp', Packet.unsent_advance]
    exact drop_ne_nil hn
  out := h.out
  stream hl := by
    rw [h.stream hl]
    simp only [ConnectionQueue.pending_eq, Option.elim_some, Packet.unsent_advance]
    rw [List.append_assoc, ← List.append_assoc (p.unsent.take n), List.take_append_drop]
  drained hb := by simp at hb

/-- Taken in part by a side that is blocked already: nothing points at it. -/
theorem InHand.leaked {d : Dir} {p : Packet} (n : Nat) (sent : List Byte) (h : InHand p d)
    (hb : d.block = true) :
    Ok { d with q := { d.q with leak := d.q.leak ++ [p.advance n] }, sent := sent } where
  pkt := h.pkt
  inq := h.inq
  wait hw := by simp [h.wait] at hw
  idle hb' := by simp [hb] at hb'
  stuck _ _ := by simp
  blk p' hp' := by simp [h.blk] at hp'
  out := h.out
  stream hl := by simp at hl
  drained hb' := by simp [hb] at hb'

/-- Taken whole, with nothing left in the queue. -/
theorem InHand.last {d : Dir} {p : Packet} (h : InHand p d) (ho : d.q.outq = []) :
    Ok { d with block := false, sent := d.sent ++ p.unsent } where
  pkt := h.pkt
  inq := h.inq
  wait hw := rfl
  idle _ := h.blk
  stuck hb := by simp at hb
  blk p' hp' := by simp [h.blk] at hp'
  out := h.out
  stream hl := by simp [h.stream hl, h.blk, ho]
  drained _ _ := ho

/-- Taken whole, with another packet waiting. -/
theorem InHand.next {d : Dir} {p p' : Packet} {l : List Packet} (h : InHand p d)
    (ho : d.q.outq = p' :: l) :
    InHand p' { d with q := { d.q with outq := l }, block := false,
                       sent := d.sent ++ p.unsent } where
  pkt := h.pkt
  inq := h.inq
  blk := h.blk
  wait := h.wait
  hand := h.out p' (by simp [ho])
  out p'' hp'' := h.out p'' (by simp [ho, hp''])
  stream hl := by simp [h.stream hl, ho]

/-! ## What a `recv` does -/

/-- A received packet moved to the output queue. -/
theorem Ok.queued {d : Dir} {p : Packet} (h : Ok d) (hp : p.data ≠ []) (hs : p.sendpos = 0) :
    Ready { d with q := { d.q with outq := d.q.outq ++ [p] }, recvd := d.recvd ++ p.data } where
  pkt := h.pkt
  inq := h.inq
  wait := h.wait
  idle := h.idle
  stuck := h.stuck
  blk := h.blk
  out p' hp' := by
    simp only [List.mem_append, List.mem_singleton] at hp'
    rcases hp' with hp' | rfl
    · exact h.out p' hp'
    · simpa [Packet.unsent, hs] using hp
  stream hl := by
    rw [h.stream hl]
    simp [Packet.unsent, hs]

/-- With nothing pending, every byte received was sent. -/
theorem Ok.delivered {d : Dir} (h : Ok d) (hb : d.block = false) (hw : d.wait = false)
    (hl : d.q.leak = []) : d.recvd = d.sent := by
  simp [h.stream hl, h.idle hb, h.drained hb hw]

end Dir
end WafProxy
