import Mathlib.Data.Multiset.Range
import Mathlib.Algebra.Order.Group.Multiset
import Mathlib.Data.Multiset.AddSub
import WafProxy.Direction
import WafProxy.Worker

/-
  What a worker holds while it handles one connection

  A worker function sees one connection and changes, beside it, what the worker
  shares between connections: the pool, the blocked counter, the epoll sets and
  the open descriptors. `World` is the part of those the other connections
  account for. Three conditions tie it to the worker and to the connection in
  hand, and every worker function keeps them:
    1. `Acct` — each packet taken from the pool is accounted for once;
       `nalloced` and `nblocked` count the packets and the flags.
    2. `Registered` — what is in the epoll sets, as the flags tell it.
    3. `Closable` — the part of 2 that also a failed call leaves, enough for
       `_work_free_connection` to leave no registration behind.

  `Frame` says what no worker function but `_work_free_connection` changes.
-/

namespace WafProxy

def ids (l : List Packet) : Multiset Nat := ↑(l.map Packet.id)

@[simp] theorem ids_nil : ids [] = 0 := rfl

@[simp] theorem ids_cons (p : Packet) (l : List Packet) : ids (p :: l) = {p.id} + ids l := rfl

@[simp] theorem ids_append (l m : List Packet) : ids (l ++ m) = ids l + ids m := by
  simp only [ids, List.map_append, ← Multiset.coe_add]

/-- The packets a connection leaked. -/
def Connection.leaked (s : Connection) : List Packet := s.cliq.leak ++ s.svrq.leak

/-- The packets a connection took and did not give back. -/
def Connection.held (s : Connection) : List Packet := s.owned ++ s.leaked

theorem Connection.ids_held (s : Connection) : ids s.held =
    (ids s.cliq.pkt.toList + ids s.cliq.blkpkt.toList + ids s.cliq.inq + ids s.cliq.outq) +
    (ids s.svrq.pkt.toList + ids s.svrq.blkpkt.toList + ids s.svrq.inq + ids s.svrq.outq) +
    (ids s.cliq.leak + ids s.svrq.leak) := by
  simp only [Connection.held, Connection.leaked, Connection.owned, ConnectionQueue.owned, ids_append]

/-- How many of the three flags that count in `nblocked` are set. -/
def Connection.nflags (s : Connection) : Nat :=
  s.isCliblock.toNat + s.isSvrblock.toNat + s.isSvrwait.toNat

/-- What the rest of the worker accounts for. -/
structure World where
  pkts : Multiset Nat
  blocked : Int
  send : Set (Nat × Nat)
  recv : Set (Nat × Nat)
  fds : Set Nat

/-! ## Packets and counters -/

/-- `hand` is what the running function holds beside the connection's queues. -/
structure Acct (W : World) (c : Ctx) (hand : List Packet) : Prop where
  nalloced : c.s.nalloced = (hand ++ c.s.held).length
  taken : Multiset.range c.wi.nextPkt = ↑c.wi.puts + ids (hand ++ c.s.held) + W.pkts
  blocked : c.wi.nblocked = c.s.nflags + W.blocked

theorem ids_card (l : List Packet) : Multiset.card (ids l) = l.length := by
  simp only [ids, Multiset.coe_card, List.length_map]

/-- A packet that only moves from one place of the connection to another, or
to the running function, stays accounted for. -/
theorem Acct.moved {W : World} {c c' : Ctx} {hand hand' : List Packet} (h : Acct W c hand)
    (hn : c'.wi.nextPkt = c.wi.nextPkt) (hp : c'.wi.puts = c.wi.puts)
    (ha : c'.s.nalloced = c.s.nalloced)
    (hb : c'.wi.nblocked - c'.s.nflags = c.wi.nblocked - c.s.nflags)
    (hm : ids (hand' ++ c'.s.held) = ids (hand ++ c.s.held)) : Acct W c' hand' where
  nalloced := by rw [ha, h.nalloced, ← ids_card, ← ids_card, hm]
  taken := by rw [hn, hp, hm, h.taken]
  blocked := by
    have := h.blocked
    omega

theorem Acct.put {W : World} {c : Ctx} {p : Packet} {hand : List Packet}
    (h : Acct W c (p :: hand)) : Acct W (c.put p) hand where
  nalloced := by
    have hn : c.s.nalloced = ((p :: hand) ++ c.s.held).length := h.nalloced
    change c.s.nalloced - 1 = (hand ++ c.s.held).length
    simp only [List.cons_append, List.length_cons] at hn
    omega
  taken := by
    change Multiset.range c.wi.nextPkt =
      ((c.wi.puts ++ [p.id] : List Nat) : Multiset Nat) + ids (hand ++ c.s.held) + W.pkts
    rw [← Multiset.coe_add, h.taken, List.cons_append, ids_cons, Multiset.coe_singleton]
    ac_rfl
  blocked := h.blocked

/-! ## Epoll sets and descriptors -/

/-- The fields of a connection its registrations depend on. -/
structure Socks where
  id : Nat
  clifd : Nat
  svrfd : Nat
  cliblock : Bool
  svrblock : Bool
  svrwait : Bool

def Connection.socks (s : Connection) : Socks :=
  ⟨s.id, s.clifd, s.svrfd, s.isCliblock, s.isSvrblock, s.isSvrwait⟩

namespace Socks

def hasFd (k : Socks) (fd : Nat) : Prop := 0 < fd ∧ (fd = k.clifd ∨ fd = k.svrfd)

/-- The descriptors that belong in `send_epfd`. -/
def inSend (k : Socks) (fd : Nat) : Prop :=
  0 < fd ∧ (fd = k.clifd ∧ k.cliblock = true ∨
    fd = k.svrfd ∧ (k.svrblock = true ∨ k.svrwait = true))

/-- The descriptors that belong in `recv_epfd`. -/
def inRecv (k : Socks) (fd : Nat) : Prop :=
  0 < fd ∧ (fd = k.clifd ∨ fd = k.svrfd ∧ k.svrwait = false)

theorem inSend_hasFd {k : Socks} {fd : Nat} (h : k.inSend fd) : k.hasFd fd :=
  ⟨h.1, h.2.elim (fun h => .inl h.1) (fun h => .inr h.1)⟩

theorem inRecv_hasFd {k : Socks} {fd : Nat} (h : k.inRecv fd) : k.hasFd fd :=
  ⟨h.1, h.2.elim .inl (fun h => .inr h.1)⟩

end Socks

/-- The registrations of the other connections stay, this one's own are on its
own descriptors, and the two do not share a descriptor. -/
structure Closable (W : World) (send recv : EpollSet) (fds : List Nat) (k : Socks) : Prop where
  sendKept : ∀ p ∈ W.send, p ∈ send
  sendOwn : ∀ p ∈ send, p ∈ W.send ∨ k.hasFd p.1
  recvKept : ∀ p ∈ W.recv, p ∈ recv
  recvOwn : ∀ p ∈ recv, p ∈ W.recv ∨ k.hasFd p.1
  fds : ∀ fd, fd ∈ fds ↔ fd ∈ W.fds ∨ k.hasFd fd
  fresh : ∀ fd, k.hasFd fd → fd ∉ W.fds
  others : ∀ p, p ∈ W.send ∨ p ∈ W.recv → p.1 ∈ W.fds

/-- Between calls: the sets hold what the flags say. -/
structure Registered (W : World) (send recv : EpollSet) (fds : List Nat) (k : Socks) : Prop where
  send : ∀ p, p ∈ send ↔ p ∈ W.send ∨ (p.2 = k.id ∧ k.inSend p.1)
  recv : ∀ p, p ∈ recv ↔ p ∈ W.recv ∨ (p.2 = k.id ∧ k.inRecv p.1)
  fds : ∀ fd, fd ∈ fds ↔ fd ∈ W.fds ∨ k.hasFd fd
  fresh : ∀ fd, k.hasFd fd → fd ∉ W.fds
  others : ∀ p, p ∈ W.send ∨ p ∈ W.recv → p.1 ∈ W.fds
  cli : 0 < k.clifd
  ne : k.svrfd ≠ k.clifd

namespace Closable
variable {W : World} {send recv : EpollSet} {fds : List Nat} {k : Socks}

theorem other_cli (h : Closable W send recv fds k) {p : Nat × Nat} (hp : p ∈ W.send ∨ p ∈ W.recv)
    (h0 : 0 < k.clifd) : p.1 ≠ k.clifd :=
  fun hc => h.fresh _ ⟨hc ▸ h0, .inl hc⟩ (h.others p hp)

theorem other_svr (h : Closable W send recv fds k) {p : Nat × Nat} (hp : p ∈ W.send ∨ p ∈ W.recv)
    (h0 : 0 < k.svrfd) : p.1 ≠ k.svrfd :=
  fun hs => h.fresh _ ⟨hs ▸ h0, .inr hs⟩ (h.others p hp)

/-- The flags do not matter once a call has failed. -/
theorem flags (h : Closable W send recv fds k) (c b w : Bool) :
    Closable W send recv fds { k with cliblock := c, svrblock := b, svrwait := w } :=
  ⟨h.sendKept, h.sendOwn, h.recvKept, h.recvOwn, h.fds, h.fresh, h.others⟩

end Closable

theorem mem_epollRemove {ep : EpollSet} {fd : Nat} {p : Nat × Nat} :
    p ∈ epollRemove ep fd ↔ p ∈ ep ∧ p.1 ≠ fd := by
  simp [epollRemove]

theorem epollAdd_some {ok : Bool} {ep ep' : EpollSet} {fd id : Nat}
    (h : epollAdd ok ep fd id = some ep') : ep' = (fd, id) :: ep := by
  unfold epollAdd at h
  split at h
  · exact (Option.some.inj h).symm
  · simp at h

theorem epollDel_some {ok : Bool} {ep ep' : EpollSet} {fd : Nat}
    (h : epollDel ok ep fd = some ep') : ep' = epollRemove ep fd := by
  unfold epollDel at h
  split at h
  · exact (Option.some.inj h).symm
  · simp at h

theorem epollAdd_ok {ep : EpollSet} {fd id : Nat} (h : ∀ p ∈ ep, p.1 ≠ fd) :
    epollAdd true ep fd id = some ((fd, id) :: ep) := by
  unfold epollAdd
  rw [if_pos]
  refine ⟨rfl, fun hm => ?_⟩
  obtain ⟨p, hp, rfl⟩ := List.mem_map.mp hm
  exact h p hp rfl

theorem epollDel_ok {ep : EpollSet} {fd id : Nat} (h : (fd, id) ∈ ep) :
    epollDel true ep fd = some (epollRemove ep fd) := by
  unfold epollDel
  rw [if_pos ⟨rfl, List.mem_map.mpr ⟨_, h, rfl⟩⟩]

@[simp] theorem epollAdd_false (ep : EpollSet) (fd id : Nat) : epollAdd false ep fd id = none := by
  simp [epollAdd]

@[simp] theorem epollDel_false (ep : EpollSet) (fd : Nat) : epollDel false ep fd = none := by
  simp [epollDel]

namespace Registered
variable {W : World} {send recv : EpollSet} {fds : List Nat} {k : Socks}

theorem closable (h : Registered W send recv fds k) : Closable W send recv fds k where
  sendKept p hp := (h.send p).mpr (.inl hp)
  sendOwn p hp := ((h.send p).mp hp).imp_right fun ⟨_, hs⟩ => Socks.inSend_hasFd hs
  recvKept p hp := (h.recv p).mpr (.inl hp)
  recvOwn p hp := ((h.recv p).mp hp).imp_right fun ⟨_, hr⟩ => Socks.inRecv_hasFd hr
  fds := h.fds
  fresh := h.fresh
  others := h.others

/-- A descriptor of the connection whose flags are clear is not in `send_epfd`. -/
theorem not_in_send (h : Registered W send recv fds k) {fd : Nat} (hf : k.hasFd fd)
    (hs : ¬ k.inSend fd) : ∀ p ∈ send, p.1 ≠ fd := by
  rintro p hp rfl
  rcases (h.send p).mp hp with hw | ⟨_, hi⟩
  · exact h.fresh _ hf (h.others p (.inl hw))
  · exact hs hi

theorem not_in_recv (h : Registered W send recv fds k) {fd : Nat} (hf : k.hasFd fd)
    (hs : ¬ k.inRecv fd) : ∀ p ∈ recv, p.1 ≠ fd := by
  rintro p hp rfl
  rcases (h.recv p).mp hp with hw | ⟨_, hi⟩
  · exact h.fresh _ hf (h.others p (.inr hw))
  · exact hs hi

/-- What is registered is open. -/
theorem not_open_send (h : Registered W send recv fds k) {fd : Nat} (hf : fd ∉ fds) :
    ∀ p ∈ send, p.1 ≠ fd := by
  rintro p hp rfl
  refine hf ((h.fds _).mpr ?_)
  exact ((h.send p).mp hp).imp (fun hw => h.others p (.inl hw)) fun hs => Socks.inSend_hasFd hs.2

theorem not_open_recv (h : Registered W send recv fds k) {fd : Nat} (hf : fd ∉ fds) :
    ∀ p ∈ recv, p.1 ≠ fd := by
  rintro p hp rfl
  refine hf ((h.fds _).mpr ?_)
  exact ((h.recv p).mp hp).imp (fun hw => h.others p (.inr hw)) fun hr => Socks.inRecv_hasFd hr.2

/-- A registration of another connection is on none of this one's descriptors. -/
theorem other_fd (h : Registered W send recv fds k) {fd : Nat} (hf : k.hasFd fd) {p : Nat × Nat}
    (hp : p ∈ W.send ∨ p ∈ W.recv) : p.1 ≠ fd := by
  rintro rfl
  exact h.fresh _ hf (h.others p hp)

theorem blockCli (h : Registered W send recv fds k) :
    Registered W ((k.clifd, k.id) :: send) recv fds { k with cliblock := true } where
  send p := by
    rw [List.mem_cons, h.send]
    constructor
    · rintro (rfl | hw | ⟨hid, h0, hs⟩)
      · exact .inr ⟨rfl, h.cli, .inl ⟨rfl, rfl⟩⟩
      · exact .inl hw
      · exact .inr ⟨hid, h0, hs.imp_left fun hc => ⟨hc.1, rfl⟩⟩
    · rintro (hw | ⟨hid, h0, ⟨hc, _⟩ | hs⟩)
      · exact .inr (.inl hw)
      · exact .inl (Prod.ext hc hid)
      · exact .inr (.inr ⟨hid, h0, .inr hs⟩)
  recv := h.recv
  fds := h.fds
  fresh := h.fresh
  others := h.others
  cli := h.cli
  ne := h.ne

theorem unblockCli (h : Registered W send recv fds k) :
    Registered W (epollRemove send k.clifd) recv fds { k with cliblock := false } where
  send p := by
    rw [mem_epollRemove, h.send]
    constructor
    · rintro ⟨hw | ⟨hid, h0, ⟨hc, _⟩ | hs⟩, hne⟩
      · exact .inl hw
      · exact absurd hc hne
      · exact .inr ⟨hid, h0, .inr hs⟩
    · rintro (hw | ⟨hid, h0, ⟨_, hc⟩ | hs⟩)
      · exact ⟨.inl hw, h.other_fd ⟨h.cli, .inl rfl⟩ (.inl hw)⟩
      · simp at hc
      · exact ⟨.inr ⟨hid, h0, .inr hs⟩, fun hc => h.ne (hs.1.symm.trans hc)⟩
  recv := h.recv
  fds := h.fds
  fresh := h.fresh
  others := h.others
  cli := h.cli
  ne := h.ne

theorem blockSvr (h : Registered W send recv fds k) (h0 : 0 < k.svrfd) :
    Registered W ((k.svrfd, k.id) :: send) recv fds { k with svrblock := true } where
  send p := by
    rw [List.mem_cons, h.send]
    constructor
    · rintro (rfl | hw | ⟨hid, h0, hs⟩)
      · exact .inr ⟨rfl, h0, .inr ⟨rfl, .inl rfl⟩⟩
      · exact .inl hw
      · exact .inr ⟨hid, h0, hs.imp_right fun hc => ⟨hc.1, .inl rfl⟩⟩
    · rintro (hw | ⟨hid, h0, hs | ⟨hc, _⟩⟩)
      · exact .inr (.inl hw)
      · exact .inr (.inr ⟨hid, h0, .inl hs⟩)
      · exact .inl (Prod.ext hc hid)
  recv := h.recv
  fds := h.fds
  fresh := h.fresh
  others := h.others
  cli := h.cli
  ne := h.ne

/-- The server side leaves `send_epfd` with the last of its two flags. -/
theorem unregisterSvr (h : Registered W send recv fds k) (h0 : 0 < k.svrfd) (p : Nat × Nat) :
    p ∈ epollRemove send k.svrfd ↔
      p ∈ W.send ∨ (p.2 = k.id ∧ 0 < p.1 ∧ p.1 = k.clifd ∧ k.cliblock = true) := by
  rw [mem_epollRemove, h.send]
  constructor
  · rintro ⟨hw | ⟨hid, h0, hc | ⟨hs, _⟩⟩, hne⟩
    · exact .inl hw
    · exact .inr ⟨hid, h0, hc⟩
    · exact absurd hs hne
  · rintro (hw | ⟨hid, h0, hc, hb⟩)
    · exact ⟨.inl hw, h.other_fd ⟨h0, .inr rfl⟩ (.inl hw)⟩
    · exact ⟨.inr ⟨hid, h0, .inl ⟨hc, hb⟩⟩, fun hs => h.ne (hs.symm.trans hc)⟩

theorem unblockSvr (h : Registered W send recv fds k) (h0 : 0 < k.svrfd)
    (hw : k.svrwait = false) :
    Registered W (epollRemove send k.svrfd) recv fds { k with svrblock := false } where
  send p := by
    rw [h.unregisterSvr h0]
    simp [Socks.inSend, hw]
  recv := h.recv
  fds := h.fds
  fresh := h.fresh
  others := h.others
  cli := h.cli
  ne := h.ne

/-- The completed connect of `_work_check_server`. -/
theorem connected (h : Registered W send recv fds k) (h0 : 0 < k.svrfd)
    (hb : k.svrblock = false) :
    Registered W (epollRemove send k.svrfd) ((k.svrfd, k.id) :: recv) fds
      { k with svrwait := false } where
  send p := by
    rw [h.unregisterSvr h0]
    simp [Socks.inSend, hb]
  recv p := by
    rw [List.mem_cons, h.recv]
    constructor
    · rintro (rfl | hr | ⟨hid, h0, hr⟩)
      · exact .inr ⟨rfl, h0, .inr ⟨rfl, rfl⟩⟩
      · exact .inl hr
      · exact .inr ⟨hid, h0, hr.imp_right fun hs => ⟨hs.1, rfl⟩⟩
    · rintro (hr | ⟨hid, h0, hc | ⟨hs, _⟩⟩)
      · exact .inr (.inl hr)
      · exact .inr (.inr ⟨hid, h0, .inl hc⟩)
      · exact .inl (Prod.ext hs hid)
  fds := h.fds
  fresh := h.fresh
  others := h.others
  cli := h.cli
  ne := h.ne

variable {fd : Nat}

/-- What opening a server socket does to the descriptors, whatever set it is
registered in. -/
theorem opened_fds (h : Registered W send recv fds k) (hs : k.svrfd = 0) (h0 : 0 < fd) (g : Nat) :
    g ∈ fd :: fds ↔ g ∈ W.fds ∨ { k with svrfd := fd }.hasFd g := by
  rw [List.mem_cons, h.fds]
  constructor
  · rintro (rfl | hg | ⟨hg, hc | hs'⟩)
    · exact .inr ⟨h0, .inr rfl⟩
    · exact .inl hg
    · exact .inr ⟨hg, .inl hc⟩
    · omega
  · rintro (hg | ⟨hg, hc | hs'⟩)
    · exact .inr (.inl hg)
    · exact .inr (.inr ⟨hg, .inl hc⟩)
    · exact .inl hs'

theorem opened_fresh (h : Registered W send recv fds k) (hf : fd ∉ fds) (g : Nat)
    (hg : { k with svrfd := fd }.hasFd g) : g ∉ W.fds := by
  rcases hg with ⟨h0, hc | rfl⟩
  · exact h.fresh g ⟨h0, .inl hc⟩
  · exact fun hw => hf ((h.fds _).mpr (.inl hw))

theorem opened_ne (h : Registered W send recv fds k) (hf : fd ∉ fds) : fd ≠ k.clifd := by
  rintro rfl
  exact hf ((h.fds _).mpr (.inr ⟨h.cli, .inl rfl⟩))

/-- `_work_get_server` with a connect in progress. -/
theorem connecting (h : Registered W send recv fds k) (hs : k.svrfd = 0)
    (h0 : 0 < fd) (hf : fd ∉ fds) :
    Registered W ((fd, k.id) :: send) recv (fd :: fds)
      { k with svrfd := fd, svrwait := true } where
  send p := by
    rw [List.mem_cons, h.send]
    constructor
    · rintro (rfl | hp | ⟨hid, h0, hc | ⟨hs', _⟩⟩)
      · exact .inr ⟨rfl, h0, .inr ⟨rfl, .inr rfl⟩⟩
      · exact .inl hp
      · exact .inr ⟨hid, h0, .inl hc⟩
      · omega
    · rintro (hp | ⟨hid, h0, hc | ⟨hs', _⟩⟩)
      · exact .inr (.inl hp)
      · exact .inr (.inr ⟨hid, h0, .inl hc⟩)
      · exact .inl (Prod.ext hs' hid)
  recv p := by
    rw [h.recv]
    simp only [Socks.inRecv, hs]
    constructor
    · rintro (hp | ⟨hid, h0, hc | ⟨hs', _⟩⟩)
      · exact .inl hp
      · exact .inr ⟨hid, h0, .inl hc⟩
      · omega
    · rintro (hp | ⟨hid, h0, hc | ⟨_, hw⟩⟩)
      · exact .inl hp
      · exact .inr ⟨hid, h0, .inl hc⟩
      · simp at hw
  fds := h.opened_fds hs h0
  fresh := h.opened_fresh hf
  others := h.others
  cli := h.cli
  ne := h.opened_ne hf

/-- `_work_get_server` with a connect that completed at once. -/
theorem connectedAtOnce (h : Registered W send recv fds k) (hs : k.svrfd = 0)
    (hb : k.svrblock = false) (hw : k.svrwait = false) (h0 : 0 < fd) (hf : fd ∉ fds) :
    Registered W send ((fd, k.id) :: recv) (fd :: fds) { k with svrfd := fd } where
  send p := by
    rw [h.send]
    simp [Socks.inSend, hb, hw]
  recv p := by
    rw [List.mem_cons, h.recv]
    constructor
    · rintro (rfl | hp | ⟨hid, h0, hc | ⟨hs', _⟩⟩)
      · exact .inr ⟨rfl, h0, .inr ⟨rfl, hw⟩⟩
      · exact .inl hp
      · exact .inr ⟨hid, h0, .inl hc⟩
      · omega
    · rintro (hp | ⟨hid, h0, hc | ⟨hs', _⟩⟩)
      · exact .inr (.inl hp)
      · exact .inr (.inr ⟨hid, h0, .inl hc⟩)
      · exact .inl (Prod.ext hs' hid)
  fds := h.opened_fds hs h0
  fresh := h.opened_fresh hf
  others := h.others
  cli := h.cli
  ne := h.opened_ne hf

end Registered

/-! ## What the worker functions leave alone -/

/-- Only `_work_free_connection` changes the table; no function renames the
connection, and what one calls is called on that connection. -/
structure Frame (c c' : Ctx) : Prop where
  max : c'.wi.max = c.wi.max
  inq : c'.wi.inq = c.wi.inq
  sesstbl : c'.wi.sesstbl = c.wi.sesstbl
  nextSerial : c'.wi.nextSerial = c.wi.nextSerial
  freed : c'.wi.freed = c.wi.freed
  id : c'.s.id = c.s.id
  clifd : c'.s.clifd = c.s.clifd
  serial : c'.s.serial = c.s.serial
  calls : ∃ l, c'.wi.calls = c.wi.calls ++ l ∧ ∀ e ∈ l, e.1 ≠ .freeConnection ∧ e.2 = c.s.serial

/-- A change that shows in none of the fields a `Frame` is about. -/
theorem Frame.same {c c' : Ctx}
    (hw : (c'.wi.max, c'.wi.inq, c'.wi.sesstbl, c'.wi.nextSerial, c'.wi.freed, c'.wi.calls) =
      (c.wi.max, c.wi.inq, c.wi.sesstbl, c.wi.nextSerial, c.wi.freed, c.wi.calls))
    (hs : (c'.s.id, c'.s.clifd, c'.s.serial) = (c.s.id, c.s.clifd, c.s.serial)) : Frame c c' := by
  simp only [Prod.mk.injEq] at hw hs
  obtain ⟨h1, h2, h3, h4, h5, h6⟩ := hw
  obtain ⟨h7, h8, h9⟩ := hs
  exact ⟨h1, h2, h3, h4, h5, h7, h8, h9, [], by simp [h6], by simp⟩

theorem Frame.refl (c : Ctx) : Frame c c := .same rfl rfl

theorem Frame.trans {c c' c'' : Ctx} (h : Frame c c') (h' : Frame c' c'') : Frame c c'' where
  max := h'.max.trans h.max
  inq := h'.inq.trans h.inq
  sesstbl := h'.sesstbl.trans h.sesstbl
  nextSerial := h'.nextSerial.trans h.nextSerial
  freed := h'.freed.trans h.freed
  id := h'.id.trans h.id
  clifd := h'.clifd.trans h.clifd
  serial := h'.serial.trans h.serial
  calls := by
    obtain ⟨l, hl, hs⟩ := h.calls
    obtain ⟨m, hm, ht⟩ := h'.calls
    refine ⟨l ++ m, by rw [hm, hl, List.append_assoc], fun e he => ?_⟩
    rcases List.mem_append.mp he with he | he
    · exact hs e he
    · exact ⟨(ht e he).1, (ht e he).2.trans h.serial⟩

theorem Frame.call (c : Ctx) {f : WorkFn} (hf : f ≠ .freeConnection) : Frame c (c.call f) :=
  ⟨rfl, rfl, rfl, rfl, rfl, rfl, rfl, rfl, [(f, c.s.serial)], rfl, by simp [hf]⟩

end WafProxy
