import WafProxy.Senders

/-
  `_work_free_connection` — what it leaves behind

  The descriptors of the connection are closed and leave both epoll sets
  (`free_send`, `free_recv`, `free_fds`), its packets go back to the pool, and
  nothing else of the worker changes. The pointers `pkt` and `blkpkt` of its
  queues and the counter `nblocked` are left as they are.
-/

namespace WafProxy

section
variable {W : World} (site : Site) (c : Ctx)

/-! ## Closing -/

theorem mem_close_send {wi : Work} {fd : Nat} {p : Nat × Nat} :
    p ∈ (wi.close fd).sendEpfd ↔ p ∈ wi.sendEpfd ∧ p.1 ≠ fd := mem_epollRemove

theorem mem_close_recv {wi : Work} {fd : Nat} {p : Nat × Nat} :
    p ∈ (wi.close fd).recvEpfd ↔ p ∈ wi.recvEpfd ∧ p.1 ≠ fd := mem_epollRemove

theorem mem_close_fds {wi : Work} {fd g : Nat} : g ∈ (wi.close fd).fds ↔ g ∈ wi.fds ∧ g ≠ fd := by
  simp [Work.close]

theorem closeClient_s : c.closeClient.s = c.s := by
  unfold Ctx.closeClient
  split <;> rfl

theorem closeServer_s : c.closeServer.s = c.s := by
  unfold Ctx.closeServer
  split <;> rfl

theorem mem_closeClient_send {p : Nat × Nat} : p ∈ c.closeClient.wi.sendEpfd ↔
    p ∈ c.wi.sendEpfd ∧ (0 < c.s.clifd → p.1 ≠ c.s.clifd) := by
  unfold Ctx.closeClient
  split
  · next h =>
    simp only [mem_close_send, h, forall_const]
    split
    · simp only [mem_epollRemove, and_assoc, and_self]
    · rfl
  · next h => simp [h]

theorem mem_closeClient_recv {p : Nat × Nat} : p ∈ c.closeClient.wi.recvEpfd ↔
    p ∈ c.wi.recvEpfd ∧ (0 < c.s.clifd → p.1 ≠ c.s.clifd) := by
  unfold Ctx.closeClient
  split
  · next h => simp only [mem_close_recv, h, forall_const, mem_epollRemove, and_assoc, and_self]
  · next h => simp [h]

theorem mem_closeClient_fds {fd : Nat} : fd ∈ c.closeClient.wi.fds ↔
    fd ∈ c.wi.fds ∧ (0 < c.s.clifd → fd ≠ c.s.clifd) := by
  unfold Ctx.closeClient
  split
  · next h => simp only [mem_close_fds, h, forall_const]
  · next h => simp [h]

theorem mem_closeServer_send {p : Nat × Nat} : p ∈ c.closeServer.wi.sendEpfd ↔
    p ∈ c.wi.sendEpfd ∧ (0 < c.s.svrfd → p.1 ≠ c.s.svrfd) := by
  unfold Ctx.closeServer
  split
  · next h =>
    simp only [mem_close_send, h, forall_const]
    split
    · simp only [mem_epollRemove, and_assoc, and_self]
    · rfl
  · next h => simp [h]

theorem mem_closeServer_recv {p : Nat × Nat} : p ∈ c.closeServer.wi.recvEpfd ↔
    p ∈ c.wi.recvEpfd ∧ (0 < c.s.svrfd → p.1 ≠ c.s.svrfd) := by
  unfold Ctx.closeServer
  split
  · next h =>
    simp only [mem_close_recv, h, forall_const]
    split
    · rfl
    · simp only [mem_epollRemove, and_assoc, and_self]
  · next h => simp [h]

theorem mem_closeServer_fds {fd : Nat} : fd ∈ c.closeServer.wi.fds ↔
    fd ∈ c.wi.fds ∧ (0 < c.s.svrfd → fd ≠ c.s.svrfd) := by
  unfold Ctx.closeServer
  split
  · next h => simp only [mem_close_fds, h, forall_const]
  · next h => simp [h]

/-! ## The whole call -/

/-- The worker and the connection when both sockets are closed. -/
def Ctx.closed (c : Ctx) : Ctx := (c.call .freeConnection).closeClient.closeServer

theorem closed_s : c.closed.s = c.s := by
  rw [Ctx.closed, closeServer_s, closeClient_s]
  rfl

theorem workFreeConnection_eq : workFreeConnection site c =
    (workCleanConnection .svr (workCleanConnection .cli c.closed)).delete site c.s := rfl

theorem closeClient_wi : ∃ send recv fds, c.closeClient.wi =
    { c.wi with sendEpfd := send, recvEpfd := recv, fds := fds } := by
  unfold Ctx.closeClient
  split
  · exact ⟨_, _, _, rfl⟩
  · exact ⟨_, _, _, rfl⟩

theorem closeServer_wi : ∃ send recv fds, c.closeServer.wi =
    { c.wi with sendEpfd := send, recvEpfd := recv, fds := fds } := by
  unfold Ctx.closeServer
  split
  · exact ⟨_, _, _, rfl⟩
  · exact ⟨_, _, _, rfl⟩

theorem closed_wi : ∃ send recv fds, c.closed.wi =
    { (c.call .freeConnection).wi with sendEpfd := send, recvEpfd := recv, fds := fds } := by
  obtain ⟨s1, r1, f1, h1⟩ := closeClient_wi (c.call .freeConnection)
  obtain ⟨s2, r2, f2, h2⟩ := closeServer_wi (c.call .freeConnection).closeClient
  exact ⟨s2, r2, f2, by rw [Ctx.closed, h2, h1]⟩

/-- What the call leaves of the connection. -/
theorem free_s : (workFreeConnection site c).s =
    { c.s with
      cliq := { c.s.cliq with inq := [], outq := [] }
      svrq := { c.s.svrq with inq := [], outq := [] }
      nalloced := c.s.nalloced - c.s.cliq.owned.length - c.s.svrq.owned.length } := by
  rw [workFreeConnection_eq]
  have hs := closed_s c
  generalize c.closed = d at hs
  obtain ⟨wi, s⟩ := d
  simp only at hs
  subst hs
  rfl

/-- What the call leaves of the worker, the epoll sets and descriptors apart. -/
theorem free_wi : ∃ send recv fds stat, (workFreeConnection site c).wi =
    { c.wi with
      sendEpfd := send
      recvEpfd := recv
      fds := fds
      stat := stat
      sesstbl := c.wi.sesstbl.delSlot c.s.id
      puts := c.wi.puts ++ c.s.cliq.owned.map Packet.id ++ c.s.svrq.owned.map Packet.id
      calls := c.wi.calls ++ [(.freeConnection, c.s.serial), (.cleanConnection, c.s.serial),
        (.cleanConnection, c.s.serial)]
      freed := c.wi.freed ++
        [⟨site, c.s, c.s.nalloced - c.s.cliq.owned.length - c.s.svrq.owned.length⟩] } := by
  rw [workFreeConnection_eq]
  obtain ⟨send, recv, fds, hw⟩ := closed_wi c
  have hs := closed_s c
  generalize c.closed = d at hs hw
  obtain ⟨wi, s⟩ := d
  simp only at hs hw
  subst hs hw
  refine ⟨send, recv, fds, { c.wi.stat with nowlive := c.wi.stat.nowlive - 1 }, ?_⟩
  simp only [workCleanConnection, Ctx.call, Ctx.delete, Connection.setQ, Connection.q,
    ConnectionQueue.owned, List.append_assoc, List.cons_append, List.nil_append]

/-- Neither set keeps a registration of the connection, nor loses another. -/
theorem free_send {c : Ctx} (h : Closable W c.wi.sendEpfd c.wi.recvEpfd c.wi.fds c.s.socks)
    (p : Nat × Nat) : p ∈ (workFreeConnection site c).wi.sendEpfd ↔ p ∈ W.send := by
  have hmem : (workFreeConnection site c).wi.sendEpfd = c.closed.wi.sendEpfd := by
    rw [workFreeConnection_eq]
    generalize c.closed = d
    rfl
  rw [hmem, Ctx.closed, mem_closeServer_send, closeClient_s, mem_closeClient_send, and_assoc]
  constructor
  · rintro ⟨hp, hc, hs⟩
    rcases h.sendOwn p hp with hw | ⟨h0, hf | hf⟩
    · exact hw
    · exact absurd hf (hc (Nat.lt_of_lt_of_eq h0 hf))
    · exact absurd hf (hs (Nat.lt_of_lt_of_eq h0 hf))
  · intro hw
    exact ⟨h.sendKept p hw, h.other_cli (.inl hw), h.other_svr (.inl hw)⟩

theorem free_recv {c : Ctx} (h : Closable W c.wi.sendEpfd c.wi.recvEpfd c.wi.fds c.s.socks)
    (p : Nat × Nat) : p ∈ (workFreeConnection site c).wi.recvEpfd ↔ p ∈ W.recv := by
  have hmem : (workFreeConnection site c).wi.recvEpfd = c.closed.wi.recvEpfd := by
    rw [workFreeConnection_eq]
    generalize c.closed = d
    rfl
  rw [hmem, Ctx.closed, mem_closeServer_recv, closeClient_s, mem_closeClient_recv, and_assoc]
  constructor
  · rintro ⟨hp, hc, hs⟩
    rcases h.recvOwn p hp with hw | ⟨h0, hf | hf⟩
    · exact hw
    · exact absurd hf (hc (Nat.lt_of_lt_of_eq h0 hf))
    · exact absurd hf (hs (Nat.lt_of_lt_of_eq h0 hf))
  · intro hw
    exact ⟨h.recvKept p hw, h.other_cli (.inr hw), h.other_svr (.inr hw)⟩

/-- The descriptors of the connection are closed, and only they are. -/
theorem free_fds {c : Ctx} (h : Closable W c.wi.sendEpfd c.wi.recvEpfd c.wi.fds c.s.socks)
    (fd : Nat) : fd ∈ (workFreeConnection site c).wi.fds ↔ fd ∈ W.fds := by
  have hmem : (workFreeConnection site c).wi.fds = c.closed.wi.fds := by
    rw [workFreeConnection_eq]
    generalize c.closed = d
    rfl
  rw [hmem, Ctx.closed, mem_closeServer_fds, closeClient_s, mem_closeClient_fds, and_assoc]
  change fd ∈ c.wi.fds ∧ _ ↔ _
  rw [h.fds]
  constructor
  · rintro ⟨hw | ⟨h0, hf | hf⟩, hc, hs⟩
    · exact hw
    · exact absurd hf (hc (Nat.lt_of_lt_of_eq h0 hf))
    · exact absurd hf (hs (Nat.lt_of_lt_of_eq h0 hf))
  · intro hw
    refine ⟨.inl hw, fun h0 hc => ?_, fun h0 hs => ?_⟩
    · exact h.fresh fd ⟨hc ▸ h0, .inl hc⟩ hw
    · exact h.fresh fd ⟨hs ▸ h0, .inr hs⟩ hw

end

end WafProxy
