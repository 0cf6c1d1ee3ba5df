import WafProxy.Lifetime

/-
  Orderly close — what was received from a peer that closed has been sent on

  The server's close is read only while the client's side is idle, so nothing
  is left then. The client's close is read while the server's side is not
  blocked, but also while the connect to the server is in progress: the request
  then still waits in `cliq.outq`, and the close frees it (`halfCloseRun`).

  A short retry loses bytes here only when more packets are queued behind it:
  otherwise the side stays blocked for good and the client's close is never
  read (`LeakStalls`).
-/

namespace WafProxy
open Lib ConnectionTable

/-- No call the event makes the worker do for `s` reports an error. -/
structure Healthy (a : Answers) (e : Event) (wi : Work) (s : Connection) : Prop where
  err : e.err = false
  pool : a.pool = true
  recv : a.recv ≠ .error
  connect : s.svrfd = 0 → (skTcpClientNb a.connect wi.fds).isSome
  connected : a.connected = true
  sends : ∀ r ∈ a.sends, r ≠ .error
  epoll : a.addSvr = true ∧ a.delWait = true ∧ a.addConn = true ∧ a.addBlk = true ∧ a.delBlk = true

instance (a : Answers) (e : Event) (wi : Work) (s : Connection) : Decidable (Healthy a e wi s) :=
  decidable_of_iff (e.err = false ∧ a.pool = true ∧ a.recv ≠ .error ∧
      (s.svrfd = 0 → (skTcpClientNb a.connect wi.fds).isSome) ∧ a.connected = true ∧
      (∀ r ∈ a.sends, r ≠ .error) ∧
      (a.addSvr = true ∧ a.delWait = true ∧ a.addConn = true ∧ a.addBlk = true ∧ a.delBlk = true))
    ⟨fun ⟨h1, h2, h3, h4, h5, h6, h7⟩ => ⟨h1, h2, h3, h4, h5, h6, h7⟩,
      fun h => ⟨h.err, h.pool, h.recv, h.connect, h.connected, h.sends, h.epoll⟩⟩

/-- No call of an event reports an error. -/
def NoErrors (st : WorkState) (i : WorkInput) : Prop :=
  st.OnSend i (fun a e s => Healthy a e st.wi s) ∧ st.OnRecv i fun a e s => Healthy a e st.wi s

instance (st : WorkState) (i : WorkInput) : Decidable (NoErrors st i) :=
  inferInstanceAs (Decidable (st.OnSend i _ ∧ st.OnRecv i _))

/-- A connection freed by the orderly close of a peer had sent on all it
received from that peer. -/
structure Delivered (s : Connection) : Prop where
  cli : s.isCliclose = true → s.wire.cliRecv = s.wire.svrSent
  svr : s.isSvrclose = true → s.wire.svrRecv = s.wire.cliSent

/-- No receive event finds the client's close while a request waits for the
connect, and no send event finds a blocked server ready for a part of its packet
with more packets behind it. -/
def ClosesOrderly (st : WorkState) (i : WorkInput) : Prop :=
  st.OnSend i (fun a e s => ¬ RetryShortMore a e s) ∧ st.OnRecv i fun a e s => ¬ CloseLosesAt a e s

instance (st : WorkState) (i : WorkInput) : Decidable (ClosesOrderly st i) :=
  inferInstanceAs (Decidable (st.OnSend i _ ∧ st.OnRecv i _))

theorem Dropped.delivered {W : World} {r : Risk} {c d : Ctx} (h : Dropped W r c d)
    (hl : ¬ r.loses) (hs : LeakStalls c.s) : Delivered d.s :=
  ⟨fun hc => h.cliclose hc hl hs, h.svrclose⟩

theorem delivered_rule : StepRule ClosesOrderly LeakStalls (fun f => Delivered f.conn) where
  new _ _ _ hne := absurd rfl hne
  refused _ _ := ⟨fun _ => rfl, fun _ => rfl⟩
  sendKept _ _ _ _ _ _ hc hb hs hk hp := hk.stalls (hc.1 _ (WorkState.next_eq hb hs)) hp
  sendFreed _ _ _ _ _ _ _ _ _ _ _ hd hp := hd.delivered id hp
  recvKept _ _ _ _ _ _ _ _ _ hk hp := hk.stalls id hp
  recvFreed _ _ _ _ _ _ _ hc hb hs _ hd hp :=
    hd.delivered (hc.2 _ (WorkState.next_eq hb hs)) hp

/-- **A connection freed by an orderly close has lost nothing of that peer.** -/
theorem orderlyClose_run {max nwork : Nat} {is : List WorkInput} {st : WorkState}
    (hm : (worker max nwork).Meets ClosesOrderly (worker max nwork).init is)
    (h : workRun max nwork is = some st) : ∀ f ∈ st.wi.freed, Delivered f.conn :=
  (delivered_rule.run hm h).freed

theorem orderlyClose_closeRun : ∃ st, workRun 4 1 closeRun = some st ∧
    st.wi.freed.map (fun f => f.conn.isCliclose) = [true] ∧ ∀ f ∈ st.wi.freed, Delivered f.conn := by
  have hm : (worker 4 1).Meets ClosesOrderly (worker 4 1).init closeRun := by decide
  have hend : (workRun 4 1 closeRun).map (fun st => st.wi.freed.map fun f => f.conn.isCliclose) =
      some [true] := by decide
  obtain ⟨st, h, hst⟩ := Option.map_eq_some_iff.mp hend
  exact ⟨st, h, hst, orderlyClose_run hm h⟩

/-- A client sends its request and closes its side while the connect is in
progress. -/
def halfCloseRun : List WorkInput :=
  [.addConnection { fd := 5 }, .getConnection [], .sendWait [], .recvWait [⟨5, 0, false⟩],
    .recvEvent { recv := .bytes [97, 98, 99], connect := .inprogress 6 },
    .getConnection [], .sendWait [], .recvWait [⟨5, 0, false⟩], .recvEvent { recv := .bytes [] }]

/-- The three bytes of the request were received and none of them sent. -/
theorem halfCloseRun_loses :
    (worker 4 1).Meets NoErrors (worker 4 1).init halfCloseRun ∧
      ∃ st, workRun 4 1 halfCloseRun = some st ∧ ∃ f ∈ st.wi.freed, ¬ Delivered f.conn := by
  refine ⟨by decide, ?_⟩
  have hend : (workRun 4 1 halfCloseRun).map (fun st => st.wi.freed.map fun f =>
      (f.conn.isCliclose, f.conn.wire.cliRecv, f.conn.wire.svrSent)) =
      some [(true, [97, 98, 99], [])] := by decide
  obtain ⟨st, h, hst⟩ := Option.map_eq_some_iff.mp hend
  have hmem : (true, [97, 98, 99], []) ∈ st.wi.freed.map fun f =>
      (f.conn.isCliclose, f.conn.wire.cliRecv, f.conn.wire.svrSent) := by
    rw [hst]
    exact List.mem_singleton.mpr rfl
  obtain ⟨f, hf, hcl⟩ := List.mem_map.mp hmem
  simp only [Prod.mk.injEq] at hcl
  refine ⟨st, h, f, hf, fun hd => ?_⟩
  have := hd.cli hcl.1
  rw [hcl.2.1, hcl.2.2] at this
  simp at this

end WafProxy
