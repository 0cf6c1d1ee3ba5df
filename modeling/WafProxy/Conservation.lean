import WafProxy.OrderlyClose

/-
  Conservation — every byte received is sent or waits, in order

  In every reachable state the stream equation of each direction holds unless a
  packet leaked (`Dir.Ready.stream`). While no call fails and no peer closes, a
  connection is torn down for one reason only: `_work_sendto_server` takes a
  `send` that would block for an error, where `_work_sendto_client` blocks the
  side. So two things the server's socket may do are left: taking nothing, and
  taking a part of the packet of a side that is blocked already.
-/

namespace WafProxy
open Lib ConnectionTable

/-- No call of an event fails and no peer closes. -/
def NoFailure (st : WorkState) (i : WorkInput) : Prop :=
  NoErrors st i ∧ st.OnRecv i fun a _ _ => a.recv ≠ .bytes []

instance (st : WorkState) (i : WorkInput) : Decidable (NoFailure st i) :=
  inferInstanceAs (Decidable (NoErrors st i ∧ st.OnRecv i _))

/-- Each `send` to a server takes at least one byte. -/
def ServerTakes (st : WorkState) (i : WorkInput) : Prop :=
  st.OnSend i (fun a e s => s.clifd ≠ e.fd → ∀ r ∈ a.sends, r.Takes) ∧
    st.OnRecv i fun a e s => s.clifd = e.fd → ∀ r ∈ a.sends, r.Takes

instance (st : WorkState) (i : WorkInput) : Decidable (ServerTakes st i) :=
  inferInstanceAs (Decidable (st.OnSend i _ ∧ st.OnRecv i _))

theorem Healthy.sendGood {a : Answers} {e : Event} {wi : Work} {s : Connection}
    (h : Healthy a e wi s) (ht : s.clifd ≠ e.fd → ∀ r ∈ a.sends, r.Takes) : SendGood a e s := by
  obtain ⟨_, hdel, hadd, hblk, hunblk⟩ := h.epoll
  refine ⟨h.err, fun _ => ⟨h.sends, hblk, hunblk⟩, fun hc _ => ⟨fun hf => ?_, ht hc, hblk, hunblk⟩⟩
  exact hf.2 ⟨h.connected, hdel, hadd⟩

theorem Healthy.recvGood {a : Answers} {e : Event} {wi : Work} {s : Connection}
    (h : Healthy a e wi s) (hne : a.recv ≠ .bytes [])
    (ht : s.clifd = e.fd → ∀ r ∈ a.sends, r.Takes) : RecvGood a e wi s := by
  obtain ⟨hsvr, _, _, hblk, hunblk⟩ := h.epoll
  have hreads : a.Reads := ⟨h.pool, h.recv, hne⟩
  refine ⟨h.err, fun hc _ => ⟨hreads, ht hc, hblk, hunblk, ?_⟩, fun _ _ _ => ⟨hreads, h.sends, hblk, hunblk⟩⟩
  rcases Nat.eq_zero_or_pos s.svrfd with hz | hpos
  · exact .inr ⟨h.connect hz, hsvr⟩
  · exact .inl hpos

/-- No connection that was taken over was torn down. -/
theorem notTornDown_rule : StepRule (fun st i => NoFailure st i ∧ ServerTakes st i) (fun _ => True)
    (fun f => f.site = .getConnection) where
  new _ _ _ := trivial
  refused _ _ := rfl
  sendKept _ _ _ _ _ _ _ _ _ _ _ := trivial
  sendFreed _ _ _ _ _ _ _ hc hb hs hbad _ _ := by
    have hnext := WorkState.next_eq hb hs
    exact absurd ((hc.1.1.1 _ hnext).sendGood (hc.2.1 _ hnext)) hbad
  recvKept _ _ _ _ _ _ _ _ _ _ _ := trivial
  recvFreed _ _ _ _ _ _ _ hc hb hs hbad _ _ := by
    have hnext := WorkState.next_eq hb hs
    exact absurd ((hc.1.1.2 _ hnext).recvGood (hc.1.2 _ hnext) (hc.2.2 _ hnext)) hbad

/-! ## The property -/

/-- What was received from a peer of a live connection is what was sent to the
other and then what is pending, and no connection was torn down. -/
structure Conserved (st : WorkState) : Prop where
  up : ∀ id s, st.wi.conn id = some s → s.wire.cliRecv = s.wire.svrSent ++ s.cliq.pending
  down : ∀ id s, st.wi.conn id = some s → s.wire.svrRecv = s.wire.cliSent ++ s.svrq.pending
  kept : ∀ f ∈ st.wi.freed, f.site = .getConnection

/-- **While no call fails and no peer closes, every byte is sent or waits in
order, unless the server's socket takes nothing or a blocked one a part.** -/
theorem conservation_run {max nwork : Nat} {is : List WorkInput} {st : WorkState}
    (hm : (worker max nwork).Meets NoFailure (worker max nwork).init is)
    (hc : (worker max nwork).Meets (fun st i => ServerTakes st i ∧ NoShortRetry st i)
      (worker max nwork).init is)
    (h : workRun max nwork is = some st) : Conserved st := by
  obtain ⟨htakes, hretry⟩ := Machine.meets_and.mp hc
  have hinv := workInv_run h
  have hno := noLeak_rule.run hretry h
  have hkept := notTornDown_rule.run (Machine.meets_and.mpr ⟨hm, htakes⟩) h
  refine ⟨fun id s hs => ?_, fun id s hs => ?_, hkept.freed⟩
  · exact (hinv.conn id s hs).ok.up.stream (List.append_eq_nil_iff.mp (hno.live id s hs)).1
  · exact (hinv.conn id s hs).ok.down.ok.stream (List.append_eq_nil_iff.mp (hno.live id s hs)).2

theorem conservation_retryRun : ∃ st, workRun 4 1 retryRun = some st ∧ Conserved st := by
  have hm : (worker 4 1).Meets NoFailure (worker 4 1).init retryRun := by decide
  have hc : (worker 4 1).Meets (fun st i => ServerTakes st i ∧ NoShortRetry st i)
      (worker 4 1).init retryRun := by decide
  obtain ⟨st, h⟩ := Option.isSome_iff_exists.mp (show (workRun 4 1 retryRun).isSome by decide)
  exact ⟨st, h, conservation_run hm hc h⟩

/-- Three bytes were received, two sent, and none is pending. -/
theorem shortRetryRun_loses :
    (worker 4 1).Meets NoFailure (worker 4 1).init shortRetryRun ∧
      ∃ st, workRun 4 1 shortRetryRun = some st ∧ ¬ Conserved st := by
  refine ⟨by decide, ?_⟩
  have hend : (workRun 4 1 shortRetryRun).map (fun st => (st.wi.conn 0).map fun s =>
      (s.wire.cliRecv, s.wire.svrSent, s.cliq.pending)) =
      some (some ([97, 98, 99], [97, 98], [])) := by decide
  obtain ⟨st, h, hst⟩ := Option.map_eq_some_iff.mp hend
  obtain ⟨s, hs, hn⟩ := Option.map_eq_some_iff.mp hst
  simp only [Prod.mk.injEq] at hn
  refine ⟨st, h, fun hcons => ?_⟩
  have := hcons.up 0 s hs
  rw [hn.1, hn.2.1, hn.2.2] at this
  simp at this

end WafProxy
