import WafProxy.Ownership

/-
  Blocked sides — the flags, the blocked packets, `send_epfd` and `nblocked`

  The flags and `send_epfd` agree in every reachable state (`WorkInv.send`).
  The blocked packets agree with the flags until a packet leaks, and `nblocked`
  agrees with them until a connection is freed while it has a flag set:
  `_work_free_connection` does not count those down. `blockedSides_run` rules
  both out by what a step finds before it, and `refusedRun` shows the second,
  a server that refuses the connect.
-/

namespace WafProxy
open Lib ConnectionTable

/-- No event that finds a connection with a flag set makes the worker free it
with that flag: nothing the event makes the worker do for it fails. -/
def FlagsKept (st : WorkState) (i : WorkInput) : Prop :=
  st.OnSend i (fun a e s => FlaggedAt a e s → SendGood a e s) ∧
    st.OnRecv i fun a e s => s.nflags ≠ 0 → RecvGood a e st.wi s

instance (st : WorkState) (i : WorkInput) : Decidable (FlagsKept st i) :=
  inferInstanceAs (Decidable (st.OnSend i _ ∧ st.OnRecv i _))

/-- No connection was freed with a flag set. -/
theorem noDrift_rule : StepRule FlagsKept (fun _ => True) (fun f => f.conn.nflags = 0) where
  new _ _ _ := trivial
  refused _ _ := rfl
  sendKept _ _ _ _ _ _ _ _ _ _ _ := trivial
  sendFreed _ _ _ _ _ _ _ hc hb hs hbad hd _ := by
    by_contra hn
    exact hbad (hc.1 _ (WorkState.next_eq hb hs) (hd.flags hn))
  recvKept _ _ _ _ _ _ _ _ _ _ _ := trivial
  recvFreed _ _ _ _ _ _ _ hc hb hs hbad hd _ := by
    by_contra hn
    exact hbad (hc.2 _ (WorkState.next_eq hb hs) (hd.flags hn))

theorem drift_eq_zero {wi : Work} (h : ∀ f ∈ wi.freed, f.conn.nflags = 0) : wi.drift = 0 := by
  unfold Work.drift
  refine List.sum_eq_zero fun n hn => ?_
  obtain ⟨f, hf, rfl⟩ := List.mem_map.mp hn
  exact h f hf

/-- A descriptor of `s` is registered in `send_epfd` exactly when the flags of
`s` say so. -/
theorem WorkInv.registered {q : List WorkFd} {wi : Work} (h : WorkInv q wi) {id fd : Nat}
    {s : Connection} (hs : wi.conn id = some s) (hf : s.socks.hasFd fd) :
    fd ∈ wi.sendEpfd.map Prod.fst ↔ s.socks.inSend fd := by
  rw [List.mem_map]
  constructor
  · rintro ⟨p, hp, rfl⟩
    obtain ⟨s', hs', hin⟩ := (h.send p).mp hp
    have hid := h.disj id s p.2 s' p.1 hs hs' hf (Socks.inSend_hasFd hin)
    rw [← hid, hs, Option.some.injEq] at hs'
    exact hs' ▸ hin
  · intro hin
    exact ⟨(fd, id), (h.send _).mpr ⟨s, hs, hin⟩, rfl⟩

/-! ## The property -/

/-- The four encodings of a blocked side of `s` agree. -/
structure SidesAgree (wi : Work) (s : Connection) : Prop where
  cliblock : s.isCliblock = true ↔ s.svrq.blkpkt ≠ none
  clireg : s.isCliblock = true ↔ s.clifd ∈ wi.sendEpfd.map Prod.fst
  svrblock : s.isSvrblock = true ↔ s.cliq.blkpkt ≠ none
  svrreg : s.svrfd ∈ wi.sendEpfd.map Prod.fst ↔ s.isSvrblock = true ∨ s.isSvrwait = true
  outq : s.isCliblock = false → s.svrq.outq = []

/-- They agree for every live connection, and `nblocked` counts the flags. -/
structure BlockedSides (st : WorkState) : Prop where
  sides : ∀ id s, st.wi.conn id = some s → SidesAgree st.wi s
  nblocked : st.wi.nblocked = (st.wi.sesstbl.total Connection.nflags : Nat)

/-- While no packet leaked, a side is blocked exactly when it has a packet. -/
theorem Dir.Ready.block_iff {d : Dir} (h : d.Ready) (hl : d.q.leak = []) :
    d.block = true ↔ d.q.blkpkt ≠ none := by
  constructor
  · intro hb hn
    exact h.stuck hb hn hl
  · intro hn
    by_contra hb
    exact hn (h.idle (by simpa using hb))

theorem WorkInv.sidesAgree {q : List WorkFd} {wi : Work} (h : WorkInv q wi) {id : Nat}
    {s : Connection} (hs : wi.conn id = some s) (hl : s.leaked = []) : SidesAgree wi s := by
  have hc := h.conn id s hs
  obtain ⟨hup, hdown⟩ := List.append_eq_nil_iff.mp hl
  have hcli := h.registered hs ⟨hc.cli, .inl rfl⟩
  refine ⟨hc.ok.down.ok.block_iff hdown, ?_, hc.ok.up.block_iff hup, ?_, fun _ => hc.ok.down.outq⟩
  · rw [hcli]
    constructor
    · exact fun hb => ⟨hc.cli, .inl ⟨rfl, hb⟩⟩
    · rintro ⟨_, ⟨_, hb⟩ | ⟨he, _⟩⟩
      · exact hb
      · exact absurd he.symm hc.ne
  · rcases Nat.eq_zero_or_pos s.svrfd with hz | hpos
    · obtain ⟨hb, hw⟩ := hc.svr hz
      refine iff_of_false ?_ (by simp [hb, hw])
      rintro hm
      obtain ⟨p, hp, hpz⟩ := List.mem_map.mp hm
      obtain ⟨s', _, hin⟩ := (h.send p).mp hp
      exact absurd hin.1 (by omega)
    · rw [h.registered hs ⟨hpos, .inr rfl⟩]
      constructor
      · rintro ⟨_, ⟨he, _⟩ | ⟨_, hf⟩⟩
        · exact absurd he hc.ne
        · exact hf
      · exact fun hf => ⟨hpos, .inr ⟨rfl, hf⟩⟩

/-- **Without a short retry, and with no flagged connection freed, the four
encodings agree in every reachable state.** -/
theorem blockedSides_run {max nwork : Nat} {is : List WorkInput} {st : WorkState}
    (hm : (worker max nwork).Meets (fun st i => NoShortRetry st i ∧ FlagsKept st i)
      (worker max nwork).init is)
    (h : workRun max nwork is = some st) : BlockedSides st := by
  obtain ⟨hretry, hflags⟩ := Machine.meets_and.mp hm
  have hinv := workInv_run h
  have hleak := noLeak_rule.run hretry h
  have hdrift := noDrift_rule.run hflags h
  refine ⟨fun id s hs => hinv.sidesAgree hs (hleak.live id s hs), ?_⟩
  rw [hinv.blocked, drift_eq_zero hdrift.freed, Nat.add_zero]

theorem blockedSides_retryRun : ∃ st, workRun 4 1 retryRun = some st ∧ BlockedSides st := by
  have hm : (worker 4 1).Meets (fun st i => NoShortRetry st i ∧ FlagsKept st i)
      (worker 4 1).init retryRun := by decide
  obtain ⟨st, h⟩ := Option.isSome_iff_exists.mp (show (workRun 4 1 retryRun).isSome by decide)
  exact ⟨st, h, blockedSides_run hm h⟩

/-- A client sends, the connect to the server is in progress, and is refused. -/
def refusedRun : List WorkInput :=
  [.addConnection { fd := 5 }, .getConnection [], .sendWait [], .recvWait [⟨5, 0, false⟩],
    .recvEvent { recv := .bytes [97, 98, 99], connect := .inprogress 6 },
    .getConnection [], .sendWait [⟨6, 0, false⟩], .sendEvent { connected := false }]

/-- No connection is left, and `nblocked` is 1: every later turn of the loop
waits on an empty `send_epfd`. -/
theorem refusedRun_drifts : ∃ st, workRun 4 1 refusedRun = some st ∧ ¬ BlockedSides st := by
  have hend : (workRun 4 1 refusedRun).map (fun st =>
      (st.wi.nblocked, st.wi.sesstbl.total Connection.nflags)) = some (1, 0) := by decide
  obtain ⟨st, h, hst⟩ := Option.map_eq_some_iff.mp hend
  simp only [Prod.mk.injEq] at hst
  refine ⟨st, h, fun hbs => ?_⟩
  have := hbs.nblocked
  omega

end WafProxy
