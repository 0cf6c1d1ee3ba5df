import WafProxy.Receive

/-
  The event handlers — what one event does to the connection it is for

  `_work_process_client` and `_work_process_server` receive, parse and send on;
  a send event retries a blocked side or completes a connect. Every handler
  ends in one of the ways of `Outcome`: the connection is kept and well formed
  again, or it was passed to `_work_free_connection`, or (`late`) a connect that
  failed freed it and `_work_sendto_server` was called with it once more.

  `Leaks` and the two close facts of `Dropped` are what the properties of whole
  runs need to know about one event.
-/

namespace WafProxy

/-- A connection between events. -/
structure Connection.Ok (s : Connection) : Prop where
  up : s.up.Ok
  down : s.DownOk
  clierror : s.isClierror = false
  cliclose : s.isCliclose = false
  svrerror : s.isSvrerror = false
  svrclose : s.isSvrclose = false

/-- When an event may do what it should not: drop the last pointer to a packet
on its way to the server or to the client, use a connection it has freed, free
one while a block or wait flag is set, or lose what a closing client has sent. -/
structure Risk where
  leakUp : Prop := False
  leakDown : Prop := False
  reuse : Prop := False
  flagged : Prop := False
  loses : Prop := False
  /-- A leak toward the server with more to send behind it. -/
  leakMore : Prop := False

structure Risk.Le (r r' : Risk) : Prop where
  leakUp : r.leakUp → r'.leakUp
  leakDown : r.leakDown → r'.leakDown
  reuse : r.reuse → r'.reuse
  flagged : r.flagged → r'.flagged
  loses : r.loses → r'.loses
  leakMore : r.leakMore → r'.leakMore

theorem Risk.Le.refl (r : Risk) : r.Le r := ⟨id, id, id, id, id, id⟩

structure Leaks (r : Risk) (s s' : Connection) : Prop where
  up : ¬ r.leakUp → s'.cliq.leak = s.cliq.leak
  down : ¬ r.leakDown → s'.svrq.leak = s.svrq.leak

theorem Leaks.mono {r r' : Risk} {s s' : Connection} (h : Leaks r s s') (hr : r.Le r') :
    Leaks r' s s' :=
  ⟨fun hn => h.up fun hs => hn (hr.leakUp hs), fun hn => h.down fun hs => hn (hr.leakDown hs)⟩

/-- `c'` is what a handler called with `c` leaves of a connection it keeps. -/
structure Kept (W : World) (r : Risk) (c c' : Ctx) : Prop where
  frame : Frame c c'
  live : Live W c' []
  ok : c'.s.Ok
  leaks : Leaks r c.s c'.s
  stalls : ¬ r.leakMore → LeakStalls c.s → LeakStalls c'.s

/-- The read of the client's close would find request bytes queued behind a
connect in progress. -/
def CloseLoses (a : Answers) (s : Connection) : Prop :=
  a.Closes ∧ s.isSvrwait = true ∧ s.cliq.outq ≠ []

instance (a : Answers) (s : Connection) : Decidable (CloseLoses a s) :=
  inferInstanceAs (Decidable (_ ∧ _ ∧ _))

/-- `d` is what a handler called with `c` passes to `_work_free_connection`. -/
structure Dropped (W : World) (r : Risk) (c d : Ctx) : Prop where
  frame : Frame c d
  failed : Failed W d
  leaks : Leaks r c.s d.s
  cliclose : d.s.isCliclose = true → ¬ r.loses → LeakStalls c.s →
    d.s.wire.cliRecv = d.s.wire.svrSent
  svrclose : d.s.isSvrclose = true → d.s.wire.svrRecv = d.s.wire.cliSent
  flags : d.s.nflags ≠ 0 → r.flagged

theorem Kept.mono {W : World} {r r' : Risk} {c c' : Ctx} (h : Kept W r c c') (hr : r.Le r') :
    Kept W r' c c' :=
  ⟨h.frame, h.live, h.ok, h.leaks.mono hr, fun hn => h.stalls fun hm => hn (hr.leakMore hm)⟩

theorem Dropped.mono {W : World} {r r' : Risk} {c d : Ctx} (h : Dropped W r c d) (hr : r.Le r') :
    Dropped W r' c d :=
  ⟨h.frame, h.failed, h.leaks.mono hr, fun hc hl => h.cliclose hc fun hl' => hl (hr.loses hl'),
    h.svrclose, fun hn => hr.flagged (h.flags hn)⟩

/-- The connect check and the two `epoll_ctl` calls of `_work_check_server`
succeed. -/
def Answers.ConnectOk (a : Answers) : Prop :=
  a.connected = true ∧ a.delWait = true ∧ a.addConn = true

instance (a : Answers) : Decidable a.ConnectOk := inferInstanceAs (Decidable (_ ∧ _ ∧ _))

/-- How the handler of an event ends. -/
inductive Outcome (W : World) (r : Risk) (c c' : Ctx) : Prop where
  | kept (h : Kept W r c c') : Outcome W r c c'
  | freed (site : Site) (d : Ctx) (h : Dropped W r c d) (he : c' = workFreeConnection site d) :
      Outcome W r c c'
  | late (d : Ctx) (h : Dropped W r c d) (hlt : r.reuse)
      (he : c' = (workFreeConnection .sendDataCheck d).call .sendtoServer) : Outcome W r c c'

/-- A connect in progress turns out to have failed, or `epoll_ctl` does. -/
def ConnectFails (a : Answers) (s : Connection) : Prop := s.isSvrwait = true ∧ ¬ a.ConnectOk

instance (a : Answers) (s : Connection) : Decidable (ConnectFails a s) :=
  inferInstanceAs (Decidable (_ ∧ _))

section
variable {W : World} {a : Answers} {c : Ctx}

/-- A side with nothing pending has sent all it received. -/
theorem Dir.Ready.delivered {d : Dir} (h : d.Ready) (hb : d.block = false) (ho : d.q.outq = [])
    (hl : d.q.leak = []) : d.recvd = d.sent := by
  simp [h.stream hl, h.idle hb, ho]

theorem Connection.DownOk.congr {s s' : Connection} (h : s.DownOk) (hd : s'.down = s.down) :
    s'.DownOk := by
  have hq : s'.svrq = s.svrq := congrArg Dir.q hd
  have hb : s'.isCliblock = s.isCliblock := congrArg Dir.block hd
  exact ⟨hd ▸ h.ok, hq ▸ h.outq, by rw [hq, hb]; exact h.stuck⟩

/-- A connect in progress has its socket. -/
theorem Live.svrfd_pos {hand : List Packet} (hl : Live W c hand) (hw : c.s.isSvrwait = true) :
    0 < c.s.svrfd := by
  rcases Nat.eq_zero_or_pos c.s.svrfd with hz | hpos
  · exact absurd (hw.symm.trans (hl.svr hz).2) (by simp)
  · exact hpos

/-- A read frees the connection as it is, if it does. -/
def readClientRisk (a : Answers) (s : Connection) : Risk :=
  { flagged := s.nflags ≠ 0, loses := CloseLoses a s }

def readServerRisk (s : Connection) : Risk := { flagged := s.nflags ≠ 0 }

theorem nflags_ne {s s' : Connection} (h : s'.nflags ≤ s.nflags) (hn : s'.nflags ≠ 0) :
    s.nflags ≠ 0 := by omega

theorem LeakStalls.leak_nil {s : Connection} (h : LeakStalls s) (hb : s.isSvrblock = false) :
    s.cliq.leak = [] := by
  by_contra hne
  exact absurd (hb.symm.trans (h hne).1) (by simp)

theorem LeakStalls.congr {s s' : Connection} (h : LeakStalls s) (hup : s'.up = s.up) :
    LeakStalls s' := by
  have hq : s'.cliq = s.cliq := congrArg Dir.q hup
  have hb : s'.isSvrblock = s.isSvrblock := congrArg Dir.block hup
  rwa [LeakStalls, hq, hb]

/-- A call that succeeds leaves no leak that has not stalled its side. -/
theorem workSendtoServer_stalls (hl : Live W c []) (hu : c.s.up.Ready)
    (hz : (workSendtoServer a c).1 = 0) (hm : ¬ ShortServerRetryMore a c.s)
    (hs : LeakStalls c.s) : LeakStalls (workSendtoServer a c).2.s := by
  by_cases hlk : c.s.cliq.leak = []
  · exact (workSendtoServer_spec hl hu).stalls hm hlk hz
  · obtain ⟨_, hb, ho⟩ := hs hlk
    rw [workSendtoServer_idle ho hb]
    exact hs

/-! ## `_work_process_client` -/

/-- After the read of the client's close nothing is sent: the connection has
nothing to send, or waits for the connect. -/
theorem workSendtoServer_close (hl : Live W c []) (hu : c.s.up.Ok) (hb : c.s.isSvrblock = false) :
    (workSendtoServer a c).1 = 0 ∧ (workSendtoServer a c).2.s = c.s := by
  cases hw : c.s.isSvrwait with
  | true => exact workSendtoServer_wait (hl.svrfd_pos hw) hw
  | false =>
    rw [workSendtoServer_idle (hu.drained hb hw) (hu.idle hb)]
    exact ⟨rfl, rfl⟩

/-- What an event on a readable client needs for the connection to be kept. -/
def ClientReadGood (a : Answers) (c : Ctx) : Prop := a.Reads ∧ ServerGood a c

instance (a : Answers) (c : Ctx) : Decidable (ClientReadGood a c) :=
  inferInstanceAs (Decidable (_ ∧ _))

section
variable {d e : Ctx} {r : Int}

/-- A receive from the client that fails. -/
theorem FromClient.dropped (h : FromClient c d) (hs : c.s.Ok) (hfail : Failed W d)
    (hclose : d.s.isCliclose = c.s.isCliclose) : Dropped W (readClientRisk a c.s) c d := by
  have hcl : d.s.isCliclose = false := hclose.trans hs.cliclose
  have hsc : d.s.isSvrclose = false := h.svrclose.trans hs.svrclose
  refine ⟨h.frame, hfail, ⟨fun _ => h.leak, fun _ => ?_⟩, ?_, ?_, nflags_ne h.nflags.le⟩
  · exact congrArg (·.q.leak) h.down
  · simp [hcl]
  · simp [hsc]

/-- Behind the receive and the parse: what the send to the server starts from. -/
structure ClientArrived (W : World) (a : Answers) (c d : Ctx) : Prop where
  only : FromClient c d
  live : Live W d []
  ready : d.s.up.Ready
  block : d.s.isSvrblock = false
  clierror : d.s.isClierror = false
  closes : d.s.isCliclose = true → a.Closes
  same : a.Closes → d.s.up = c.s.up

namespace ClientArrived
variable (h : ClientArrived W a c d) (hs : c.s.Ok) (hsend : workSendtoServer a d = (r, e))
include h hsend

theorem sent : ServerRet W (ShortServerRetry a d.s) (ShortServerRetryMore a d.s)
    (ServerStuck a d.s) (ServerGood a d) d (r, e) :=
  hsend ▸ workSendtoServer_spec h.live h.ready

theorem ok (hg : ClientReadGood a c) : r = 0 := by
  have hgood : ServerGood a d := by
    unfold ServerGood
    rw [h.only.svrfd, h.only.fds]
    exact hg.2
  exact (h.sent hsend).ok hgood

theorem leaks : Leaks (readClientRisk a c.s) c.s e.s := by
  refine ⟨fun _ => ?_, fun _ => ?_⟩
  · refine ((h.sent hsend).leak fun hs' => ?_).trans h.only.leak
    exact absurd (h.block.symm.trans hs'.1) (by simp)
  · exact congrArg (·.q.leak) ((h.sent hsend).only.down.trans h.only.down)

theorem frame : Frame c e := h.only.frame.trans (h.sent hsend).only.frame

theorem closed_of (hcl : e.s.isCliclose = true) : a.Closes :=
  h.closes ((h.sent hsend).only.cliclose.symm.trans hcl)

include hs

theorem svrclose : e.s.isSvrclose = false :=
  ((h.sent hsend).only.svrclose.trans h.only.svrclose).trans hs.svrclose

/-- Nothing is sent behind the client's close. -/
theorem quiet (hc : a.Closes) : r = 0 ∧ e.s = d.s := by
  have hquiet := @workSendtoServer_close W a d h.live (h.same hc ▸ hs.up) h.block
  rw [hsend] at hquiet
  exact hquiet

/-- The client has closed. -/
theorem closed (hr : r = 0) (hdone : e.s.isClierror = true ∨ e.s.isCliclose = true) :
    Dropped W (readClientRisk a c.s) c e ∧ a.Closes := by
  have hnoerr : e.s.isClierror = false := (h.sent hsend).only.clierror.trans h.clierror
  have hb : c.s.isSvrblock = false := h.only.block.symm.trans h.block
  have hsvrclose := h.svrclose hs hsend
  -- no error is set on this way, so the peer has closed
  have hc := h.closed_of hsend (hdone.resolve_left (by simp [hnoerr]))
  have hsame := (h.quiet hs hsend hc).2
  refine ⟨⟨h.frame hsend, ((h.sent hsend).done hr).1.failed, h.leaks hsend, fun _ hlose hstall => ?_,
    by simp [hsvrclose], ?_⟩, hc⟩
  · -- the bytes received are those of the state before the event
    have hup : e.s.up = c.s.up := (congrArg Connection.up hsame).trans (h.same hc)
    have hout : c.s.cliq.outq = [] := by
      cases hw : c.s.isSvrwait with
      | true => exact not_not.mp fun hne => hlose ⟨hc, hw, hne⟩
      | false => exact hs.up.drained hb hw
    have hall : e.s.up.recvd = e.s.up.sent := by
      rw [hup]
      exact hs.up.toReady.delivered hb hout (hstall.leak_nil hb)
    exact hall
  · rw [hsame]
    exact nflags_ne h.only.nflags.le

theorem kept (hr : r = 0) (hdone : ¬ (e.s.isClierror = true ∨ e.s.isCliclose = true)) :
    Kept W (readClientRisk a c.s) c e := by
  obtain ⟨hlive, hup, herr⟩ := (h.sent hsend).done hr
  have hb : c.s.isSvrblock = false := h.only.block.symm.trans h.block
  rw [not_or, Bool.not_eq_true, Bool.not_eq_true] at hdone
  have hdown : e.s.down = c.s.down := (h.sent hsend).only.down.trans h.only.down
  refine ⟨h.frame hsend, hlive,
    ⟨hup, hs.down.congr hdown, hdone.1, hdone.2, ?_, h.svrclose hs hsend⟩,
    h.leaks hsend, fun _ hstall => (h.sent hsend).stalls ?_ ?_ hr⟩
  · exact (herr.trans h.only.svrerror).trans hs.svrerror
  · exact fun hm => absurd (h.block.symm.trans hm.1.1) (by simp)
  · exact h.only.leak.trans (hstall.leak_nil hb)

theorem failed (hr : r ≠ 0) : Dropped W (readClientRisk a c.s) c e := by
  have hsvrclose := h.svrclose hs hsend
  refine ⟨h.frame hsend, (h.sent hsend).failed hr, h.leaks hsend, fun hcl => ?_, by simp [hsvrclose],
    nflags_ne (nflags_le ((h.sent hsend).only.down.trans h.only.down) ?_ ?_)⟩
  · exact absurd (h.quiet hs hsend (h.closed_of hsend hcl)).1 hr
  · intro hb
    exact absurd (h.block.symm.trans (((h.sent hsend).flags hr).2 hb).1) (by simp)
  · intro hw
    exact absurd (((h.sent hsend).flags hr).1.symm.trans hw) (by simp)

end ClientArrived
end

theorem workProcessClient_spec (hl : Live W c []) (hs : c.s.Ok) (hb : c.s.isSvrblock = false)
    {out : Int × Ctx} (ho : workProcessClient a c = out) :
    Outcome W (readClientRisk a c.s) c out.2 ∧
      (ClientReadGood a c → Kept W (readClientRisk a c.s) c out.2) := by
  unfold workProcessClient at ho
  have hcall := FromClient.call c (f := .processClient) (by decide)
  have hrecv := workRecvfromClient_spec (a := a) (hl.call .processClient) hs.up.pkt
  dsimp only at ho
  generalize workRecvfromClient a (c.call .processClient) = out1 at hrecv ho
  obtain ⟨r1, c1⟩ := out1
  have h1 := hcall.trans hrecv.only
  dsimp only at ho
  by_cases hr1 : r1 = 0
  swap
  · simp only [ne_eq, hr1, not_false_eq_true, ↓reduceIte] at ho
    obtain ⟨hfail, hclose⟩ := hrecv.failed hr1
    rw [← ho]
    exact ⟨.freed _ c1 (h1.dropped hs hfail hclose) rfl, fun hg => absurd (hrecv.ok hg.1.1 hg.1.2.1) hr1⟩
  simp only [hr1, ne_eq, not_true_eq_false, ↓reduceIte] at ho
  obtain ⟨hl1, hup1, herr1⟩ := hrecv.done hr1
  have hparse := workParseClient_spec hl1 rfl
  generalize workParseClient c1 = out2 at hparse ho
  obtain ⟨r2, c2⟩ := out2
  obtain ⟨hr2, hp2, hl2, hup2, herr2, hclose2⟩ := hparse
  dsimp only at hr2 ho
  simp only [hr2, not_true_eq_false, ↓reduceIte] at ho
  have harrived : ClientArrived W a c c2 := by
    have hblock : c2.s.isSvrblock = false := (h1.trans hp2).block.trans hb
    have herr : c2.s.isClierror = false := (herr2.trans herr1).trans hs.clierror
    refine ⟨h1.trans hp2, hl2, ?_, hblock, herr, ?_, ?_⟩
    · rw [hup2]
      exact hup1.ready hs.up
    · intro hc
      rcases hrecv.close (hclose2.symm.trans hc) with hc | hc
      · exact absurd (hs.cliclose.symm.trans hc) (by simp)
      · exact hc
    · intro hc
      have hc1 : c1.s.up = c.s.up := hrecv.data hc
      rw [hup2, hc1, Dir.parsed_none hs.up.pkt]
  cases hsend : workSendtoServer a c2 with
  | mk r3 c3 =>
    rw [hsend] at ho
    dsimp only at ho
    by_cases hr3 : r3 = 0
    · simp only [hr3, not_true_eq_false, ↓reduceIte] at ho
      by_cases hdone : c3.s.isClierror = true ∨ c3.s.isCliclose = true
      · obtain ⟨hdropped, hc⟩ := harrived.closed hs hsend hr3 hdone
        simp only [if_pos hdone] at ho
        rw [← ho]
        exact ⟨.freed _ c3 hdropped rfl, fun hg => absurd hc.2 hg.1.2.2⟩
      · have hkept := harrived.kept hs hsend hr3 hdone
        simp only [if_neg hdone] at ho
        rw [← ho]
        exact ⟨.kept hkept, fun _ => hkept⟩
    · simp only [hr3, not_false_eq_true, ↓reduceIte] at ho
      rw [← ho]
      exact ⟨.freed _ c3 (harrived.failed hs hsend hr3) rfl, fun hg => absurd (harrived.ok hsend hg) hr3⟩

/-! ## `_work_process_server` -/

/-- The client's side is idle, so the read of the server's close leaves nothing
to send. -/
theorem workSendtoClient_close (hd : c.s.DownOk) (hb : c.s.isCliblock = false) :
    (workSendtoClient a c).1 = 0 ∧ (workSendtoClient a c).2.s = c.s := by
  have hblk : c.s.svrq.blkpkt = none := hd.ok.idle hb
  simp [workSendtoClient, Ctx.call, hd.outq, hblk]

def ServerReadGood (a : Answers) : Prop := a.Reads ∧ ClientGood a

instance (a : Answers) : Decidable (ServerReadGood a) := inferInstanceAs (Decidable (_ ∧ _))

section
variable {d e : Ctx} {r : Int}

/-- A receive from the server that fails. -/
theorem FromServer.dropped (h : FromServer c d) (hs : c.s.Ok) (hfail : Failed W d)
    (hclose : d.s.isSvrclose = c.s.isSvrclose) : Dropped W (readServerRisk c.s) c d := by
  have hsc : d.s.isSvrclose = false := hclose.trans hs.svrclose
  have hcl : d.s.isCliclose = false := h.cliclose.trans hs.cliclose
  refine ⟨h.frame, hfail, ⟨fun _ => ?_, fun _ => h.leak⟩, ?_, ?_, nflags_ne h.nflags.le⟩
  · exact congrArg (·.q.leak) h.up
  · simp [hcl]
  · simp [hsc]

/-- Behind the receive and the parse: what the send to the client starts from. -/
structure ServerArrived (W : World) (a : Answers) (c d : Ctx) : Prop where
  only : FromServer c d
  live : Live W d []
  ready : d.s.DownReady
  block : d.s.isCliblock = false
  noleak : c.s.svrq.leak = []
  svrerror : d.s.isSvrerror = false
  closes : d.s.isSvrclose = true → a.Closes
  same : a.Closes → d.s.down = c.s.down

namespace ServerArrived
variable (h : ServerArrived W a c d) (hs : c.s.Ok) (hsend : workSendtoClient a d = (r, e))
include h hsend

theorem sent : ClientRet W (ShortClientRetry a d.s) (ClientGood a) d (r, e) :=
  hsend ▸ workSendtoClient_spec h.live h.ready

theorem leaks : Leaks (readServerRisk c.s) c.s e.s := by
  refine ⟨fun _ => ?_, fun _ => ?_⟩
  · exact congrArg (·.q.leak) ((h.sent hsend).only.up.trans h.only.up)
  · refine ((h.sent hsend).leak fun hs' => ?_).trans h.only.leak
    exact absurd (h.block.symm.trans hs'.1) (by simp)

theorem frame : Frame c e := h.only.frame.trans (h.sent hsend).only.frame

theorem closed_of (hcl : e.s.isSvrclose = true) : a.Closes :=
  h.closes ((h.sent hsend).only.svrclose.symm.trans hcl)

include hs

theorem cliclose : e.s.isCliclose = false :=
  ((h.sent hsend).only.cliclose.trans h.only.cliclose).trans hs.cliclose

/-- Nothing is sent behind the server's close. -/
theorem quiet (hc : a.Closes) : r = 0 ∧ e.s = d.s := by
  have hquiet := @workSendtoClient_close a d (hs.down.congr (h.same hc)) h.block
  rw [hsend] at hquiet
  exact hquiet

/-- The server has closed. -/
theorem closed (hr : r = 0) (hdone : e.s.isSvrerror = true ∨ e.s.isSvrclose = true) :
    Dropped W (readServerRisk c.s) c e ∧ a.Closes := by
  have hnoerr : e.s.isSvrerror = false := (h.sent hsend).only.svrerror.trans h.svrerror
  have hcliclose := h.cliclose hs hsend
  have hc := h.closed_of hsend (hdone.resolve_left (by simp [hnoerr]))
  have hsame := (h.quiet hs hsend hc).2
  refine ⟨⟨h.frame hsend, ((h.sent hsend).done hr).1.failed, h.leaks hsend, by simp [hcliclose],
    fun _ => ?_, ?_⟩, hc⟩
  · have hdown : e.s.down = c.s.down := (congrArg Connection.down hsame).trans (h.same hc)
    have hall : e.s.down.recvd = e.s.down.sent := by
      rw [hdown]
      exact hs.down.ok.toReady.delivered (h.only.block.symm.trans h.block) hs.down.outq h.noleak
    exact hall
  · rw [hsame]
    exact nflags_ne h.only.nflags.le

theorem kept (hr : r = 0) (hdone : ¬ (e.s.isSvrerror = true ∨ e.s.isSvrclose = true)) :
    Kept W (readServerRisk c.s) c e := by
  obtain ⟨hlive, hdown, herr⟩ := (h.sent hsend).done hr
  have hup : e.s.up = c.s.up := (h.sent hsend).only.up.trans h.only.up
  rw [not_or, Bool.not_eq_true, Bool.not_eq_true] at hdone
  refine ⟨h.frame hsend, hlive, ⟨?_, hdown, ?_, h.cliclose hs hsend, hdone.1, hdone.2⟩, h.leaks hsend,
    fun _ hstall => hstall.congr hup⟩
  · rw [hup]
    exact hs.up
  · exact (herr.trans h.only.clierror).trans hs.clierror

theorem failed (hr : r ≠ 0) : Dropped W (readServerRisk c.s) c e := by
  have hcliclose := h.cliclose hs hsend
  refine ⟨h.frame hsend, (h.sent hsend).failed hr, h.leaks hsend, by simp [hcliclose], fun hcl => ?_,
    nflags_ne (((h.sent hsend).flags hr).trans h.only.nflags.le)⟩
  exact absurd (h.quiet hs hsend (h.closed_of hsend hcl)).1 hr

end ServerArrived
end

theorem workProcessServer_spec (hl : Live W c []) (hs : c.s.Ok) (hb : c.s.isCliblock = false)
    {out : Int × Ctx} (ho : workProcessServer a c = out) :
    Outcome W (readServerRisk c.s) c out.2 ∧ (ServerReadGood a → Kept W (readServerRisk c.s) c out.2) := by
  unfold workProcessServer at ho
  have hcall := FromServer.call c (f := .processServer) (by decide)
  have hrecv := workRecvfromServer_spec (a := a) (hl.call .processServer) hs.down.ok.pkt
  have hnoleak : c.s.svrq.leak = [] := by
    by_contra hne
    exact absurd (hb.symm.trans (hs.down.stuck hne).1) (by simp)
  dsimp only at ho
  generalize workRecvfromServer a (c.call .processServer) = out1 at hrecv ho
  obtain ⟨r1, c1⟩ := out1
  have h1 := hcall.trans hrecv.only
  dsimp only at ho
  by_cases hr1 : r1 = 0
  swap
  · simp only [ne_eq, hr1, not_false_eq_true, ↓reduceIte] at ho
    obtain ⟨hfail, hclose⟩ := hrecv.failed hr1
    rw [← ho]
    exact ⟨.freed _ c1 (h1.dropped hs hfail hclose) rfl, fun hg => absurd (hrecv.ok hg.1.1 hg.1.2.1) hr1⟩
  simp only [hr1, ne_eq, not_true_eq_false, ↓reduceIte] at ho
  obtain ⟨hl1, hdn1, herr1⟩ := hrecv.done hr1
  have hparse := workParseServer_spec hl1 rfl
  generalize workParseServer c1 = out2 at hparse ho
  obtain ⟨r2, c2⟩ := out2
  obtain ⟨hr2, hp2, hl2, hdn2, herr2, hclose2⟩ := hparse
  dsimp only at hr2 ho
  simp only [hr2, not_true_eq_false, ↓reduceIte] at ho
  have h2 : FromServer c c2 := h1.trans hp2
  have hready : c2.s.DownReady := by
    refine ⟨by rw [hdn2]; exact hdn1.ready hs.down.ok, ?_, ?_⟩
    · have hone := hdn1.one hs.down.ok.pkt (hs.down.ok.idle hb) hs.down.outq
      rwa [← hdn2] at hone
    · rw [h2.leak]
      exact fun hne => absurd hnoleak hne
  have harrived : ServerArrived W a c c2 := by
    refine ⟨h2, hl2, hready, h2.block.trans hb, hnoleak, (herr2.trans herr1).trans hs.svrerror, ?_, ?_⟩
    · intro hc
      rcases hrecv.close (hclose2.symm.trans hc) with hc | hc
      · exact absurd (hs.svrclose.symm.trans hc) (by simp)
      · exact hc
    · intro hc
      have hc1 : c1.s.down = c.s.down := hrecv.data hc
      rw [hdn2, hc1, Dir.parsed_none hs.down.ok.pkt]
  cases hsend : workSendtoClient a c2 with
  | mk r3 c3 =>
    rw [hsend] at ho
    dsimp only at ho
    by_cases hr3 : r3 = 0
    · simp only [hr3, not_true_eq_false, ↓reduceIte] at ho
      by_cases hdone : c3.s.isSvrerror = true ∨ c3.s.isSvrclose = true
      · obtain ⟨hdropped, hc⟩ := harrived.closed hs hsend hr3 hdone
        simp only [if_pos hdone] at ho
        rw [← ho]
        exact ⟨.freed _ c3 hdropped rfl, fun hg => absurd hc.2 hg.1.2.2⟩
      · have hkept := harrived.kept hs hsend hr3 hdone
        simp only [if_neg hdone] at ho
        rw [← ho]
        exact ⟨.kept hkept, fun _ => hkept⟩
    · simp only [hr3, not_false_eq_true, ↓reduceIte] at ho
      rw [← ho]
      exact ⟨.freed _ c3 (harrived.failed hs hsend hr3) rfl,
        fun hg => absurd ((harrived.sent hsend).ok hg.2) hr3⟩

/-! ## The send events -/

/-- How `_work_check_server` ends for a connection that waits. -/
structure CheckRet (W : World) (a : Answers) (c : Ctx) (out : Int × Ctx) : Prop where
  only : ToServer c out.2
  cliq : out.2.s.cliq = c.s.cliq
  svrfd : out.2.s.svrfd = c.s.svrfd
  block : out.2.s.isSvrblock = c.s.isSvrblock
  svrerror : out.2.s.isSvrerror = c.s.isSvrerror
  done : out.1 = 0 → Live W out.2 [] ∧ out.2.s.up = { c.s.up with wait := false }
  failed : out.1 ≠ 0 → Failed W out.2
  ok : out.1 = 0 ↔ a.ConnectOk
  flags : out.1 ≠ 0 → out.2.s.isSvrwait = true → a.connected = false

theorem CheckRet.call {out : Int × Ctx} {f : WorkFn} (hf : f ≠ .freeConnection)
    (h : CheckRet W a (c.call f) out) : CheckRet W a c out :=
  ⟨(ToServer.call c hf).trans h.only, h.cliq, h.svrfd, h.block, h.svrerror, h.done, h.failed, h.ok,
    h.flags⟩

theorem workCheckServer_spec (hl : Live W c []) (hw : c.s.isSvrwait = true)
    (hb : c.s.isSvrblock = false) : CheckRet W a c (workCheckServer a c) := by
  refine CheckRet.call (f := .checkServer) (by decide) ?_
  replace hl := hl.call .checkServer
  replace hw : (c.call .checkServer).s.isSvrwait = true := hw
  replace hb : (c.call .checkServer).s.isSvrblock = false := hb
  unfold workCheckServer
  generalize c.call .checkServer = c at *
  have h0 := hl.svrfd_pos hw
  have hconn := hl.reg.connected h0 hb
  dsimp only
  -- the flag is cleared and counted as soon as the socket is connected
  have hacct : Acct W { c with s.isSvrwait := false, wi.nblocked := c.wi.nblocked - 1 } [] := by
    refine hl.acct.moved rfl rfl rfl ?_ rfl
    simp [Connection.nflags, hw]
    omega
  have hclo : Failed W { c with s.isSvrwait := false, wi.nblocked := c.wi.nblocked - 1 } :=
    ⟨hacct, hl.reg.closable.flags _ _ _⟩
  cases hc : a.connected with
  | false =>
    simp only [Bool.false_eq_true, not_false_eq_true, ↓reduceIte]
    exact ⟨⟨.refl c, rfl, rfl, rfl, rfl⟩, rfl, rfl, rfl, rfl, by simp, fun _ => hl.failed,
      by simp [Answers.ConnectOk, hc], fun _ _ => hc⟩
  | true =>
  simp only [not_true_eq_false, ↓reduceIte]
  cases hd : a.delWait with
  | false =>
    simp only [epollDel_false]
    exact ⟨⟨.same rfl rfl, rfl, rfl, rfl, rfl⟩, rfl, rfl, rfl, rfl, by simp, fun _ => hclo,
      by simp [Answers.ConnectOk, hd], by simp⟩
  | true =>
  rw [hl.delSvr h0 (.inr hw)]
  cases ha : a.addConn with
  | false =>
    simp only [epollAdd_false]
    refine ⟨⟨.same rfl rfl, rfl, rfl, rfl, rfl⟩, rfl, rfl, rfl, rfl, by simp, fun _ => ?_,
      by simp [Answers.ConnectOk, ha], by simp⟩
    refine ⟨⟨hacct.1, hacct.2, hacct.3⟩, ?_⟩
    exact ⟨hconn.closable.sendKept, hconn.closable.sendOwn, hl.reg.closable.recvKept,
      hl.reg.closable.recvOwn, hl.reg.fds, hl.reg.fresh, hl.reg.others⟩
  | true =>
  have hnot := hl.reg.not_in_recv ⟨h0, .inr rfl⟩ (fun hr => by
    rcases hr.2 with hs | hs
    · exact hl.reg.ne hs
    · exact absurd (hw.symm.trans hs.2) (by simp))
  rw [epollAdd_ok hnot]
  refine ⟨⟨.same rfl rfl, rfl, rfl, rfl, rfl⟩, rfl, rfl, rfl, rfl, fun _ => ⟨⟨?_, hconn, ?_⟩, rfl⟩, by simp,
    by simp [Answers.ConnectOk, hc, hd, ha], by simp⟩
  · exact ⟨hacct.1, hacct.2, hacct.3⟩
  · exact fun hz => absurd hz (Nat.ne_of_gt h0)

theorem Connection.DownOk.ready {s : Connection} (h : s.DownOk) : s.DownReady := by
  refine ⟨h.ok.toReady, ?_, fun hne => ⟨(h.stuck hne).1, (h.stuck hne).2, h.outq⟩⟩
  rw [h.outq]
  cases s.svrq.blkpkt <;> simp

def sendClientRisk (a : Answers) (s : Connection) : Risk :=
  { leakDown := ShortClientRetry a s, flagged := s.nflags ≠ 0 }

theorem sendDataClient_spec (hl : Live W c []) (hs : c.s.Ok) {c' : Ctx}
    (hc : sendDataClient a c = c') :
    Outcome W (sendClientRisk a c.s) c c' ∧
      (ClientGood a → Kept W (sendClientRisk a c.s) c c') := by
  unfold sendDataClient at hc
  have hsend := workSendtoClient_spec (a := a) hl hs.down.ready
  generalize workSendtoClient a c = out at hsend hc
  obtain ⟨r, d⟩ := out
  dsimp only at hc
  have hleaks : Leaks (sendClientRisk a c.s) c.s d.s :=
    ⟨fun _ => congrArg (·.q.leak) hsend.only.up, hsend.leak⟩
  have hcl : d.s.isCliclose = false := hsend.only.cliclose.trans hs.cliclose
  have hsc : d.s.isSvrclose = false := hsend.only.svrclose.trans hs.svrclose
  by_cases hr : r = 0
  · simp only [hr, ne_eq, not_true_eq_false, ↓reduceIte] at hc
    obtain ⟨hl', hd', herr⟩ := hsend.done hr
    have hkept : Kept W (sendClientRisk a c.s) c d := by
      refine ⟨hsend.only.frame, hl', ⟨?_, hd', herr.trans hs.clierror, hcl, ?_, hsc⟩, hleaks,
        fun _ hstall => hstall.congr hsend.only.up⟩
      · rw [hsend.only.up]
        exact hs.up
      · exact hsend.only.svrerror.trans hs.svrerror
    rw [← hc]
    exact ⟨.kept hkept, fun _ => hkept⟩
  · simp only [ne_eq, hr, not_false_eq_true, ↓reduceIte] at hc
    rw [← hc]
    exact ⟨.freed _ d ⟨hsend.only.frame, hsend.failed hr, hleaks, by simp [hcl], by simp [hsc],
      nflags_ne (hsend.flags hr)⟩ rfl,
      fun hg => absurd (hsend.ok hg) hr⟩

/-- The server's socket took all it was offered, or the connect completed. -/
def ServerSendGood (a : Answers) : Prop :=
  (∀ r ∈ a.sends, r.Takes) ∧ a.addBlk = true ∧ a.delBlk = true

instance (a : Answers) : Decidable (ServerSendGood a) := inferInstanceAs (Decidable (_ ∧ _ ∧ _))

/-- A connection the branch frees still has a flag set: the client's side is
blocked, the connect failed, or the blocked server side did. -/
def ServerFlagged (a : Answers) (s : Connection) : Prop :=
  s.isCliblock = true ∨ (s.isSvrwait = true ∧ a.connected = false) ∨ ServerStuck a s

instance (a : Answers) (s : Connection) : Decidable (ServerFlagged a s) :=
  inferInstanceAs (Decidable (_ ∨ _ ∧ _ ∨ _))

theorem ServerFlagged.nflags {a : Answers} {s : Connection} (h : ServerFlagged a s) :
    s.nflags ≠ 0 := by
  unfold Connection.nflags
  rcases h with h | ⟨h, _⟩ | ⟨h, _⟩ <;> simp [h]

def sendServerRisk (a : Answers) (s : Connection) : Risk :=
  { leakUp := ShortServerRetry a s, reuse := ConnectFails a s, flagged := ServerFlagged a s,
    leakMore := ShortServerRetryMore a s }

/-- Which flags a freed connection has. -/
theorem flag_of_nflags {s : Connection} (h : s.nflags ≠ 0) :
    s.isCliblock = true ∨ s.isSvrwait = true ∨ s.isSvrblock = true := by
  unfold Connection.nflags at h
  cases hc : s.isCliblock <;> cases hb : s.isSvrblock <;> cases hw : s.isSvrwait <;> simp_all

/-- The second half of the branch: `c₁` is the connection once it is known to be
connected. -/
theorem sendDataServer_send {c₁ c' : Ctx} (hs : c.s.Ok) (hto : ToServer c c₁) (hl : Live W c₁ [])
    (hu : c₁.s.up.Ready) (hq : c₁.s.cliq = c.s.cliq) (hb : c₁.s.isSvrblock = c.s.isSvrblock)
    (he : c₁.s.isSvrerror = c.s.isSvrerror) (h0 : 0 < c₁.s.svrfd)
    (hc : (match workSendtoServer a c₁ with
      | (r, c) => if r ≠ 0 then workFreeConnection .sendDataServer c else c) = c') :
    Outcome W (sendServerRisk a c.s) c c' ∧
      (ServerSendGood a → Kept W (sendServerRisk a c.s) c c') := by
  have hsend := workSendtoServer_spec (a := a) hl hu
  have hquiet := workSendtoServer_stalls (a := a) hl hu
  generalize workSendtoServer a c₁ = out at hsend hquiet hc
  obtain ⟨r, d⟩ := out
  dsimp only at hc
  have hd := hto.trans hsend.only
  have hleaks : Leaks (sendServerRisk a c.s) c.s d.s := by
    refine ⟨fun hs' => ?_, fun _ => congrArg (·.q.leak) hd.down⟩
    refine (hsend.leak fun hs'' => hs' ?_).trans (congrArg (·.leak) hq)
    rwa [ShortServerRetry, hb, hq] at hs''
  have hcl : d.s.isCliclose = false := hd.cliclose.trans hs.cliclose
  have hsc : d.s.isSvrclose = false := hd.svrclose.trans hs.svrclose
  have hstalls : r = 0 → ¬ ShortServerRetryMore a c.s → LeakStalls c.s → LeakStalls d.s := by
    intro hr hm hstall
    have hstall' : LeakStalls c₁.s := by
      rwa [LeakStalls, hb, hq]
    refine hquiet hr (fun hm' => hm ?_) hstall'
    rwa [ShortServerRetryMore, ShortServerRetry, hb, hq] at hm'
  by_cases hr : r = 0
  · simp only [hr, ne_eq, not_true_eq_false, ↓reduceIte] at hc
    obtain ⟨hl', hu', herr⟩ := hsend.done hr
    have hkept : Kept W (sendServerRisk a c.s) c d :=
      ⟨hd.frame, hl', ⟨hu', hs.down.congr hd.down, hd.clierror.trans hs.clierror, hcl,
        (herr.trans he).trans hs.svrerror, hsc⟩, hleaks, hstalls hr⟩
    rw [← hc]
    exact ⟨.kept hkept, fun _ => hkept⟩
  · simp only [ne_eq, hr, not_false_eq_true, ↓reduceIte] at hc
    rw [← hc]
    refine ⟨.freed _ d ⟨hd.frame, hsend.failed hr, hleaks, by simp [hcl], by simp [hsc],
      fun hn => ?_⟩ rfl, fun hg => absurd (hsend.ok ⟨hg.1, hg.2.1, hg.2.2, .inl h0⟩) hr⟩
    rcases flag_of_nflags hn with hf | hf | hf
    · have hcli : d.s.isCliblock = c.s.isCliblock := congrArg Dir.block hd.down
      exact .inl (hcli.symm.trans hf)
    · exact absurd ((hsend.flags hr).1.symm.trans hf) (by simp)
    · have hstuck := (hsend.flags hr).2 hf
      rw [ServerStuck, hb, hq] at hstuck
      exact .inr (.inr hstuck)

/-- The freed connection has nothing left to send. -/
theorem sendtoServer_freed (site : Site) (hb : c.s.cliq.blkpkt = none) :
    workSendtoServer a (workFreeConnection site c) =
      (0, (workFreeConnection site c).call .sendtoServer) := by
  refine workSendtoServer_idle ?_ ?_
  · rw [free_s]
  · rw [free_s]
    exact hb

theorem sendDataServer_spec (hl : Live W c []) (hs : c.s.Ok) {c' : Ctx}
    (hc : sendDataServer a c = c') :
    Outcome W (sendServerRisk a c.s) c c' ∧
      (¬ ConnectFails a c.s ∧ ServerSendGood a → Kept W (sendServerRisk a c.s) c c') := by
  unfold sendDataServer at hc
  cases hw : c.s.isSvrwait with
  | false =>
    simp only [hw, Bool.false_eq_true, ↓reduceIte] at hc
    by_cases h0 : 0 < c.s.svrfd
    swap
    · -- no server yet, so nothing to send either
      have hb : c.s.isSvrblock = false := (hl.svr (by omega)).1
      rw [workSendtoServer_idle (hs.up.drained hb hw) (hs.up.idle hb)] at hc
      simp only [ne_eq, not_true_eq_false, ↓reduceIte] at hc
      have hkept : Kept W (sendServerRisk a c.s) c (c.call .sendtoServer) :=
        ⟨.call c (by decide), hl.call _, hs, ⟨fun _ => rfl, fun _ => rfl⟩, fun _ => id⟩
      rw [← hc]
      exact ⟨.kept hkept, fun _ => hkept⟩
    obtain ⟨hout, hgood⟩ := sendDataServer_send (a := a) hs ⟨.refl c, rfl, rfl, rfl, rfl⟩ hl
      hs.up.toReady rfl rfl rfl h0 hc
    exact ⟨hout, fun hg => hgood hg.2⟩
  | true =>
    simp only [hw, ↓reduceIte] at hc
    have hb : c.s.isSvrblock = false := hs.up.wait hw
    have hcheck := workCheckServer_spec (a := a) hl hw hb
    generalize workCheckServer a c = out at hcheck hc
    obtain ⟨r, c₁⟩ := out
    dsimp only at hc
    by_cases hr : r = 0
    · simp only [hr, ne_eq, not_true_eq_false, ↓reduceIte] at hc
      obtain ⟨hl₁, hup₁⟩ := hcheck.done hr
      have hu₁ : c₁.s.up.Ready := by
        rw [hup₁]
        exact ⟨hs.up.pkt, hs.up.inq, by simp, hs.up.idle, hs.up.stuck, hs.up.blk, hs.up.out,
          hs.up.stream⟩
      obtain ⟨hout, hgood⟩ := sendDataServer_send (a := a) hs hcheck.only hl₁ hu₁ hcheck.cliq
        hcheck.block hcheck.svrerror (by rw [hcheck.svrfd]; exact hl.svrfd_pos hw) hc
      exact ⟨hout, fun hg => hgood hg.2⟩
    · have hfail : ¬ a.ConnectOk := fun hok => hr (hcheck.ok.mpr hok)
      simp only [ne_eq, hr, not_false_eq_true, ↓reduceIte] at hc
      have hblk : c₁.s.cliq.blkpkt = none := by
        rw [hcheck.cliq]
        exact hs.up.idle hb
      rw [sendtoServer_freed _ hblk] at hc
      simp only [not_true_eq_false, ↓reduceIte] at hc
      have hcl : c₁.s.isCliclose = false := hcheck.only.cliclose.trans hs.cliclose
      have hsc : c₁.s.isSvrclose = false := hcheck.only.svrclose.trans hs.svrclose
      refine ⟨.late c₁ ⟨hcheck.only.frame, hcheck.failed hr, ⟨fun _ => ?_, fun _ => ?_⟩, by simp [hcl],
        by simp [hsc], fun hn => ?_⟩ ⟨hw, hfail⟩ hc.symm, fun hg => absurd ⟨hw, hfail⟩ hg.1⟩
      · exact congrArg (·.leak) hcheck.cliq
      · exact congrArg (·.q.leak) hcheck.only.down
      · rcases flag_of_nflags hn with hf | hf | hf
        · have hcli : c₁.s.isCliblock = c.s.isCliblock := congrArg Dir.block hcheck.only.down
          exact .inl (hcli.symm.trans hf)
        · exact .inr (.inl ⟨hw, hcheck.flags hr hf⟩)
        · exact absurd ((hcheck.block.trans hb).symm.trans hf) (by simp)

end

end WafProxy
