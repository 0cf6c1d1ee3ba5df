import WafProxy.Free

/-
  Receiving and parsing — `_work_recvfrom_client`, `_work_recvfrom_server` and
  the parse functions, which only move the packet on

  A read takes a packet from the pool and either fails, or leaves the bytes it
  got in that packet, or gives the packet back because there were none: the
  read would have blocked, or the peer has closed (`Answers.Closes`).

  `RecvClientRet` and `RecvServerRet` say how the two reads end; `parsed` says
  what the packet's move to the output queue makes of the direction.
-/

namespace WafProxy

section
variable {W : World} {a : Answers} {c c' : Ctx}

/-! ## Receiving -/

/-- The read finds the peer's orderly close. -/
def Answers.Closes (a : Answers) : Prop := a.pool = true ∧ a.recv = .bytes []

instance (a : Answers) : Decidable a.Closes := inferInstanceAs (Decidable (_ ∧ _))

/-- The read neither fails nor finds the connection closed. -/
def Answers.Reads (a : Answers) : Prop := a.pool = true ∧ a.recv ≠ .error ∧ a.recv ≠ .bytes []

instance (a : Answers) : Decidable a.Reads := inferInstanceAs (Decidable (_ ∧ _ ∧ _))

/-- What receiving from the client and parsing leave alone. -/
structure FromClient (c c' : Ctx) : Prop where
  frame : Frame c c'
  fds : c'.wi.fds = c.wi.fds
  down : c'.s.down = c.s.down
  svrfd : c'.s.svrfd = c.s.svrfd
  block : c'.s.isSvrblock = c.s.isSvrblock
  wait : c'.s.isSvrwait = c.s.isSvrwait
  leak : c'.s.cliq.leak = c.s.cliq.leak
  svrerror : c'.s.isSvrerror = c.s.isSvrerror
  svrclose : c'.s.isSvrclose = c.s.isSvrclose

theorem FromClient.trans {c'' : Ctx} (h : FromClient c c') (h' : FromClient c' c'') :
    FromClient c c'' :=
  ⟨h.frame.trans h'.frame, h'.fds.trans h.fds, h'.down.trans h.down, h'.svrfd.trans h.svrfd,
    h'.block.trans h.block, h'.wait.trans h.wait, h'.leak.trans h.leak, h'.svrerror.trans h.svrerror,
    h'.svrclose.trans h.svrclose⟩

theorem FromClient.nflags (h : FromClient c c') : c'.s.nflags = c.s.nflags := by
  have hcli : c'.s.isCliblock = c.s.isCliblock := congrArg Dir.block h.down
  unfold Connection.nflags
  rw [hcli, h.block, h.wait]

/-- What receiving from the server and parsing leave alone. -/
structure FromServer (c c' : Ctx) : Prop where
  frame : Frame c c'
  up : c'.s.up = c.s.up
  svrfd : c'.s.svrfd = c.s.svrfd
  block : c'.s.isCliblock = c.s.isCliblock
  leak : c'.s.svrq.leak = c.s.svrq.leak
  clierror : c'.s.isClierror = c.s.isClierror
  cliclose : c'.s.isCliclose = c.s.isCliclose

theorem FromServer.trans {c'' : Ctx} (h : FromServer c c') (h' : FromServer c' c'') :
    FromServer c c'' :=
  ⟨h.frame.trans h'.frame, h'.up.trans h.up, h'.svrfd.trans h.svrfd, h'.block.trans h.block,
    h'.leak.trans h.leak, h'.clierror.trans h.clierror, h'.cliclose.trans h.cliclose⟩

theorem FromServer.nflags (h : FromServer c c') : c'.s.nflags = c.s.nflags := by
  have hsvr : c'.s.isSvrblock = c.s.isSvrblock := congrArg Dir.block h.up
  have hwait : c'.s.isSvrwait = c.s.isSvrwait := congrArg Dir.wait h.up
  unfold Connection.nflags
  rw [h.block, hsvr, hwait]

/-- What a read that succeeded changed: nothing, or one packet and its bytes. -/
inductive Received (d d' : Dir) : Prop where
  | nothing (h : d' = d) : Received d d'
  | packet (pkt : Packet) (hne : pkt.data ≠ []) (hpos : pkt.sendpos = 0)
      (h : d' = { d with q := { d.q with pkt := some pkt }, recvd := d.recvd ++ pkt.data }) :
      Received d d'

/-- How `_work_recvfrom_client` ends. -/
structure RecvClientRet (W : World) (a : Answers) (c : Ctx) (out : Int × Ctx) : Prop where
  only : FromClient c out.2
  failed : out.1 ≠ 0 → Failed W out.2 ∧ out.2.s.isCliclose = c.s.isCliclose
  done : out.1 = 0 → Live W out.2 [] ∧ Received c.s.up out.2.s.up ∧
    out.2.s.isClierror = c.s.isClierror
  close : out.2.s.isCliclose = true → c.s.isCliclose = true ∨ a.Closes
  data : a.Closes → out.2.s.up = c.s.up
  ok : a.pool = true → a.recv ≠ .error → out.1 = 0

/-- How `_work_recvfrom_server` ends. -/
structure RecvServerRet (W : World) (a : Answers) (c : Ctx) (out : Int × Ctx) : Prop where
  only : FromServer c out.2
  failed : out.1 ≠ 0 → Failed W out.2 ∧ out.2.s.isSvrclose = c.s.isSvrclose
  done : out.1 = 0 → Live W out.2 [] ∧ Received c.s.down out.2.s.down ∧
    out.2.s.isSvrerror = c.s.isSvrerror
  close : out.2.s.isSvrclose = true → c.s.isSvrclose = true ∨ a.Closes
  data : a.Closes → out.2.s.down = c.s.down
  ok : a.pool = true → a.recv ≠ .error → out.1 = 0

/-- The packet `_work_get_packet` takes from the pool is accounted for. -/
theorem Acct.got {pkt : Packet} (h : Acct W c []) (q : Side) (hq : (c.s.q q).pkt = none)
    (hid : pkt.id = c.wi.nextPkt) :
    Acct W { c with wi.nextPkt := c.wi.nextPkt + 1,
                    s := { c.s.setQ q { c.s.q q with pkt := some pkt } with
                           nalloced := c.s.nalloced + 1 } } [] := by
  have hm : ids (c.s.setQ q { c.s.q q with pkt := some pkt }).held = {c.wi.nextPkt} + ids c.s.held := by
    cases q with
    | cli =>
      simp only [Connection.q] at hq
      simp only [Connection.ids_held, Connection.setQ, Connection.q, hq, Option.toList_some,
        Option.toList_none, ids_cons, ids_nil, hid]
      ac_rfl
    | svr =>
      simp only [Connection.q] at hq
      simp only [Connection.ids_held, Connection.setQ, Connection.q, hq, Option.toList_some,
        Option.toList_none, ids_cons, ids_nil, hid]
      ac_rfl
  refine ⟨?_, ?_, ?_⟩
  · change c.s.nalloced + 1 = ((c.s.setQ q { c.s.q q with pkt := some pkt }).held.length : Int)
    rw [h.nalloced, ← ids_card, ← ids_card, hm]
    simp only [List.nil_append, Multiset.card_add, Multiset.card_singleton]
    omega
  · change Multiset.range (c.wi.nextPkt + 1) = ↑c.wi.puts +
      ids (c.s.setQ q { c.s.q q with pkt := some pkt }).held + W.pkts
    rw [hm, Multiset.range_succ, h.taken, ← Multiset.singleton_add]
    simp only [List.nil_append]
    ac_rfl
  · cases q <;> exact h.blocked

/-- The packet in `q->pkt` is given back. -/
theorem Acct.dropped {pkt : Packet} (h : Acct W c []) (q : Side) (hq : (c.s.q q).pkt = some pkt) :
    Acct W { c.put pkt with s := (c.put pkt).s.setQ q { (c.put pkt).s.q q with pkt := none } } [] := by
  have hm : ids ([pkt] ++ (c.s.setQ q { c.s.q q with pkt := none }).held) = ids ([] ++ c.s.held) := by
    cases q with
    | cli =>
      simp only [Connection.q] at hq
      simp only [ids_append, Connection.ids_held, Connection.setQ, Connection.q, hq,
        Option.toList_some, Option.toList_none, ids_cons, ids_nil]
      ac_rfl
    | svr =>
      simp only [Connection.q] at hq
      simp only [ids_append, Connection.ids_held, Connection.setQ, Connection.q, hq,
        Option.toList_some, Option.toList_none, ids_cons, ids_nil]
      ac_rfl
  have hmoved : Acct W { c with s := c.s.setQ q { c.s.q q with pkt := none } } [pkt] := by
    cases q <;> exact h.moved rfl rfl rfl rfl hm
  cases q <;> exact hmoved.put

/-- A read into a whole packet: a failure, or bytes, none of them when it would
block or the peer has closed. -/
theorem skRecv_cases (r : RecvRes) :
    r = .error ∧ skRecv r PKT_CAPACITY = (-1, [], false) ∨
    r ≠ .error ∧ ∃ got close, skRecv r PKT_CAPACITY = (got.length, got, close) ∧
      (close = true ↔ r = .bytes []) ∧ (close = true → got = []) := by
  cases r with
  | error => exact .inl ⟨rfl, rfl⟩
  | again => exact .inr ⟨by simp, [], false, rfl, by simp, by simp⟩
  | bytes l =>
    refine .inr ⟨by simp, l.take PKT_CAPACITY, (l.take PKT_CAPACITY).isEmpty, rfl, ?_, ?_⟩
    · simp [PKT_CAPACITY, MAX_PKTLEN, PACKET_T_SIZE]
    · simp

theorem workGetPacket_none (q : Side) (h : a.pool = false) :
    workGetPacket a q c = (none, c.call .getPacket) := by
  simp only [workGetPacket, h, Bool.false_eq_true, ↓reduceIte]

theorem workGetPacket_some (q : Side) (h : a.pool = true) : workGetPacket a q c =
    (some (c.call .getPacket).newPkt, (c.call .getPacket).withPkt q (c.call .getPacket).newPkt) := by
  simp only [workGetPacket, h, ↓reduceIte]

/-! ### From the client -/

theorem FromClient.call (c : Ctx) {f : WorkFn} (hf : f ≠ .freeConnection) :
    FromClient c (c.call f) :=
  ⟨.call c hf, rfl, rfl, rfl, rfl, rfl, rfl, rfl, rfl⟩

theorem RecvClientRet.call {out : Int × Ctx} {f : WorkFn} (hf : f ≠ .freeConnection)
    (h : RecvClientRet W a (c.call f) out) : RecvClientRet W a c out :=
  ⟨(FromClient.call c hf).trans h.only, h.failed, h.done, h.close, h.data, h.ok⟩

/-- What a read that did not fail leaves; `close` is whether it found the end. -/
structure GotfromClient (W : World) (c c' : Ctx) (close : Bool) : Prop where
  only : FromClient c c'
  live : Live W c' []
  recv : Received c.s.up c'.s.up
  err : c'.s.isClierror = c.s.isClierror
  close : c'.s.isCliclose = (close || c.s.isCliclose)

/-- The new packet with what was read, in `q->pkt`. -/
theorem fillClient_spec (got : List Byte) (hl : Live W c []) (hp : c.s.cliq.pkt = none) {c' : Ctx}
    (hc : (c.withPkt .cli c.newPkt).fillClient { c.newPkt with data := got } got = c') :
    FromClient c c' ∧ Live W c' [] ∧ c'.s.isClierror = c.s.isClierror ∧ c'.s.isCliclose = c.s.isCliclose ∧
      c'.s.cliq.pkt = some { c.newPkt with data := got } ∧
      c'.s.up = { c.s.up with
        q := { c.s.up.q with pkt := some { c.newPkt with data := got } }
        recvd := c.s.up.recvd ++ got } := by
  have hacct : Acct W (c.withPkt .cli { c.newPkt with data := got }) [] := hl.acct.got .cli hp rfl
  subst hc
  exact ⟨⟨.same rfl rfl, rfl, rfl, rfl, rfl, rfl, rfl, rfl, rfl⟩, ⟨⟨hacct.1, hacct.2, hacct.3⟩, hl.reg, hl.svr⟩,
    rfl, rfl, rfl, rfl⟩

theorem gotfromClient_spec (got : List Byte) (close : Bool) (hl : Live W c [])
    (hp : c.s.cliq.pkt = none) {c' : Ctx}
    (hc : gotfromClient c.newPkt got close (c.withPkt .cli c.newPkt) = c') :
    GotfromClient W c c' close ∧ (got = [] → c'.s.up = c.s.up) := by
  have hnone : ({ c.s.up.q with pkt := none } : ConnectionQueue) = c.s.up.q := by
    rw [← (show c.s.up.q.pkt = none from hp)]
  unfold gotfromClient Ctx.dropClient at hc
  simp only [show c.newPkt.data ++ got = got from rfl] at hc
  generalize hd : (c.withPkt .cli c.newPkt).fillClient { c.newPkt with data := got } got = d at hc
  obtain ⟨honly, hlive, herr, hflag, hpkt, hup⟩ := fillClient_spec got hl hp hd
  by_cases hg : got = []
  · simp only [hg, List.length_nil, ↓reduceIte] at hc
    have hdrop := hlive.acct.dropped .cli hpkt
    rw [hg] at hpkt hup hdrop
    have hempty : ({ d.s.up with q := { d.s.up.q with pkt := none } } : Dir) = c.s.up := by
      rw [hup]
      simp only [List.append_nil, hnone]
    cases close with
    | false =>
      simp only [Bool.false_eq_true, ↓reduceIte] at hc
      subst hc
      exact ⟨⟨honly.trans ⟨.same rfl rfl, rfl, rfl, rfl, rfl, rfl, rfl, rfl, rfl⟩,
        ⟨⟨hdrop.1, hdrop.2, hdrop.3⟩, hlive.reg, hlive.svr⟩, .nothing hempty, herr, hflag⟩, fun _ => hempty⟩
    | true =>
      simp only [↓reduceIte] at hc
      subst hc
      exact ⟨⟨honly.trans ⟨.same rfl rfl, rfl, rfl, rfl, rfl, rfl, rfl, rfl, rfl⟩,
        ⟨⟨hdrop.1, hdrop.2, hdrop.3⟩, hlive.reg, hlive.svr⟩, .nothing hempty, herr, rfl⟩, fun _ => hempty⟩
  · have hlen : ¬ got.length = 0 := fun h => hg (List.length_eq_zero_iff.mp h)
    simp only [if_neg hlen] at hc
    have hacct := hlive.acct
    cases close with
    | false =>
      simp only [Bool.false_eq_true, ↓reduceIte] at hc
      subst hc
      exact ⟨⟨honly, hlive, .packet _ hg rfl hup, herr, hflag⟩, fun h => absurd h hg⟩
    | true =>
      simp only [↓reduceIte] at hc
      subst hc
      exact ⟨⟨honly.trans ⟨.same rfl rfl, rfl, rfl, rfl, rfl, rfl, rfl, rfl, rfl⟩,
        ⟨⟨hacct.1, hacct.2, hacct.3⟩, hlive.reg, hlive.svr⟩,
        .packet _ hg rfl hup, herr, rfl⟩, fun h => absurd h hg⟩

theorem workRecvfromClient_spec (hl : Live W c []) (hp : c.s.cliq.pkt = none) :
    RecvClientRet W a c (workRecvfromClient a c) := by
  refine RecvClientRet.call (f := .recvfromClient) (by decide) ?_
  replace hl := hl.call .recvfromClient
  replace hp : (c.call .recvfromClient).s.cliq.pkt = none := hp
  unfold workRecvfromClient
  generalize c.call .recvfromClient = c at *
  dsimp only
  cases hpool : a.pool with
  | false =>
    rw [workGetPacket_none _ hpool]
    refine ⟨.call c (by decide), fun _ => ⟨(hl.call _).failed, rfl⟩, by simp, .inl, fun _ => rfl, ?_⟩
    simp [hpool]
  | true =>
    rw [workGetPacket_some _ hpool]
    refine RecvClientRet.call (f := .getPacket) (by decide) ?_
    replace hl := hl.call .getPacket
    replace hp : (c.call .getPacket).s.cliq.pkt = none := hp
    generalize c.call .getPacket = c at *
    dsimp only
    rw [show c.newPkt.capacity - c.newPkt.data.length = PKT_CAPACITY from rfl]
    rcases skRecv_cases a.recv with ⟨hr, hs⟩ | ⟨hr, got, close, hs, hclose, hgot⟩
    · rw [hs]
      have hacct : Acct W (c.withPkt .cli c.newPkt) [] := hl.acct.got .cli hp rfl
      refine ⟨⟨.same rfl rfl, rfl, rfl, rfl, rfl, rfl, rfl, rfl, rfl⟩, fun _ => ⟨⟨?_, ?_⟩, rfl⟩, by simp,
        .inl, fun hc => ?_, fun _ hne => absurd hr hne⟩
      · exact ⟨hacct.1, hacct.2, hacct.3⟩
      · exact hl.reg.closable
      · simp [Answers.Closes, hr] at hc
    · rw [hs]
      obtain ⟨⟨h1, h2, h3, h4, h5⟩, h6⟩ := gotfromClient_spec got close hl hp rfl
      dsimp only
      rw [if_neg (by omega)]
      refine ⟨h1, by simp, fun _ => ⟨h2, h3, h4⟩, fun hc => ?_, fun hc => ?_, fun _ _ => rfl⟩
      · rw [h5, Bool.or_eq_true] at hc
        exact hc.symm.imp_right fun hc => ⟨hpool, hclose.mp hc⟩
      · exact h6 (hgot (hclose.mpr hc.2))

/-! ### From the server -/

theorem FromServer.call (c : Ctx) {f : WorkFn} (hf : f ≠ .freeConnection) :
    FromServer c (c.call f) :=
  ⟨.call c hf, rfl, rfl, rfl, rfl, rfl, rfl⟩

theorem RecvServerRet.call {out : Int × Ctx} {f : WorkFn} (hf : f ≠ .freeConnection)
    (h : RecvServerRet W a (c.call f) out) : RecvServerRet W a c out :=
  ⟨(FromServer.call c hf).trans h.only, h.failed, h.done, h.close, h.data, h.ok⟩

/-- What a read that did not fail leaves; `close` is whether it found the end. -/
structure GotfromServer (W : World) (c c' : Ctx) (close : Bool) : Prop where
  only : FromServer c c'
  live : Live W c' []
  recv : Received c.s.down c'.s.down
  err : c'.s.isSvrerror = c.s.isSvrerror
  close : c'.s.isSvrclose = (close || c.s.isSvrclose)

/-- The new packet with what was read, in `q->pkt`. -/
theorem fillServer_spec (got : List Byte) (hl : Live W c []) (hp : c.s.svrq.pkt = none) {c' : Ctx}
    (hc : (c.withPkt .svr c.newPkt).fillServer { c.newPkt with data := got } got = c') :
    FromServer c c' ∧ Live W c' [] ∧ c'.s.isSvrerror = c.s.isSvrerror ∧ c'.s.isSvrclose = c.s.isSvrclose ∧
      c'.s.svrq.pkt = some { c.newPkt with data := got } ∧
      c'.s.down = { c.s.down with
        q := { c.s.down.q with pkt := some { c.newPkt with data := got } }
        recvd := c.s.down.recvd ++ got } := by
  have hacct : Acct W (c.withPkt .svr { c.newPkt with data := got }) [] := hl.acct.got .svr hp rfl
  subst hc
  exact ⟨⟨.same rfl rfl, rfl, rfl, rfl, rfl, rfl, rfl⟩, ⟨⟨hacct.1, hacct.2, hacct.3⟩, hl.reg, hl.svr⟩, rfl, rfl,
    rfl, rfl⟩

theorem gotfromServer_spec (got : List Byte) (close : Bool) (hl : Live W c [])
    (hp : c.s.svrq.pkt = none) {c' : Ctx}
    (hc : gotfromServer c.newPkt got close (c.withPkt .svr c.newPkt) = c') :
    GotfromServer W c c' close ∧ (got = [] → c'.s.down = c.s.down) := by
  have hnone : ({ c.s.down.q with pkt := none } : ConnectionQueue) = c.s.down.q := by
    rw [← (show c.s.down.q.pkt = none from hp)]
  unfold gotfromServer Ctx.dropServer at hc
  simp only [show c.newPkt.data ++ got = got from rfl] at hc
  generalize hd : (c.withPkt .svr c.newPkt).fillServer { c.newPkt with data := got } got = d at hc
  obtain ⟨honly, hlive, herr, hflag, hpkt, hup⟩ := fillServer_spec got hl hp hd
  by_cases hg : got = []
  · simp only [hg, List.length_nil, ↓reduceIte] at hc
    have hdrop := hlive.acct.dropped .svr hpkt
    rw [hg] at hpkt hup hdrop
    have hempty : ({ d.s.down with q := { d.s.down.q with pkt := none } } : Dir) = c.s.down := by
      rw [hup]
      simp only [List.append_nil, hnone]
    cases close with
    | false =>
      simp only [Bool.false_eq_true, ↓reduceIte] at hc
      subst hc
      exact ⟨⟨honly.trans ⟨.same rfl rfl, rfl, rfl, rfl, rfl, rfl, rfl⟩,
        ⟨⟨hdrop.1, hdrop.2, hdrop.3⟩, hlive.reg, hlive.svr⟩, .nothing hempty, herr, hflag⟩, fun _ => hempty⟩
    | true =>
      simp only [↓reduceIte] at hc
      subst hc
      exact ⟨⟨honly.trans ⟨.same rfl rfl, rfl, rfl, rfl, rfl, rfl, rfl⟩,
        ⟨⟨hdrop.1, hdrop.2, hdrop.3⟩, hlive.reg, hlive.svr⟩, .nothing hempty, herr, rfl⟩, fun _ => hempty⟩
  · have hlen : ¬ got.length = 0 := fun h => hg (List.length_eq_zero_iff.mp h)
    simp only [if_neg hlen] at hc
    have hacct := hlive.acct
    cases close with
    | false =>
      simp only [Bool.false_eq_true, ↓reduceIte] at hc
      subst hc
      exact ⟨⟨honly, hlive, .packet _ hg rfl hup, herr, hflag⟩, fun h => absurd h hg⟩
    | true =>
      simp only [↓reduceIte] at hc
      subst hc
      exact ⟨⟨honly.trans ⟨.same rfl rfl, rfl, rfl, rfl, rfl, rfl, rfl⟩,
        ⟨⟨hacct.1, hacct.2, hacct.3⟩, hlive.reg, hlive.svr⟩,
        .packet _ hg rfl hup, herr, rfl⟩, fun h => absurd h hg⟩

theorem workRecvfromServer_spec (hl : Live W c []) (hp : c.s.svrq.pkt = none) :
    RecvServerRet W a c (workRecvfromServer a c) := by
  refine RecvServerRet.call (f := .recvfromServer) (by decide) ?_
  replace hl := hl.call .recvfromServer
  replace hp : (c.call .recvfromServer).s.svrq.pkt = none := hp
  unfold workRecvfromServer
  generalize c.call .recvfromServer = c at *
  dsimp only
  cases hpool : a.pool with
  | false =>
    rw [workGetPacket_none _ hpool]
    refine ⟨.call c (by decide), fun _ => ⟨(hl.call _).failed, rfl⟩, by simp, .inl, fun _ => rfl, ?_⟩
    simp [hpool]
  | true =>
    rw [workGetPacket_some _ hpool]
    refine RecvServerRet.call (f := .getPacket) (by decide) ?_
    replace hl := hl.call .getPacket
    replace hp : (c.call .getPacket).s.svrq.pkt = none := hp
    generalize c.call .getPacket = c at *
    dsimp only
    rw [show c.newPkt.capacity = PKT_CAPACITY from rfl]
    rcases skRecv_cases a.recv with ⟨hr, hs⟩ | ⟨hr, got, close, hs, hclose, hgot⟩
    · rw [hs]
      have hacct : Acct W (c.withPkt .svr c.newPkt) [] := hl.acct.got .svr hp rfl
      refine ⟨⟨.same rfl rfl, rfl, rfl, rfl, rfl, rfl, rfl⟩, fun _ => ⟨⟨?_, ?_⟩, rfl⟩, by simp,
        .inl, fun hc => ?_, fun _ hne => absurd hr hne⟩
      · exact ⟨hacct.1, hacct.2, hacct.3⟩
      · exact hl.reg.closable
      · simp [Answers.Closes, hr] at hc
    · rw [hs]
      obtain ⟨⟨h1, h2, h3, h4, h5⟩, h6⟩ := gotfromServer_spec got close hl hp rfl
      dsimp only
      rw [if_neg (by omega)]
      refine ⟨h1, by simp, fun _ => ⟨h2, h3, h4⟩, fun hc => ?_, fun hc => ?_, fun _ _ => rfl⟩
      · rw [h5, Bool.or_eq_true] at hc
        exact hc.symm.imp_right fun hc => ⟨hpool, hclose.mp hc⟩
      · exact h6 (hgot (hclose.mpr hc.2))

/-! ## Parsing -/

/-- The direction with the received packet moved to the output queue. -/
def Dir.parsed (d : Dir) : Dir :=
  { d with q := { d.q with pkt := none, outq := d.q.outq ++ d.q.pkt.toList } }

theorem Dir.parsed_none {d : Dir} (h : d.q.pkt = none) : d.parsed = d := by
  obtain ⟨⟨inq, outq, pkt, blkpkt, leak⟩, block, wait, recvd, sent⟩ := d
  simp only at h
  subst h
  simp [Dir.parsed]

theorem Received.ready {d d' : Dir} (h : Received d d') (hd : d.Ok) : d'.parsed.Ready := by
  cases h with
  | nothing h =>
    rw [h, Dir.parsed_none hd.pkt]
    exact hd.toReady
  | packet pkt hne hpos h =>
    have hq := hd.queued hne hpos
    rw [← Dir.parsed_none hd.pkt] at hq
    rw [h]
    simpa [Dir.parsed, hd.pkt] using hq

/-- A side with nothing pending has at most the new packet. -/
theorem Received.one {d d' : Dir} (h : Received d d') (hp : d.q.pkt = none)
    (hb : d.q.blkpkt = none) (ho : d.q.outq = []) :
    d'.parsed.q.blkpkt.toList.length + d'.parsed.q.outq.length ≤ 1 := by
  cases h with
  | nothing h => simp [h, Dir.parsed_none hp, hb, ho]
  | packet pkt hne hpos h => simp [h, Dir.parsed, hb, ho]

/-- How `_work_parse_client` ends; it cannot fail. -/
theorem workParseClient_spec (hl : Live W c []) {out : Int × Ctx} (ho : workParseClient c = out) :
    out.1 = 0 ∧ FromClient c out.2 ∧ Live W out.2 [] ∧ out.2.s.up = c.s.up.parsed ∧
      out.2.s.isClierror = c.s.isClierror ∧ out.2.s.isCliclose = c.s.isCliclose := by
  unfold workParseClient at ho
  have hcall := FromClient.call c (f := .parseClient) (by decide)
  have hl' := hl.call .parseClient
  cases hp : c.s.cliq.pkt with
  | none =>
    simp only [Ctx.call, hp] at ho
    rw [← ho]
    exact ⟨rfl, hcall, hl', (Dir.parsed_none (d := c.s.up) hp).symm, rfl, rfl⟩
  | some pkt =>
    simp only [Ctx.call, hp, RET_FAIL, show ¬ (0 : Int) = -1 by decide, ↓reduceIte] at ho
    rw [← ho]
    refine ⟨rfl, ?_, ⟨?_, hl.reg, hl.svr⟩, ?_, rfl, rfl⟩
    · exact hcall.trans ⟨.same rfl rfl, rfl, rfl, rfl, rfl, rfl, rfl, rfl, rfl⟩
    · refine hl'.acct.moved rfl rfl rfl rfl ?_
      simp only [ids_append, Connection.ids_held, ids_cons, ids_nil, Option.toList_some,
        Option.toList_none, Ctx.call, pktqIn, hp]
      ac_rfl
    · simp only [Dir.parsed, Connection.up, pktqIn, hp, Option.toList_some]

theorem workParseServer_spec (hl : Live W c []) {out : Int × Ctx} (ho : workParseServer c = out) :
    out.1 = 0 ∧ FromServer c out.2 ∧ Live W out.2 [] ∧ out.2.s.down = c.s.down.parsed ∧
      out.2.s.isSvrerror = c.s.isSvrerror ∧ out.2.s.isSvrclose = c.s.isSvrclose := by
  unfold workParseServer at ho
  have hcall := FromServer.call c (f := .parseServer) (by decide)
  have hl' := hl.call .parseServer
  cases hp : c.s.svrq.pkt with
  | none =>
    simp only [Ctx.call, hp] at ho
    rw [← ho]
    exact ⟨rfl, hcall, hl', (Dir.parsed_none (d := c.s.down) hp).symm, rfl, rfl⟩
  | some pkt =>
    simp only [Ctx.call, hp] at ho
    rw [← ho]
    refine ⟨rfl, ?_, ⟨?_, hl.reg, hl.svr⟩, ?_, rfl, rfl⟩
    · exact hcall.trans ⟨.same rfl rfl, rfl, rfl, rfl, rfl, rfl, rfl⟩
    · refine hl'.acct.moved rfl rfl rfl rfl ?_
      simp only [ids_append, Connection.ids_held, ids_cons, ids_nil, Option.toList_some,
        Option.toList_none, Ctx.call, pktqIn, hp]
      ac_rfl
    · simp only [Dir.parsed, Connection.down, pktqIn, hp, Option.toList_some]

end

end WafProxy
