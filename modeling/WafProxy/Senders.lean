import WafProxy.Held

/-
  The two senders — what one turn of their loops, and a whole call, does

  `_work_sendto_server` may send many packets: those queued while the connect
  was in progress. Its loop is proved by induction on the queue, with
  `Dir.InHand` and `Live` as the invariant. `_work_sendto_client` never holds
  more than one packet (`ConnOk.outq`), so its loop runs once.

  For each: `…Round_spec` is what one turn does, `work…_spec` what a call does.
  The calls fail only for the reasons `Takes` and the two epoll answers rule
  out (`ok`), and leak a packet only by a short retry (`leak`).
-/

namespace WafProxy

/-- The worker and the connection in hand, between calls. -/
structure Live (W : World) (c : Ctx) (hand : List Packet) : Prop where
  acct : Acct W c hand
  reg : Registered W c.wi.sendEpfd c.wi.recvEpfd c.wi.fds c.s.socks
  svr : c.s.svrfd = 0 → c.s.isSvrblock = false ∧ c.s.isSvrwait = false

/-- After a call that failed. -/
structure Failed (W : World) (c : Ctx) : Prop where
  acct : Acct W c []
  clo : Closable W c.wi.sendEpfd c.wi.recvEpfd c.wi.fds c.s.socks

/-- `Ctx.call` only writes the log. -/
theorem Live.call {W : World} {c : Ctx} {hand : List Packet} (h : Live W c hand) (f : WorkFn) :
    Live W (c.call f) hand :=
  ⟨⟨h.acct.1, h.acct.2, h.acct.3⟩, h.reg, h.svr⟩

theorem Live.failed {W : World} {c : Ctx} (h : Live W c []) : Failed W c :=
  ⟨h.acct, h.reg.closable⟩

/-- What sending to the server leaves alone. -/
structure ToServer (c c' : Ctx) : Prop where
  frame : Frame c c'
  down : c'.s.down = c.s.down
  clierror : c'.s.isClierror = c.s.isClierror
  cliclose : c'.s.isCliclose = c.s.isCliclose
  svrclose : c'.s.isSvrclose = c.s.isSvrclose

theorem ToServer.trans {c c' c'' : Ctx} (h : ToServer c c') (h' : ToServer c' c'') :
    ToServer c c'' :=
  ⟨h.frame.trans h'.frame, h'.down.trans h.down, h'.clierror.trans h.clierror,
    h'.cliclose.trans h.cliclose, h'.svrclose.trans h.svrclose⟩

theorem ToServer.call (c : Ctx) {f : WorkFn} (hf : f ≠ .freeConnection) : ToServer c (c.call f) :=
  ⟨.call c hf, rfl, rfl, rfl, rfl⟩

/-- What sending to the client leaves alone. -/
structure ToClient (c c' : Ctx) : Prop where
  frame : Frame c c'
  up : c'.s.up = c.s.up
  svrfd : c'.s.svrfd = c.s.svrfd
  cliclose : c'.s.isCliclose = c.s.isCliclose
  svrerror : c'.s.isSvrerror = c.s.isSvrerror
  svrclose : c'.s.isSvrclose = c.s.isSvrclose

/-! ## `send` -/

/-- A `send` to the server that took something. -/
def SendRes.Takes (r : SendRes) : Prop := ∃ k, r = .accept (k + 1)

instance : ∀ r : SendRes, Decidable r.Takes
  | .error => .isFalse fun ⟨_, h⟩ => by simp at h
  | .again => .isFalse fun ⟨_, h⟩ => by simp at h
  | .accept 0 => .isFalse fun ⟨_, h⟩ => by simp at h
  | .accept (k + 1) => .isTrue ⟨k, rfl⟩

/-- A `send` to the client that took a part only, or nothing. -/
def ShortToClient (r : SendRes) (pkt : Packet) : Prop :=
  0 ≤ skSend r pkt.unsent ∧ skSend r pkt.unsent < pkt.unsent.length

/-- A `send` to the server that took a part only. -/
def ShortToServer (r : SendRes) (pkt : Packet) : Prop :=
  0 < skSend r pkt.unsent ∧ skSend r pkt.unsent < pkt.unsent.length

instance (r : SendRes) (pkt : Packet) : Decidable (ShortToClient r pkt) :=
  inferInstanceAs (Decidable (_ ∧ _))

instance (r : SendRes) (pkt : Packet) : Decidable (ShortToServer r pkt) :=
  inferInstanceAs (Decidable (_ ∧ _))

theorem skSend_takes {r : SendRes} {buf : List Byte} (hr : r.Takes) (hb : buf ≠ []) :
    0 < skSend r buf := by
  obtain ⟨k, rfl⟩ := hr
  have hl : 0 < buf.length := List.length_pos_iff.mpr hb
  unfold skSend
  rw [if_neg (by omega)]
  change (0 : Int) < (min (k + 1) buf.length : Nat)
  omega

theorem skSend_nonneg {r : SendRes} {buf : List Byte} (hr : r ≠ .error) (hb : buf ≠ []) :
    0 ≤ skSend r buf := by
  have hl : 0 < buf.length := List.length_pos_iff.mpr hb
  unfold skSend
  rw [if_neg (by omega)]
  cases r <;> simp_all

/-- A `send` that was not short took everything. -/
theorem take_toNat {l : List Byte} {n : Int} (hn : ¬ n < l.length) : l.take n.toNat = l :=
  List.take_of_length_le (by omega)

theorem toNat_lt {m : Nat} {n : Int} (h0 : 0 ≤ n) (hn : n < m) : n.toNat < m := by omega

/-! ## To the server -/

section
variable {W : World} {a : Answers} {c : Ctx}

/-- Which flags are set, when no more of them are than before. -/
theorem nflags_le {s s' : Connection} (hd : s'.down = s.down)
    (hb : s'.isSvrblock = true → s.isSvrblock = true)
    (hw : s'.isSvrwait = true → s.isSvrwait = true) : s'.nflags ≤ s.nflags := by
  have hcli : s'.isCliblock = s.isCliblock := congrArg Dir.block hd
  have hb' := Bool.toNat_le_toNat (Bool.le_iff_imp.mpr hb)
  have hw' := Bool.toNat_le_toNat (Bool.le_iff_imp.mpr hw)
  unfold Connection.nflags
  rw [hcli]
  omega

/-- The `send` of a blocked server side fails, or its `epoll_ctl` does. -/
def RetryFails (a : Answers) (r : SendRes) (pkt : Packet) : Prop :=
  skSend r pkt.unsent ≤ 0 ∨ ¬ skSend r pkt.unsent < pkt.unsent.length ∧ a.delBlk = false

instance (a : Answers) (r : SendRes) (pkt : Packet) : Decidable (RetryFails a r pkt) :=
  inferInstanceAs (Decidable (_ ∨ _))

/-- A leak toward the server that leaves nothing to send: the side stays blocked,
and the client is not read any more. -/
def LeakStalls (s : Connection) : Prop :=
  s.cliq.leak ≠ [] → s.isSvrblock = true ∧ s.cliq.blkpkt = none ∧ s.cliq.outq = []

/-- How a call that sends to the server ends. `short` is what a retry may be,
`more` when there is more to send behind it, `stuck` when a call that fails
leaves the block flag set. -/
structure ServerRet (W : World) (short more stuck ok : Prop) (c : Ctx) (out : Int × Ctx) :
    Prop where
  only : ToServer c out.2
  done : out.1 = 0 → Live W out.2 [] ∧ out.2.s.up.Ok ∧ out.2.s.isSvrerror = c.s.isSvrerror
  failed : out.1 ≠ 0 → Failed W out.2
  leak : ¬ short → out.2.s.cliq.leak = c.s.cliq.leak
  ok : ok → out.1 = 0
  flags : out.1 ≠ 0 → out.2.s.isSvrwait = false ∧ (out.2.s.isSvrblock = true → stuck)
  stalls : ¬ more → c.s.cliq.leak = [] → out.1 = 0 → LeakStalls out.2.s

/-- What `pkt`, taken whole, leaves for the next turn. -/
structure ServerNext (W : World) (pkt : Packet) (c c' : Ctx) : Prop where
  only : ToServer c c'
  live : Live W c' []
  up : c'.s.up = { c.s.up with block := false, sent := c.s.up.sent ++ pkt.unsent }
  svrfd : c'.s.svrfd = c.s.svrfd
  svrerror : c'.s.isSvrerror = c.s.isSvrerror

/-- A server side that is neither blocked nor waiting can be registered. -/
theorem Live.addSvr {hand : List Packet} (hl : Live W c hand) (h0 : 0 < c.s.svrfd)
    (hb : c.s.isSvrblock = false) (hw : c.s.isSvrwait = false) :
    epollAdd true c.wi.sendEpfd c.s.svrfd c.s.id = some ((c.s.svrfd, c.s.id) :: c.wi.sendEpfd) := by
  refine epollAdd_ok (hl.reg.not_in_send ⟨h0, .inr rfl⟩ ?_)
  rintro ⟨_, ⟨hc, _⟩ | ⟨_, hs | hs⟩⟩
  · exact hl.reg.ne hc
  · exact absurd hs (by simp [Connection.socks, hb])
  · exact absurd hs (by simp [Connection.socks, hw])

/-- A blocked server side is registered, so it can be removed. -/
theorem Live.delSvr {hand : List Packet} (hl : Live W c hand) (h0 : 0 < c.s.svrfd)
    (hb : c.s.isSvrblock = true ∨ c.s.isSvrwait = true) :
    epollDel true c.wi.sendEpfd c.s.svrfd = some (epollRemove c.wi.sendEpfd c.s.svrfd) :=
  epollDel_ok ((hl.reg.send _).mpr (.inr ⟨rfl, h0, .inr ⟨rfl, hb⟩⟩))

/-- A turn that fails: the packet goes back, whatever was taken of it. -/
theorem ServerRet.lost {pkt : Packet} {sent : List Byte} {pos : Nat} {short more stuck ok : Prop}
    (hl : Live W c [pkt]) (hw : c.s.isSvrwait = false) (hok : ¬ ok) (hstuck : c.s.isSvrblock = true → stuck) :
    ServerRet W short more stuck ok c
      (-1, { c with s.isSvrerror := true, s.wire.svrSent := sent }.put { pkt with sendpos := pos }) := by
  have hput : Failed W (c.put pkt) := ⟨hl.acct.put, hl.reg.closable⟩
  refine ⟨⟨.same rfl rfl, rfl, rfl, rfl, rfl⟩, by simp, fun _ => ?_, fun _ => rfl, fun h => absurd h hok,
    fun _ => ⟨hw, hstuck⟩, by simp⟩
  exact ⟨⟨hput.acct.1, hput.acct.2, hput.acct.3⟩, hput.clo⟩

theorem sendtoServerRound_spec {r : SendRes} {pkt : Packet} (hl : Live W c [pkt])
    (h0 : 0 < c.s.svrfd) (hu : Dir.InHand pkt c.s.up) :
    match sendtoServerRound a r pkt c with
    | .ret code c' =>
      ServerRet W (c.s.isSvrblock = true ∧ ShortToServer r pkt)
        ((c.s.isSvrblock = true ∧ ShortToServer r pkt) ∧ c.s.cliq.outq ≠ [])
        (c.s.isSvrblock = true ∧ RetryFails a r pkt)
        (r.Takes ∧ a.addBlk = true ∧ a.delBlk = true) c (code, c')
    | .next c' => ServerNext W pkt c c' := by
  have hblk : c.s.cliq.blkpkt = none := hu.blk
  have hw : c.s.isSvrwait = false := hu.wait
  unfold sendtoServerRound
  by_cases hn : skSend r pkt.unsent ≤ 0
  · simp only [if_pos hn]
    apply ServerRet.lost hl hw
    · exact fun hok => absurd (skSend_takes hok.1 hu.hand) (by omega)
    · exact fun hb => ⟨hb, .inl hn⟩
  simp only [if_neg hn]
  by_cases hlt : skSend r pkt.unsent < pkt.unsent.length
  · simp only [if_pos hlt]
    by_cases hb : c.s.isSvrblock = true
    · -- blocked already: `pkt` is dropped
      simp only [if_pos hb]
      refine ⟨⟨.same rfl rfl, rfl, rfl, rfl, rfl⟩, fun _ => ⟨⟨?_, hl.reg, hl.svr⟩, ?_, rfl⟩,
        by simp, fun hs => ?_, fun _ => rfl, by simp, fun hm _ _ _ => ⟨hb, hblk, ?_⟩⟩
      · refine hl.acct.moved rfl rfl rfl rfl ?_
        simp only [ids_append, Connection.ids_held, ids_cons, ids_nil]
        ac_rfl
      · exact hu.leaked _ _ hb
      · exact absurd ⟨hb, by omega, hlt⟩ hs
      · exact not_not.mp fun hne => hm ⟨⟨hb, by omega, hlt⟩, hne⟩
    · simp only [if_neg hb]
      rw [Bool.not_eq_true] at hb
      cases he : epollAdd a.addBlk c.wi.sendEpfd c.s.svrfd c.s.id with
      | none =>
        apply ServerRet.lost hl hw
        · intro hok
          rw [hok.2.1, hl.addSvr h0 hb hw] at he
          simp at he
        · exact fun hb' => absurd (hb.symm.trans hb') (by simp)
      | some ep =>
        refine ⟨⟨.same rfl rfl, rfl, rfl, rfl, rfl⟩, fun _ => ⟨⟨?_, ?_, ?_⟩, ?_, rfl⟩,
          by simp, fun hs => rfl, fun _ => rfl, by simp, fun _ hlk _ hne => absurd hlk hne⟩
        · refine hl.acct.moved rfl rfl rfl ?_ ?_
          · simp [Connection.nflags, hb]
            omega
          · simp only [ids_append, Connection.ids_held, ids_cons, ids_nil, Option.toList_some,
              Option.toList_none, hblk]
            ac_rfl
        · rw [epollAdd_some he]
          exact hl.reg.blockSvr h0
        · exact fun hz => absurd hz (by simp only; omega)
        · exact hu.blocked (toNat_lt (by omega) hlt)
  · simp only [if_neg hlt]
    by_cases hb : c.s.isSvrblock = true
    · simp only [if_pos hb]
      cases he : epollDel a.delBlk c.wi.sendEpfd c.s.svrfd with
      | none =>
        have hdel : a.delBlk ≠ true := by
          intro hdel
          rw [hdel, hl.delSvr h0 (.inl hb)] at he
          simp at he
        apply ServerRet.lost hl hw
        · exact fun hok => hdel hok.2.2
        · exact fun _ => ⟨hb, .inr ⟨hlt, Bool.not_eq_true _ ▸ hdel⟩⟩
      | some ep =>
        refine ⟨⟨.same rfl rfl, rfl, rfl, rfl, rfl⟩, ⟨?_, ?_, ?_⟩, ?_, rfl, rfl⟩
        · refine Acct.put (hl.acct.moved rfl rfl rfl ?_ rfl)
          simp [Connection.nflags, hb]
          omega
        · rw [epollDel_some he]
          exact hl.reg.unblockSvr h0 hw
        · exact fun hz => absurd hz (Nat.ne_of_gt h0)
        · simp only [Ctx.put, Connection.up, take_toNat hlt]
    · simp only [if_neg hb]
      rw [Bool.not_eq_true] at hb
      refine ⟨⟨.same rfl rfl, rfl, rfl, rfl, rfl⟩, ⟨?_, hl.reg, hl.svr⟩, ?_, rfl, rfl⟩
      · exact Acct.put (hl.acct.moved rfl rfl rfl rfl rfl)
      · simp only [Ctx.put, Connection.up, take_toNat hlt, hb]

/-- Taking the next packet of `cliq.outq` in hand. -/
theorem Live.popCli {hand : List Packet} {pkt : Packet} {q : List Packet} (hl : Live W c hand)
    (ho : c.s.cliq.outq = pkt :: q) : Live W { c with s.cliq.outq := q } (pkt :: hand) := by
  refine ⟨hl.acct.moved rfl rfl rfl rfl ?_, hl.reg, hl.svr⟩
  simp only [ids_append, Connection.ids_held, ids_cons, ho]
  ac_rfl

theorem Live.pickCli {hand : List Packet} {pkt : Packet} (hl : Live W c hand)
    (hb : c.s.cliq.blkpkt = some pkt) : Live W { c with s.cliq.blkpkt := none } (pkt :: hand) := by
  refine ⟨hl.acct.moved rfl rfl rfl rfl ?_, hl.reg, hl.svr⟩
  simp only [ids_append, Connection.ids_held, ids_cons, ids_nil, Option.toList_some,
    Option.toList_none, hb]
  ac_rfl

/-- A `send` past the end of the answers takes everything. -/
theorem headD_takes {rs : List SendRes} {pkt : Packet} (hp : pkt.unsent ≠ [])
    (hr : ∀ r ∈ rs, r.Takes) : (rs.headD (.accept pkt.data.length)).Takes := by
  cases rs with
  | cons r rs => exact hr r List.mem_cons_self
  | nil =>
    have hd : pkt.data ≠ [] := fun hd => hp (by simp [Packet.unsent, hd])
    exact ⟨pkt.data.length - 1, by
      rw [List.headD_nil, Nat.sub_add_cancel (List.length_pos_iff.mpr hd)]⟩

theorem sendtoServerLoop_spec (q : List Packet) :
    ∀ {rs : List SendRes} {pkt : Packet} {c : Ctx}, Live W c [pkt] → 0 < c.s.svrfd →
      Dir.InHand pkt c.s.up → c.s.cliq.outq = q →
      ServerRet W (c.s.isSvrblock = true ∧ ShortToServer (rs.headD (.accept pkt.data.length)) pkt)
        ((c.s.isSvrblock = true ∧ ShortToServer (rs.headD (.accept pkt.data.length)) pkt) ∧ q ≠ [])
        (c.s.isSvrblock = true ∧ RetryFails a (rs.headD (.accept pkt.data.length)) pkt)
        ((∀ r ∈ rs, r.Takes) ∧ a.addBlk = true ∧ a.delBlk = true) c
        (sendtoServerLoop a q rs pkt c) := by
  induction q with
  | nil =>
    intro rs pkt c hl h0 hu ho
    have hround := sendtoServerRound_spec (a := a) (r := rs.headD (.accept pkt.data.length)) hl h0 hu
    rw [sendtoServerLoop, sendLoop]
    generalize sendtoServerRound a (rs.headD (.accept pkt.data.length)) pkt c = round at hround ⊢
    cases round with
    | ret code c' =>
      exact ⟨hround.only, hround.done, hround.failed, hround.leak,
        fun hok => hround.ok ⟨headD_takes hu.hand hok.1, hok.2⟩, hround.flags,
        fun hm => hround.stalls (ho ▸ hm)⟩
    | next c' =>
      refine ⟨hround.only, fun _ => ⟨hround.live, ?_, hround.svrerror⟩, by simp, fun _ => ?_,
        fun _ => rfl, by simp, fun _ hlk _ hne => absurd hlk ?_⟩
      · rw [hround.up]
        exact hu.last ho
      · exact congrArg (·.q.leak) hround.up
      · rwa [show c'.s.cliq.leak = c.s.cliq.leak from congrArg (·.q.leak) hround.up] at hne
  | cons pkt' q ih =>
    intro rs pkt c hl h0 hu ho
    have hround := sendtoServerRound_spec (a := a) (r := rs.headD (.accept pkt.data.length)) hl h0 hu
    rw [sendtoServerLoop, sendLoop]
    generalize sendtoServerRound a (rs.headD (.accept pkt.data.length)) pkt c = round at hround ⊢
    cases round with
    | ret code c' =>
      exact ⟨hround.only, hround.done, hround.failed, hround.leak,
        fun hok => hround.ok ⟨headD_takes hu.hand hok.1, hok.2⟩, hround.flags,
        fun hm => hround.stalls (ho ▸ hm)⟩
    | next c' =>
      change ServerRet W _ _ _ _ c (sendtoServerLoop a q rs.tail pkt' (c'.setOutq .cli q))
      have hq : c'.s.cliq = c.s.cliq := congrArg Dir.q hround.up
      have hblock : c'.s.isSvrblock = false := congrArg Dir.block hround.up
      have hnext : Dir.InHand pkt' (c'.setOutq .cli q).s.up := by
        rw [show (c'.setOutq .cli q).s.up = { c'.s.up with q := { c'.s.up.q with outq := q } } from rfl,
          hround.up]
        exact hu.next ho
      have hlive : Live W (c'.setOutq .cli q) [pkt'] := hround.live.popCli (hq ▸ ho)
      have hrest := @ih rs.tail pkt' _ hlive (by rw [← hround.svrfd] at h0; exact h0) hnext rfl
      have hset : Frame c' (c'.setOutq .cli q) := .same rfl rfl
      refine ⟨hround.only.trans ⟨hset.trans hrest.only.frame, hrest.only.down,
        hrest.only.clierror, hrest.only.cliclose, hrest.only.svrclose⟩, fun hz => ?_, hrest.failed,
        fun _ => ?_, fun hok => hrest.ok ⟨fun r hr => hok.1 r (List.mem_of_mem_tail hr), hok.2⟩,
        fun hz => ⟨(hrest.flags hz).1, fun hb => ?_⟩, fun _ hlk => hrest.stalls ?_ ?_⟩
      · obtain ⟨hlive, hup, herr⟩ := hrest.done hz
        exact ⟨hlive, hup, herr.trans hround.svrerror⟩
      · refine (hrest.leak fun hs => ?_).trans (congrArg (·.leak) hq)
        exact absurd (hblock.symm.trans hs.1) (by simp)
      · exact absurd (hblock.symm.trans ((hrest.flags hz).2 hb).1) (by simp)
      · rintro ⟨⟨hb, _⟩, _⟩
        exact absurd (hblock.symm.trans hb) (by simp)
      · exact (congrArg (·.leak) hq).trans hlk

/-! ### Opening the server socket -/

/-- `sk_tcp_client_nb` gives a new descriptor. -/
theorem skTcpClientNb_new {r : ConnectRes} {fds : List Nat} {fd : Nat} {wait : Bool}
    (h : skTcpClientNb r fds = some (fd, wait)) : 0 < fd ∧ fd ∉ fds := by
  unfold skTcpClientNb at h
  split at h
  · simp at h
  all_goals
    split at h
    · next hc => simp only [Option.some.injEq, Prod.mk.injEq] at h; exact h.1 ▸ hc
    · simp at h

/-- A socket opened and closed again leaves everything as it was. -/
theorem Closable.reopened {send recv : EpollSet} {fds : List Nat} {k : Socks} {fd : Nat}
    (h : Closable W send recv fds k) (hf : fd ∉ fds) :
    Closable W (epollRemove send fd) (epollRemove recv fd)
      ((fd :: fds).filter fun x => x ≠ fd) k where
  sendKept p hp := by
    refine mem_epollRemove.mpr ⟨h.sendKept p hp, ?_⟩
    rintro rfl
    exact hf ((h.fds _).mpr (.inl (h.others p (.inl hp))))
  sendOwn p hp := h.sendOwn p (mem_epollRemove.mp hp).1
  recvKept p hp := by
    refine mem_epollRemove.mpr ⟨h.recvKept p hp, ?_⟩
    rintro rfl
    exact hf ((h.fds _).mpr (.inl (h.others p (.inr hp))))
  recvOwn p hp := h.recvOwn p (mem_epollRemove.mp hp).1
  fds g := by
    rw [← h.fds]
    simp only [List.mem_filter, List.mem_cons, decide_eq_true_eq]
    constructor
    · rintro ⟨rfl | hg, hne⟩
      · exact absurd rfl hne
      · exact hg
    · intro hg
      exact ⟨.inr hg, fun he => hf (he ▸ hg)⟩
  fresh := h.fresh
  others := h.others

/-- How `_work_get_server` ends. -/
structure GetServerRet (W : World) (ok : Prop) (c : Ctx) (out : Int × Ctx) : Prop where
  only : ToServer c out.2
  cliq : out.2.s.cliq = c.s.cliq
  block : out.2.s.isSvrblock = c.s.isSvrblock
  done : out.1 = 0 → Live W out.2 [] ∧ 0 < out.2.s.svrfd ∧ out.2.s.up.Ready ∧
    out.2.s.isSvrerror = c.s.isSvrerror
  failed : out.1 ≠ 0 → Failed W out.2
  flags : out.1 ≠ 0 → out.2.s.isSvrwait = false ∧ out.2.s.isSvrblock = false
  ok : ok → out.1 = 0
  /-- A server socket that is open stays as it is. -/
  opened : 0 < c.s.svrfd → out.1 = 0 ∧ out.2.s = c.s

theorem GetServerRet.call {ok : Prop} {out : Int × Ctx} {f : WorkFn} (hf : f ≠ .freeConnection)
    (h : GetServerRet W ok (c.call f) out) : GetServerRet W ok c out :=
  ⟨(ToServer.call c hf).trans h.only, h.cliq, h.block, h.done, h.failed, h.flags, h.ok, h.opened⟩

theorem workGetServer_spec (hl : Live W c []) (hu : c.s.up.Ready) :
    GetServerRet W ((skTcpClientNb a.connect c.wi.fds).isSome ∧ a.addSvr = true) c
      (workGetServer a c) := by
  refine GetServerRet.call (f := .getServer) (by decide) ?_
  change GetServerRet W ((skTcpClientNb a.connect (c.call .getServer).wi.fds).isSome ∧ _) _ _
  replace hl := hl.call .getServer
  replace hu : (c.call .getServer).s.up.Ready := hu
  unfold workGetServer
  generalize c.call .getServer = c at *
  by_cases h0 : 0 < c.s.svrfd
  · simp only [if_pos h0]
    exact ⟨⟨.refl c, rfl, rfl, rfl, rfl⟩, rfl, rfl, fun _ => ⟨hl, h0, hu, rfl⟩, by simp, by simp,
      fun _ => rfl, fun _ => ⟨rfl, rfl⟩⟩
  simp only [if_neg h0]
  have hs : c.s.svrfd = 0 := by omega
  obtain ⟨hb, hw⟩ := hl.svr hs
  cases hc : skTcpClientNb a.connect c.wi.fds with
  | none =>
    refine ⟨⟨.same rfl rfl, rfl, rfl, rfl, rfl⟩, rfl, rfl, by simp, fun _ => ?_,
      fun _ => ⟨hw, hb⟩, by simp, fun hpos => absurd hpos h0⟩
    exact ⟨⟨hl.acct.1, hl.acct.2, hl.acct.3⟩, hl.reg.closable⟩
  | some o =>
    obtain ⟨fd, wait⟩ := o
    obtain ⟨hfd, hnew⟩ := skTcpClientNb_new hc
    have hclosed : Failed W { c with wi := { c.wi with fds := fd :: c.wi.fds }.close fd, s.isSvrerror := true } :=
      ⟨⟨hl.acct.1, hl.acct.2, hl.acct.3⟩, hl.reg.closable.reopened hnew⟩
    cases wait with
    | true =>
      simp only [↓reduceIte]
      cases he : epollAdd a.addSvr c.wi.sendEpfd fd c.s.id with
      | none =>
        refine ⟨⟨.same rfl rfl, rfl, rfl, rfl, rfl⟩, rfl, rfl, by simp, fun _ => hclosed,
          fun _ => ⟨hw, hb⟩, fun hok => ?_, fun hpos => absurd hpos h0⟩
        rw [hok.2, epollAdd_ok (hl.reg.not_open_send hnew)] at he
        simp at he
      | some ep =>
        refine ⟨⟨.same rfl rfl, rfl, rfl, rfl, rfl⟩, rfl, rfl, fun _ => ⟨⟨?_, ?_, ?_⟩, hfd, ?_, rfl⟩,
          by simp, by simp, fun hok => rfl, fun hpos => absurd hpos h0⟩
        · refine hl.acct.moved rfl rfl rfl ?_ rfl
          simp [Connection.nflags, hw]
        · rw [epollAdd_some he]
          exact hl.reg.connecting hs hfd hnew
        · exact fun hz => absurd hz (Nat.ne_of_gt hfd)
        · exact ⟨hu.pkt, hu.inq, fun _ => hb, hu.idle, hu.stuck, hu.blk, hu.out, hu.stream⟩
    | false =>
      simp only [Bool.false_eq_true, ↓reduceIte]
      cases he : epollAdd a.addSvr c.wi.recvEpfd fd c.s.id with
      | none =>
        refine ⟨⟨.same rfl rfl, rfl, rfl, rfl, rfl⟩, rfl, rfl, by simp, fun _ => hclosed,
          fun _ => ⟨hw, hb⟩, fun hok => ?_, fun hpos => absurd hpos h0⟩
        rw [hok.2, epollAdd_ok (hl.reg.not_open_recv hnew)] at he
        simp at he
      | some ep =>
        refine ⟨⟨.same rfl rfl, rfl, rfl, rfl, rfl⟩, rfl, rfl, fun _ => ⟨⟨?_, ?_, ?_⟩, hfd, ?_, rfl⟩,
          by simp, by simp, fun hok => rfl, fun hpos => absurd hpos h0⟩
        · exact ⟨hl.acct.1, hl.acct.2, hl.acct.3⟩
        · rw [epollAdd_some he]
          exact hl.reg.connectedAtOnce hs hb hw hfd hnew
        · exact fun hz => absurd hz (Nat.ne_of_gt hfd)
        · exact ⟨hu.pkt, hu.inq, hu.wait, hu.idle, hu.stuck, hu.blk, hu.out, hu.stream⟩

/-! ### The whole call -/

/-- The packet a sender takes first: the blocked one, else the oldest queued. -/
def ConnectionQueue.first (q : ConnectionQueue) : Option Packet := q.blkpkt.or q.outq.head?

/-- The answer to the first `send` of a call. -/
def Answers.firstSend (a : Answers) (pkt : Packet) : SendRes :=
  a.sends.headD (.accept pkt.data.length)

/-- The send event would retry a blocked server side and find it blocked again. -/
def ShortServerRetry (a : Answers) (s : Connection) : Prop :=
  s.isSvrblock = true ∧ ∃ pkt, s.cliq.first = some pkt ∧ ShortToServer (a.firstSend pkt) pkt

instance (a : Answers) (s : Connection) : Decidable (ShortServerRetry a s) :=
  inferInstanceAs (Decidable (_ ∧ ∃ pkt, pkt ∈ s.cliq.first ∧ _))

/-- What is queued behind that packet. -/
def ConnectionQueue.rest (q : ConnectionQueue) : List Packet :=
  if q.blkpkt = none then q.outq.tail else q.outq

/-- Such a retry with more packets queued. -/
def ShortServerRetryMore (a : Answers) (s : Connection) : Prop :=
  ShortServerRetry a s ∧ s.cliq.rest ≠ []

instance (a : Answers) (s : Connection) : Decidable (ShortServerRetryMore a s) :=
  inferInstanceAs (Decidable (_ ∧ _))

/-- The send event retries a blocked server side, and the first call fails. -/
def ServerStuck (a : Answers) (s : Connection) : Prop :=
  s.isSvrblock = true ∧ ∃ pkt, s.cliq.first = some pkt ∧ RetryFails a (a.firstSend pkt) pkt

instance (a : Answers) (s : Connection) : Decidable (ServerStuck a s) :=
  inferInstanceAs (Decidable (_ ∧ ∃ pkt, pkt ∈ s.cliq.first ∧ _))

/-- What keeps a call that sends to the server from failing. -/
def ServerGood (a : Answers) (c : Ctx) : Prop :=
  (∀ r ∈ a.sends, r.Takes) ∧ a.addBlk = true ∧ a.delBlk = true ∧
    (0 < c.s.svrfd ∨ (skTcpClientNb a.connect c.wi.fds).isSome ∧ a.addSvr = true)

instance (a : Answers) (c : Ctx) : Decidable (ServerGood a c) :=
  inferInstanceAs (Decidable (_ ∧ _ ∧ _ ∧ (_ ∨ _ ∧ _)))

theorem ServerRet.call {short more stuck ok : Prop} {out : Int × Ctx} {f : WorkFn} (hf : f ≠ .freeConnection)
    (h : ServerRet W short more stuck ok (c.call f) out) : ServerRet W short more stuck ok c out :=
  ⟨(ToServer.call c hf).trans h.only, h.done, h.failed, h.leak, h.ok, h.flags, h.stalls⟩

/-- With nothing to send, the server is not even connected to. -/
theorem workSendtoServer_idle (ho : c.s.cliq.outq = []) (hb : c.s.cliq.blkpkt = none) :
    workSendtoServer a c = (0, c.call .sendtoServer) := by
  simp [workSendtoServer, Ctx.call, ho, hb]

/-- While the connect is in progress nothing is sent. -/
theorem workSendtoServer_wait (h0 : 0 < c.s.svrfd) (hw : c.s.isSvrwait = true) :
    (workSendtoServer a c).1 = 0 ∧ (workSendtoServer a c).2.s = c.s := by
  simp only [workSendtoServer, workGetServer, Ctx.call, h0, ↓reduceIte, hw]
  split <;> simp

theorem workSendtoServer_spec (hl : Live W c []) (hu : c.s.up.Ready) :
    ServerRet W (ShortServerRetry a c.s) (ShortServerRetryMore a c.s) (ServerStuck a c.s)
      (ServerGood a c) c (workSendtoServer a c) := by
  refine ServerRet.call (f := .sendtoServer) (by decide) ?_
  change ServerRet W (ShortServerRetry a (c.call .sendtoServer).s)
    (ShortServerRetryMore a (c.call .sendtoServer).s) (ServerStuck a (c.call .sendtoServer).s)
      (ServerGood a (c.call .sendtoServer)) _ _
  replace hl := hl.call .sendtoServer
  replace hu : (c.call .sendtoServer).s.up.Ready := hu
  unfold workSendtoServer
  generalize c.call .sendtoServer = c at *
  by_cases hidle : c.s.cliq.outq.length < 1 ∧ c.s.cliq.blkpkt = none
  · simp only [if_pos hidle]
    have ho : c.s.cliq.outq = [] := List.length_eq_zero_iff.mp (by omega)
    exact ⟨⟨.refl c, rfl, rfl, rfl, rfl⟩, fun _ => ⟨hl, ⟨hu, fun _ _ => ho⟩, rfl⟩, by simp,
      fun _ => rfl, fun _ => rfl, by simp, fun _ hlk _ hne => absurd hlk hne⟩
  simp only [if_neg hidle]
  have hg := workGetServer_spec (a := a) hl hu
  generalize workGetServer a c = out at hg ⊢
  obtain ⟨r, c'⟩ := out
  obtain ⟨honly, hcliq, hblock, hdone, hfailed, hflags, hok, hopen⟩ := hg
  have hleak : c'.s.cliq.leak = c.s.cliq.leak := congrArg (·.leak) hcliq
  have hgood : ServerGood a c → r = 0 := by
    rintro ⟨_, _, _, h0 | hc⟩
    · exact (hopen h0).1
    · exact hok hc
  by_cases hr : r = 0
  · simp only [hr, ne_eq, not_true_eq_false, ↓reduceIte]
    obtain ⟨hl', h0', hu', herr'⟩ := hdone hr
    by_cases hw : c'.s.isSvrwait = true
    · simp only [if_pos hw]
      refine ⟨honly, fun _ => ⟨hl', ⟨hu', fun _ hw' => ?_⟩, herr'⟩, by simp, fun _ => hleak, fun _ => rfl,
        by simp, fun _ hlk _ hne => absurd (hleak.trans hlk) hne⟩
      exact absurd (hw.symm.trans hw') (by simp)
    simp only [if_neg hw]
    rw [Bool.not_eq_true] at hw
    -- the packet taken first, from either place
    suffices h : ∀ c'' pkt, Live W c'' [pkt] → 0 < c''.s.svrfd → Dir.InHand pkt c''.s.up →
        ToServer c' c'' → c''.s.isSvrblock = c'.s.isSvrblock → c''.s.isSvrerror = c'.s.isSvrerror →
        c''.s.cliq.leak = c'.s.cliq.leak → c.s.cliq.first = some pkt →
        c.s.cliq.rest = c''.s.cliq.outq →
        ServerRet W (ShortServerRetry a c.s) (ShortServerRetryMore a c.s) (ServerStuck a c.s)
          (ServerGood a c) c
          (sendtoServerLoop a c''.s.cliq.outq a.sends pkt c'') by
      split
      · next pkt hb =>
        refine h _ pkt (hl'.pickCli hb) h0' (hu'.pick hb hw) ⟨.same rfl rfl, rfl, rfl, rfl, rfl⟩
          rfl rfl rfl ?_ ?_
        · rw [ConnectionQueue.first, ← hcliq, hb, Option.some_or]
        · rw [ConnectionQueue.rest, ← hcliq, hb, if_neg (by simp)]
      · next hb =>
        have hne : c'.s.cliq.outq ≠ [] := by
          intro ho
          rw [hcliq] at hb ho
          exact hidle ⟨by simp [ho], hb⟩
        obtain ⟨pkt, q, ho⟩ := List.exists_cons_of_ne_nil hne
        rw [ho]
        refine h _ pkt (hl'.popCli ho) h0' (hu'.pop hb ho hw) ⟨.same rfl rfl, rfl, rfl, rfl, rfl⟩
          rfl rfl rfl ?_ ?_
        · rw [ConnectionQueue.first, ← hcliq, hb, ho]
          rfl
        · rw [ConnectionQueue.rest, ← hcliq, hb, ho, if_pos rfl]
          rfl
    intro c'' pkt hl'' h0'' hu'' hto hblk herr hlk hfirst hrest
    have hloop := @sendtoServerLoop_spec W a c''.s.cliq.outq a.sends pkt c'' hl'' h0'' hu'' rfl
    refine ⟨(honly.trans hto).trans hloop.only, fun hz => ?_, hloop.failed, fun hs => ?_, fun hgd => ?_,
      fun hz => ⟨(hloop.flags hz).1, fun hb => ?_⟩, fun hm hlk' => hloop.stalls (fun hm' => hm ?_) ?_⟩
    · obtain ⟨h1, h2, h3⟩ := hloop.done hz
      exact ⟨h1, h2, (h3.trans herr).trans herr'⟩
    · refine ((hloop.leak fun hs' => hs ?_).trans hlk).trans hleak
      exact ⟨by rw [← hblock, ← hblk]; exact hs'.1, pkt, hfirst, hs'.2⟩
    · exact hloop.ok ⟨hgd.1, hgd.2.1, hgd.2.2.1⟩
    · have hs' := (hloop.flags hz).2 hb
      exact ⟨by rw [← hblock, ← hblk]; exact hs'.1, pkt, hfirst, hs'.2⟩
    · obtain ⟨⟨hb', hshort⟩, hne⟩ := hm'
      exact ⟨⟨by rw [← hblock, ← hblk]; exact hb', pkt, hfirst, hshort⟩, hrest ▸ hne⟩
    · exact (hlk.trans hleak).trans hlk'
  · simp only [ne_eq, hr, not_false_eq_true, ↓reduceIte]
    exact ⟨honly, by simp, fun _ => hfailed hr, fun _ => hleak, fun hgd => absurd (hgood hgd) hr,
      fun _ => ⟨(hflags hr).1, fun hb => absurd ((hflags hr).2.symm.trans hb) (by simp)⟩,
      fun _ _ hz => absurd hz (by simp)⟩

/-! ## To the client -/

/-- The direction to the client between events: at most one packet waits, the
blocked one, and after a leak the side stays blocked with none. -/
structure Connection.DownOk (s : Connection) : Prop where
  ok : s.down.Ok
  outq : s.svrq.outq = []
  stuck : s.svrq.leak ≠ [] → s.isCliblock = true ∧ s.svrq.blkpkt = none

/-- The direction to the client before the sender runs. -/
structure Connection.DownReady (s : Connection) : Prop where
  ready : s.down.Ready
  one : s.svrq.blkpkt.toList.length + s.svrq.outq.length ≤ 1
  stuck : s.svrq.leak ≠ [] → s.isCliblock = true ∧ s.svrq.blkpkt = none ∧ s.svrq.outq = []

/-- How a call that sends to the client ends. -/
structure ClientRet (W : World) (short : Prop) (ok : Prop) (c : Ctx) (out : Int × Ctx) :
    Prop where
  only : ToClient c out.2
  done : out.1 = 0 → Live W out.2 [] ∧ out.2.s.DownOk ∧ out.2.s.isClierror = c.s.isClierror
  failed : out.1 ≠ 0 → Failed W out.2
  leak : ¬ short → out.2.s.svrq.leak = c.s.svrq.leak
  ok : ok → out.1 = 0
  flags : out.1 ≠ 0 → out.2.s.nflags ≤ c.s.nflags

theorem ToClient.refl (c : Ctx) : ToClient c c := ⟨.refl c, rfl, rfl, rfl, rfl, rfl⟩

theorem ToClient.trans {c c' c'' : Ctx} (h : ToClient c c') (h' : ToClient c' c'') :
    ToClient c c'' :=
  ⟨h.frame.trans h'.frame, h'.up.trans h.up, h'.svrfd.trans h.svrfd, h'.cliclose.trans h.cliclose,
    h'.svrerror.trans h.svrerror, h'.svrclose.trans h.svrclose⟩

theorem ClientRet.call {short ok : Prop} {out : Int × Ctx} {f : WorkFn} (hf : f ≠ .freeConnection)
    (h : ClientRet W short ok (c.call f) out) : ClientRet W short ok c out :=
  ⟨ToClient.trans ⟨.call c hf, rfl, rfl, rfl, rfl, rfl⟩ h.only, h.done, h.failed, h.leak, h.ok,
    h.flags⟩

theorem Live.addCli {hand : List Packet} (hl : Live W c hand) (hb : c.s.isCliblock = false) :
    epollAdd true c.wi.sendEpfd c.s.clifd c.s.id = some ((c.s.clifd, c.s.id) :: c.wi.sendEpfd) := by
  refine epollAdd_ok (hl.reg.not_in_send ⟨hl.reg.cli, .inl rfl⟩ ?_)
  rintro ⟨_, ⟨_, hc⟩ | ⟨hs, _⟩⟩
  · exact absurd hc (by simp [Connection.socks, hb])
  · exact hl.reg.ne hs.symm

theorem Live.delCli {hand : List Packet} (hl : Live W c hand) (hb : c.s.isCliblock = true) :
    epollDel true c.wi.sendEpfd c.s.clifd = some (epollRemove c.wi.sendEpfd c.s.clifd) :=
  epollDel_ok ((hl.reg.send _).mpr (.inr ⟨rfl, hl.reg.cli, .inl ⟨rfl, hb⟩⟩))

theorem Live.popSvr {hand : List Packet} {pkt : Packet} {q : List Packet} (hl : Live W c hand)
    (ho : c.s.svrq.outq = pkt :: q) : Live W { c with s.svrq.outq := q } (pkt :: hand) := by
  refine ⟨hl.acct.moved rfl rfl rfl rfl ?_, hl.reg, hl.svr⟩
  simp only [ids_append, Connection.ids_held, ids_cons, ho]
  ac_rfl

theorem Live.pickSvr {hand : List Packet} {pkt : Packet} (hl : Live W c hand)
    (hb : c.s.svrq.blkpkt = some pkt) : Live W { c with s.svrq.blkpkt := none } (pkt :: hand) := by
  refine ⟨hl.acct.moved rfl rfl rfl rfl ?_, hl.reg, hl.svr⟩
  simp only [ids_append, Connection.ids_held, ids_cons, ids_nil, Option.toList_some,
    Option.toList_none, hb]
  ac_rfl

/-- A turn that fails: the packet goes back, whatever was taken of it. -/
theorem ClientRet.lost {pkt : Packet} {sent : List Byte} {pos : Nat} {e : Bool} {short ok : Prop}
    (hl : Live W c [pkt]) (hok : ¬ ok) :
    ClientRet W short ok c
      (-1, { c with s.isClierror := e, s.wire.cliSent := sent }.put { pkt with sendpos := pos }) := by
  have hput : Failed W (c.put pkt) := ⟨hl.acct.put, hl.reg.closable⟩
  refine ⟨⟨.same rfl rfl, rfl, rfl, rfl, rfl, rfl⟩, by simp, fun _ => ?_, fun _ => rfl, fun h => absurd h hok,
    fun _ => Nat.le_refl _⟩
  exact ⟨⟨hput.acct.1, hput.acct.2, hput.acct.3⟩, hput.clo⟩

/-- One turn holding the only packet of the direction: whether the function
returns or goes on, to an empty queue, the direction is well again. -/
theorem sendtoClientRound_spec {r : SendRes} {pkt : Packet} (hl : Live W c [pkt])
    (hu : Dir.InHand pkt c.s.down) (ho : c.s.svrq.outq = []) (hleak : c.s.svrq.leak = []) :
    ClientRet W (c.s.isCliblock = true ∧ ShortToClient r pkt)
      (r ≠ .error ∧ a.addBlk = true ∧ a.delBlk = true) c
      (match sendtoClientRound a r pkt c with
        | .ret code c' => (code, c')
        | .next c' => (0, c')) := by
  have hblk : c.s.svrq.blkpkt = none := hu.blk
  unfold sendtoClientRound
  by_cases hn : skSend r pkt.unsent < 0
  · simp only [if_pos hn]
    apply ClientRet.lost hl
    exact fun hok => absurd (skSend_nonneg hok.1 hu.hand) (by omega)
  simp only [if_neg hn]
  by_cases hlt : skSend r pkt.unsent < pkt.unsent.length
  · simp only [if_pos hlt]
    by_cases hb : c.s.isCliblock = true
    · -- blocked already: `pkt` is dropped
      simp only [if_pos hb]
      refine ⟨⟨.same rfl rfl, rfl, rfl, rfl, rfl, rfl⟩, fun _ => ⟨⟨?_, hl.reg, hl.svr⟩, ⟨?_, ho, ?_⟩, rfl⟩,
        by simp, fun hs => ?_, fun _ => rfl, by simp⟩
      · refine hl.acct.moved rfl rfl rfl rfl ?_
        simp only [ids_append, Connection.ids_held, ids_cons, ids_nil]
        ac_rfl
      · exact hu.leaked _ _ hb
      · exact fun _ => ⟨hb, hblk⟩
      · exact absurd ⟨hb, by omega, hlt⟩ hs
    · simp only [if_neg hb]
      rw [Bool.not_eq_true] at hb
      cases he : epollAdd a.addBlk c.wi.sendEpfd c.s.clifd c.s.id with
      | none =>
        apply ClientRet.lost (e := c.s.isClierror) hl
        intro hok
        rw [hok.2.1, hl.addCli hb] at he
        simp at he
      | some ep =>
        refine ⟨⟨.same rfl rfl, rfl, rfl, rfl, rfl, rfl⟩, fun _ => ⟨⟨?_, ?_, hl.svr⟩, ⟨?_, ho, ?_⟩, rfl⟩,
          by simp, fun hs => rfl, fun _ => rfl, by simp⟩
        · refine hl.acct.moved rfl rfl rfl ?_ ?_
          · simp [Connection.nflags, hb]
            omega
          · simp only [ids_append, Connection.ids_held, ids_cons, ids_nil, Option.toList_some,
              Option.toList_none, hblk]
            ac_rfl
        · rw [epollAdd_some he]
          exact hl.reg.blockCli
        · exact hu.blocked (toNat_lt (by omega) hlt)
        · exact fun hne => absurd hleak hne
  · simp only [if_neg hlt]
    have hlast := hu.last ho
    by_cases hb : c.s.isCliblock = true
    · simp only [if_pos hb]
      cases he : epollDel a.delBlk c.wi.sendEpfd c.s.clifd with
      | none =>
        apply ClientRet.lost (e := c.s.isClierror) hl
        intro hok
        rw [hok.2.2, hl.delCli hb] at he
        simp at he
      | some ep =>
        refine ⟨⟨.same rfl rfl, rfl, rfl, rfl, rfl, rfl⟩, fun _ => ⟨⟨?_, ?_, hl.svr⟩, ⟨?_, ho, ?_⟩, rfl⟩,
          by simp, fun hs => rfl, fun _ => rfl, by simp⟩
        · refine Acct.put (hl.acct.moved rfl rfl rfl ?_ rfl)
          simp [Connection.nflags, hb]
          omega
        · rw [epollDel_some he]
          exact hl.reg.unblockCli
        · simpa only [Ctx.put, Connection.down, take_toNat hlt] using hlast
        · exact fun hne => absurd hleak hne
    · simp only [if_neg hb]
      rw [Bool.not_eq_true] at hb
      refine ⟨⟨.same rfl rfl, rfl, rfl, rfl, rfl, rfl⟩, fun _ => ⟨⟨?_, hl.reg, hl.svr⟩, ⟨?_, ho, ?_⟩, rfl⟩,
          by simp, fun hs => rfl, fun _ => rfl, by simp⟩
      · exact Acct.put (hl.acct.moved rfl rfl rfl rfl rfl)
      · simpa only [Ctx.put, Connection.down, take_toNat hlt, hb] using hlast
      · exact fun hne => absurd hleak hne

/-- The send event would retry a blocked client side and find it blocked again. -/
def ShortClientRetry (a : Answers) (s : Connection) : Prop :=
  s.isCliblock = true ∧ ∃ pkt, s.svrq.first = some pkt ∧ ShortToClient (a.firstSend pkt) pkt

instance (a : Answers) (s : Connection) : Decidable (ShortClientRetry a s) :=
  inferInstanceAs (Decidable (_ ∧ ∃ pkt, pkt ∈ s.svrq.first ∧ _))

/-- What keeps a call that sends to the client from failing. -/
def ClientGood (a : Answers) : Prop :=
  (∀ r ∈ a.sends, r ≠ .error) ∧ a.addBlk = true ∧ a.delBlk = true

instance (a : Answers) : Decidable (ClientGood a) := inferInstanceAs (Decidable (_ ∧ _ ∧ _))

theorem workSendtoClient_spec (hl : Live W c []) (hu : c.s.DownReady) :
    ClientRet W (ShortClientRetry a c.s) (ClientGood a) c (workSendtoClient a c) := by
  refine ClientRet.call (f := .sendtoClient) (by decide) ?_
  change ClientRet W (ShortClientRetry a (c.call .sendtoClient).s) _ _ _
  replace hl := hl.call .sendtoClient
  replace hu : (c.call .sendtoClient).s.DownReady := hu
  unfold workSendtoClient
  generalize c.call .sendtoClient = c at *
  by_cases hidle : c.s.svrq.outq.length < 1 ∧ c.s.svrq.blkpkt = none
  · simp only [if_pos hidle]
    have ho : c.s.svrq.outq = [] := List.length_eq_zero_iff.mp (by omega)
    refine ⟨.refl c, fun _ => ⟨hl, ⟨⟨hu.ready, fun _ _ => ho⟩, ho, ?_⟩, rfl⟩, by simp,
      fun _ => rfl, fun _ => rfl, by simp⟩
    exact fun hne => ⟨(hu.stuck hne).1, hidle.2⟩
  simp only [if_neg hidle]
  have hleak : c.s.svrq.leak = [] := by
    by_contra hne
    obtain ⟨_, hb, ho⟩ := hu.stuck hne
    exact hidle ⟨by simp [ho], hb⟩
  -- the packet taken first, from either place, is the only one
  suffices h : ∀ c' pkt, Live W c' [pkt] → Dir.InHand pkt c'.s.down → c'.s.svrq.outq = [] →
      ToClient c c' → c'.s.svrq.leak = c.s.svrq.leak → c'.s.isCliblock = c.s.isCliblock →
      c'.s.isClierror = c.s.isClierror → c.s.svrq.first = some pkt →
      ClientRet W (ShortClientRetry a c.s) (ClientGood a) c
        (sendtoClientLoop a c'.s.svrq.outq a.sends pkt c') by
    split
    · next pkt hb =>
      have ho : c.s.svrq.outq = [] := by
        have hone := hu.one
        rw [hb, Option.toList_some, List.length_singleton] at hone
        exact List.length_eq_zero_iff.mp (by omega)
      refine h _ pkt (hl.pickSvr hb) (hu.ready.pick hb rfl) ho ⟨.same rfl rfl, rfl, rfl, rfl, rfl, rfl⟩
        rfl rfl rfl ?_
      rw [ConnectionQueue.first, hb, Option.some_or]
    · next hb =>
      have hne : c.s.svrq.outq ≠ [] := fun ho => hidle ⟨by simp [ho], hb⟩
      obtain ⟨pkt, q, ho⟩ := List.exists_cons_of_ne_nil hne
      have hq : q = [] := by
        have hone := hu.one
        rw [ho, List.length_cons] at hone
        exact List.length_eq_zero_iff.mp (by omega)
      rw [ho]
      refine h _ pkt (hl.popSvr ho) (hu.ready.pop hb ho rfl) hq
        ⟨.same rfl rfl, rfl, rfl, rfl, rfl, rfl⟩ rfl rfl rfl ?_
      rw [ConnectionQueue.first, hb, ho]
      rfl
  intro c' pkt hl' hin ho hto hlk hblk herr hfirst
  have hr := sendtoClientRound_spec (a := a) (r := a.firstSend pkt) hl' hin ho (hlk.trans hleak)
  have hloop : sendtoClientLoop a c'.s.svrq.outq a.sends pkt c' =
      match sendtoClientRound a (a.firstSend pkt) pkt c' with
      | .ret code c' => (code, c')
      | .next c' => (0, c') := by
    rw [ho, sendtoClientLoop, sendLoop]
    rfl
  rw [hloop]
  refine ⟨hto.trans hr.only, fun hz => ?_, hr.failed, fun hs => ?_, fun hg => hr.ok ⟨?_, hg.2⟩,
    fun hz => (hr.flags hz).trans ?_⟩
  · obtain ⟨h1, h2, h3⟩ := hr.done hz
    exact ⟨h1, h2, h3.trans herr⟩
  · refine (hr.leak fun hs' => hs ?_).trans hlk
    exact ⟨hblk.symm.trans hs'.1, pkt, hfirst, hs'.2⟩
  · unfold Answers.firstSend
    cases hsends : a.sends with
    | nil => simp
    | cons r rs => exact hg.1 r (by simp [hsends])
  · have hup := hto.up
    simp only [Connection.up, Dir.mk.injEq] at hup
    unfold Connection.nflags
    rw [hblk, hup.2.1, hup.2.2.1]

end

end WafProxy
