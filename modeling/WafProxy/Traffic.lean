import Mathlib.Algebra.Group.Nat.Defs
import Mathlib.Algebra.Group.Int.Defs
import WafProxy.Lib.Machine
import WafProxy.Worker

/-
  The traffic log — clock.c, log_db.c and the receive steps of work2.c

  The workers count the bytes they receive in `g_cfg.stat`; every 300 seconds
  `_update_traffic` has `log_traffic` insert the counters as a row of
  `waf_status_cdate` and clears them. All of it runs under the statistics lock,
  so a receive step and a tick are single steps here.

  What is proved:
    1. `recvfrom_counts` — a receive step counts what it received.
    2. `traffic_step` — a step loses no byte exactly when it meets `Logged`.
    3. `traffic_run` — the rows and the counters account for every byte received
       exactly when every step of the run does.

  Correspondence (C ↔ Lean):
    `_work_recvfrom_client`, `_work_recvfrom_server` ↔ `Side.recvfrom`
    `_update_traffic`                                ↔ `updateTraffic`
    `log_traffic`                                    ↔ `logTraffic`

  What MySQL answers is `DbAnswers`. The other counters of `g_cfg.stat` may take
  any value between two ticks.
-/

namespace WafProxy
open Lib

/-- `tlog_t`. -/
structure Tlog where
  clirecv : UInt64
  svrrecv : UInt64
  nlive : UInt64
  nowlive : UInt64

/-- A row of `waf_status_cdate`: the numbers that `%d` and `%ld` print. -/
structure StatusRow where
  agent : Int
  cliRecv : Int
  svrRecv : Int
  newConn : Int
  nowConn : Int
  deriving DecidableEq, Repr

/-- Whether there is a connection, whether `mysql_query` succeeds on it, whether
`recon_log_db` gets a new one, and whether `mysql_query` succeeds on that. -/
structure DbAnswers where
  handle : Bool := true
  first : Bool := true
  reconnect : Bool := true
  second : Bool := true
  deriving DecidableEq, Repr

/-- The insert succeeds, at once or after the reconnect. -/
def DbAnswers.Stores (o : DbAnswers) : Prop := o.handle ∧ (o.first ∨ (o.reconnect ∧ o.second))

instance (o : DbAnswers) : Decidable o.Stores := inferInstanceAs (Decidable (_ ∧ _))

/-- `log_traffic`: its return value, and the row that was inserted. -/
def logTraffic (o : DbAnswers) (wafid : Int32) (tlog : Tlog) : Int × Option StatusRow :=
  let row : StatusRow := {
    agent := wafid.toInt
    cliRecv := tlog.clirecv.toInt64.toInt
    svrRecv := tlog.svrrecv.toInt64.toInt
    newConn := tlog.nlive.toInt64.toInt
    nowConn := tlog.nowlive.toInt64.toInt }
  if o.handle then
    if o.first then (0, some row)
    else if o.reconnect ∧ o.second then (0, some row)
    else (-1, none)
  else (0, none)

/-- `g_cfg.stat` as the clock sees it, the rows inserted so far (the last one
first), and the bytes the workers received, which is bookkeeping. -/
structure TrafficState where
  stat : ProxyStat := {}
  nlive : UInt64 := 0
  rows : List StatusRow := []
  cliBytes : Nat := 0
  svrBytes : Nat := 0
  deriving DecidableEq, Repr

/-- `_update_traffic`, which does not look at what `log_traffic` returns. -/
def updateTraffic (o : DbAnswers) (wafid : Int32) (st : TrafficState) : TrafficState :=
  match logTraffic o wafid ⟨st.stat.nclirecv, st.stat.nsvrrecv, st.nlive, st.stat.nowlive⟩ with
  | (_, row) =>
    { st with
      stat := { st.stat with nsvrrecv := 0, nclirecv := 0 }
      nlive := 0
      rows := row.toList ++ st.rows }

/-! ## The two sides -/

def Side.recvfrom : Side → Answers → Ctx → Int × Ctx
  | .cli => workRecvfromClient
  | .svr => workRecvfromServer

def Side.counter : Side → ProxyStat → UInt64
  | .cli, stat => stat.nclirecv
  | .svr, stat => stat.nsvrrecv

/-- The bytes a connection ever received from this side. -/
def Side.received : Side → Connection → Nat
  | .cli, s => s.wire.cliRecv.length
  | .svr, s => s.wire.svrRecv.length

def Side.logged : Side → StatusRow → Int
  | .cli, row => row.cliRecv
  | .svr, row => row.svrRecv

def Side.bytes : Side → TrafficState → Nat
  | .cli, st => st.cliBytes
  | .svr, st => st.svrBytes

/-- The sum of what the rows say about this side. -/
def Side.sum (q : Side) : List StatusRow → Int
  | [] => 0
  | row :: rows => q.logged row + q.sum rows

inductive TrafficInput where
  | recv (q : Side) (a : Answers) (c : Ctx)
  | tick (o : DbAnswers)
  | others (nlive nowlive : UInt64)

/-- The statistics of the process are those of the worker that runs. -/
def Ctx.onStat (c : Ctx) (stat : ProxyStat) : Ctx := { c with wi.stat := stat }

/-- The bytes a receive step gets. -/
def Side.got (q : Side) (a : Answers) (c : Ctx) : Nat :=
  q.received (q.recvfrom a c).2.s - q.received c.s

def trafficStep (wafid : Int32) (st : TrafficState) : TrafficInput → Option TrafficState
  | .recv q a c =>
    let c := c.onStat st.stat
    let st := { st with stat := (q.recvfrom a c).2.wi.stat }
    match q with
    | .cli => some { st with cliBytes := st.cliBytes + q.got a c }
    | .svr => some { st with svrBytes := st.svrBytes + q.got a c }
  | .tick o => some (updateTraffic o wafid st)
  | .others nlive nowlive => some { st with nlive := nlive, stat := { st.stat with nowlive := nowlive } }

/-- The workers, the accept thread and the clock, in any order. -/
def traffic (wafid : Int32) : Machine TrafficState TrafficInput where
  init := {}
  step := trafficStep wafid

/-! ## A receive step counts what it got -/

def Side.other : Side → Side
  | .cli => .svr
  | .svr => .cli

/-- `n` bytes more are received and counted on one side, none on the other. -/
structure Counted (q : Side) (c c' : Ctx) (n : Nat) : Prop where
  received : q.received c'.s = q.received c.s + n
  counter : q.counter c'.wi.stat = q.counter c.wi.stat + UInt64.ofNat n
  other : q.other.counter c'.wi.stat = q.other.counter c.wi.stat

theorem counted_none {q : Side} {c c' : Ctx} (hs : q.received c'.s = q.received c.s)
    (hwi : c'.wi.stat = c.wi.stat) : Counted q c c' 0 := by
  refine ⟨hs, ?_, by rw [hwi]⟩
  rw [hwi]
  exact (UInt64.add_zero _).symm

theorem gotfromClient_counted (pkt : Packet) (got : List Byte) (close : Bool) (c : Ctx) :
    Counted .cli c (gotfromClient pkt got close c) got.length := by
  have hlen : (c.s.wire.cliRecv ++ got).length = c.s.wire.cliRecv.length + got.length :=
    List.length_append
  unfold gotfromClient Ctx.dropClient
  dsimp only
  split <;> split <;> exact ⟨hlen, rfl, rfl⟩

theorem gotfromServer_counted (pkt : Packet) (got : List Byte) (close : Bool) (c : Ctx) :
    Counted .svr c (gotfromServer pkt got close c) got.length := by
  have hlen : (c.s.wire.svrRecv ++ got).length = c.s.wire.svrRecv.length + got.length :=
    List.length_append
  unfold gotfromServer Ctx.dropServer
  dsimp only
  split <;> split <;> exact ⟨hlen, rfl, rfl⟩

theorem recvfrom_counts (q : Side) (a : Answers) (c : Ctx) :
    ∃ n, Counted q c (q.recvfrom a c).2 n := by
  cases q with
  | cli =>
    simp only [Side.recvfrom, workRecvfromClient, workGetPacket]
    split
    next hget =>
      split at hget <;> cases hget
      exact ⟨0, counted_none rfl rfl⟩
    next pkt c' hget =>
      split at hget <;> cases hget
      split
      · exact ⟨0, counted_none rfl rfl⟩
      · obtain ⟨hs, hc, ho⟩ := gotfromClient_counted _ _ _
          (((c.call .recvfromClient).call .getPacket).withPkt .cli
            ((c.call .recvfromClient).call .getPacket).newPkt)
        exact ⟨_, hs, hc, ho⟩
  | svr =>
    simp only [Side.recvfrom, workRecvfromServer, workGetPacket]
    split
    next hget =>
      split at hget <;> cases hget
      exact ⟨0, counted_none rfl rfl⟩
    next pkt c' hget =>
      split at hget <;> cases hget
      split
      · exact ⟨0, counted_none rfl rfl⟩
      · obtain ⟨hs, hc, ho⟩ := gotfromServer_counted _ _ _
          (((c.call .recvfromServer).call .getPacket).withPkt .svr
            ((c.call .recvfromServer).call .getPacket).newPkt)
        exact ⟨_, hs, hc, ho⟩

/-- What a receive step counts is what it got. -/
theorem got_counted (q : Side) (a : Answers) (c : Ctx) :
    Counted q c (q.recvfrom a c).2 (q.got a c) := by
  obtain ⟨n, hn⟩ := recvfrom_counts q a c
  have hgot : q.got a c = n := by
    rw [Side.got, hn.received, Nat.add_sub_cancel_left]
  rw [hgot]
  exact hn

/-! ## What a step loses -/

/-- The bytes of a side that no row and no counter accounts for. -/
def TrafficState.lost (st : TrafficState) (q : Side) : Int :=
  q.bytes st - (q.sum st.rows + (q.counter st.stat).toNat)

/-- A step loses nothing of a side: a counter does not overflow, and a tick has
nothing to store, or stores a number that `%ld` prints as it is. -/
def LoggedOn (q : Side) (st : TrafficState) : TrafficInput → Prop
  | .recv q' a c => q' = q → (q.counter st.stat).toNat + q.got a (c.onStat st.stat) < 2 ^ 64
  | .tick o => q.counter st.stat = 0 ∨ o.Stores ∧ (q.counter st.stat).toNat < 2 ^ 63
  | .others _ _ => True

theorem lost_recv {wafid : Int32} {st st' : TrafficState} {q q' : Side} {a : Answers} {c : Ctx}
    (h : trafficStep wafid st (.recv q' a c) = some st') :
    st.lost q ≤ st'.lost q ∧ (st'.lost q = st.lost q ↔ LoggedOn q st (.recv q' a c)) := by
  have hcount := got_counted q' a (c.onStat st.stat)
  have hrows : st'.rows = st.rows := by
    cases q' <;> cases h <;> rfl
  have hstat : st'.stat = (q'.recvfrom a (c.onStat st.stat)).2.wi.stat := by
    cases q' <;> cases h <;> rfl
  by_cases hq : q' = q
  · subst hq
    have hbytes : q'.bytes st' = q'.bytes st + q'.got a (c.onStat st.stat) := by
      cases q' <;> cases h <;> rfl
    have hcounter : (q'.counter st'.stat).toNat =
        ((q'.counter st.stat).toNat + q'.got a (c.onStat st.stat)) % 2 ^ 64 := by
      rw [hstat, hcount.counter, UInt64.toNat_add, UInt64.toNat_ofNat', Nat.add_mod_mod]
      rfl
    have hlt : (q'.counter st.stat).toNat < 2 ^ 64 := (q'.counter st.stat).toNat_lt
    simp only [LoggedOn, forall_const, TrafficState.lost, hbytes, hrows, hcounter]
    omega
  · have hother : q = q'.other := by
      cases q <;> cases q' <;> first | rfl | exact absurd rfl hq
    have hbytes : q.bytes st' = q.bytes st := by
      subst hother
      cases q' <;> cases h <;> rfl
    have hcounter : q.counter st'.stat = q.counter st.stat := by
      rw [hstat, hother]
      exact hcount.other
    have hsame : st'.lost q = st.lost q := by
      rw [TrafficState.lost, TrafficState.lost, hbytes, hrows, hcounter]
    rw [hsame]
    exact ⟨Int.le_refl _, iff_of_true rfl fun heq => absurd heq hq⟩

/-- What `%ld` prints for a counter. -/
theorem toInt64_cases (n : UInt64) :
    (n.toNat < 2 ^ 63 ∧ n.toInt64.toInt = n.toNat) ∨
      (2 ^ 63 ≤ n.toNat ∧ n.toInt64.toInt = (n.toNat : Int) - 2 ^ 64) := by
  have hcond : n.toInt64.toInt =
      if 2 * n.toNat < 2 ^ 64 then (n.toNat : Int) else (n.toNat : Int) - 2 ^ 64 :=
    BitVec.toInt_eq_toNat_cond n.toBitVec
  split at hcond
  · exact Or.inl ⟨by omega, hcond⟩
  · exact Or.inr ⟨by omega, hcond⟩

/-- The row `log_traffic` inserts, if the insert succeeds. -/
theorem logTraffic_row (q : Side) (o : DbAnswers) (wafid : Int32) (stat : ProxyStat) (nlive : UInt64)
    (rows : List StatusRow) :
    q.sum ((logTraffic o wafid ⟨stat.nclirecv, stat.nsvrrecv, nlive, stat.nowlive⟩).2.toList ++ rows) =
      (if o.Stores then (q.counter stat).toInt64.toInt else 0) + q.sum rows := by
  cases o with
  | mk handle first reconnect second =>
    cases handle <;> cases first <;> cases reconnect <;> cases second <;> cases q <;>
      simp [logTraffic, DbAnswers.Stores, Side.sum, Side.logged, Side.counter]

theorem lost_tick {wafid : Int32} {st st' : TrafficState} {q : Side} {o : DbAnswers}
    (h : trafficStep wafid st (.tick o) = some st') :
    st.lost q ≤ st'.lost q ∧ (st'.lost q = st.lost q ↔ LoggedOn q st (.tick o)) := by
  cases h
  have hbytes : q.bytes (updateTraffic o wafid st) = q.bytes st := by
    cases q <;> rfl
  have hcleared : (q.counter (updateTraffic o wafid st).stat).toNat = 0 := by
    cases q <;> rfl
  have hzero : q.counter st.stat = 0 ↔ (q.counter st.stat).toNat = 0 := by
    rw [← UInt64.toNat_inj]
    exact Iff.rfl
  have hlt : (q.counter st.stat).toNat < 2 ^ 64 := (q.counter st.stat).toNat_lt
  have hsum : q.sum (updateTraffic o wafid st).rows = _ :=
    logTraffic_row q o wafid st.stat st.nlive st.rows
  have hprint := toInt64_cases (q.counter st.stat)
  simp only [LoggedOn, TrafficState.lost, hbytes, hcleared, hsum, hzero]
  generalize (q.counter st.stat).toNat = n at hlt hprint ⊢
  generalize (q.counter st.stat).toInt64.toInt = p at hprint ⊢
  by_cases ho : o.Stores
  · rw [if_pos ho, and_iff_right ho]
    omega
  · rw [if_neg ho, or_iff_left fun hs => ho hs.1]
    omega

/-! ## Conservation -/

/-- Rows and counters account for every byte received. -/
def TrafficState.Conserved (st : TrafficState) : Prop :=
  ∀ q : Side, (q.bytes st : Int) = q.sum st.rows + (q.counter st.stat).toNat

/-- A step loses nothing of either side. -/
def Logged (st : TrafficState) (i : TrafficInput) : Prop := ∀ q, LoggedOn q st i

instance (q : Side) (st : TrafficState) (i : TrafficInput) : Decidable (LoggedOn q st i) :=
  match i with
  | .recv _ _ _ => inferInstanceAs (Decidable (_ → _))
  | .tick _ => inferInstanceAs (Decidable (_ ∨ _))
  | .others _ _ => .isTrue trivial

instance (st : TrafficState) (i : TrafficInput) : Decidable (Logged st i) :=
  decidable_of_iff (LoggedOn .cli st i ∧ LoggedOn .svr st i)
    ⟨fun h q => match q with | .cli => h.1 | .svr => h.2, fun h => ⟨h .cli, h .svr⟩⟩

theorem traffic_step {wafid : Int32} {st st' : TrafficState} {i : TrafficInput} (q : Side)
    (h : trafficStep wafid st i = some st') :
    st.lost q ≤ st'.lost q ∧ (st'.lost q = st.lost q ↔ LoggedOn q st i) := by
  cases i with
  | recv q' a c => exact lost_recv h
  | tick o => exact lost_tick h
  | others nlive nowlive =>
    cases h
    have hsame : TrafficState.lost { st with nlive := nlive, stat := { st.stat with nowlive := nowlive } } q
        = st.lost q := by
      cases q <;> rfl
    exact ⟨Int.le_of_eq hsame.symm, iff_of_true hsame trivial⟩

theorem conserved_iff {st : TrafficState} (h : ∀ q, 0 ≤ st.lost q) :
    st.Conserved ↔ ∀ q, st.lost q ≤ 0 := by
  refine forall_congr' fun q => ?_
  have hq := h q
  unfold TrafficState.lost at hq ⊢
  omega

/-- **The traffic log.** After every run the rows and the counters account for
every byte received, on both sides, exactly when no step of the run loses one. -/
theorem traffic_run (wafid : Int32) (is : List TrafficInput) (st : TrafficState)
    (h : (traffic wafid).run (traffic wafid).init is = some st) :
    st.Conserved ↔ (traffic wafid).Meets Logged (traffic wafid).init is := by
  have hinit : ∀ q, (traffic wafid).init.lost q = 0 := by
    intro q
    cases q <;> rfl
  have hiff := Machine.run_iff (M := traffic wafid) (P := TrafficState.Conserved) (C := Logged)
    (I := fun st => ∀ q, 0 ≤ st.lost q)
    (fun s i s' hi hs q => Int.le_trans (hi q) (traffic_step q hs).1)
    (fun s i s' hi hs => by
      rw [conserved_iff hi, conserved_iff fun q => Int.le_trans (hi q) (traffic_step q hs).1,
        Logged, ← forall_and]
      refine forall_congr' fun q => ?_
      have hq := hi q
      obtain ⟨hle, hlog⟩ := traffic_step q hs
      rw [← hlog]
      omega)
    is (fun q => Int.le_of_eq (hinit q).symm) h
  rw [hiff]
  apply and_iff_right
  exact (conserved_iff fun q => Int.le_of_eq (hinit q).symm).mpr fun q => Int.le_of_eq (hinit q)

/-- A worker about to receive from its client. -/
def receiving : Ctx := ⟨{ max := 1, sesstbl := .alloc 1 }, { clifd := 5 }⟩

/-- Three bytes from a client; a tick whose insert succeeds after a reconnect,
and one that fails with nothing to store. -/
def loggedRun : List TrafficInput :=
  [.recv .cli { recv := .bytes [71, 69, 84] } receiving, .tick { first := false },
    .tick { first := false, second := false }]

theorem traffic_loggedRun :
    ∃ st, (traffic 1).run (traffic 1).init loggedRun = some st ∧ st.Conserved := by
  have hlogged : (traffic 1).Meets Logged (traffic 1).init loggedRun := by decide
  exact ⟨_, rfl, (traffic_run 1 loggedRun _ rfl).mpr hlogged⟩

/-- Three bytes from a client, and a tick whose insert fails twice. -/
theorem failed_insert_loses : ∃ st, (traffic 1).run (traffic 1).init
      [.recv .cli { recv := .bytes [71, 69, 84] } receiving,
        .tick { first := false, second := false }] = some st ∧
    Side.cli.bytes st = 3 ∧ Side.cli.sum st.rows = 0 ∧ Side.cli.counter st.stat = 0 ∧
    ¬ st.Conserved :=
  ⟨_, rfl, rfl, rfl, rfl, fun h => absurd (h .cli) (by decide)⟩

end WafProxy
