import Mathlib.Algebra.Ring.Nat
import WafProxy.WorkLoop

/-
  The invariant of a worker — what holds between any two steps of any run

  `WorkInv` says it of the table, the epoll sets, the descriptors, the pool and
  the blocked counter together; it holds for every outcome of every call. What
  the code gets wrong shows as two corrections in it: packets that were leaked
  (`pkts`), and the flags of connections freed while they were set (`blocked`).

    1. `WorkInv.enter` — a stored connection and the rest of the worker are
       what the handlers ask for.
    2. `WorkInv.kept`, `WorkInv.freed` — the two ways a handler ends keep the
       invariant.
    3. `workInv_run` — it holds in every reachable state.
-/

namespace WafProxy
open Lib ConnectionTable

/-- The connection stored under `id`. -/
def Work.conn (wi : Work) (id : Nat) : Option Connection := wi.sesstbl.findSlot id

/-- A connection stored under `id`, between events. -/
structure ConnAt (id : Nat) (s : Connection) : Prop where
  id : s.id = id
  ok : s.Ok
  cli : 0 < s.clifd
  ne : s.svrfd ≠ s.clifd
  svr : s.svrfd = 0 → s.isSvrblock = false ∧ s.isSvrwait = false
  nalloced : s.nalloced = s.held.length

/-- The packets leaked by the connections freed so far. -/
def Work.lost (wi : Work) : Multiset Nat := (wi.freed.map fun f => ids f.conn.leaked).sum

/-- How much `nblocked` counts that no live connection accounts for. -/
def Work.drift (wi : Work) : Nat := (wi.freed.map fun f => f.conn.nflags).sum

/-- `q` is what the accept thread handed over and no connection took yet. -/
structure WorkInv (q : List WorkFd) (wi : Work) : Prop where
  conn : ∀ id s, wi.conn id = some s → ConnAt id s
  send : ∀ p, p ∈ wi.sendEpfd ↔ ∃ s, wi.conn p.2 = some s ∧ s.socks.inSend p.1
  recv : ∀ p, p ∈ wi.recvEpfd ↔ ∃ s, wi.conn p.2 = some s ∧ s.socks.inRecv p.1
  fds : ∀ fd, fd ∈ wi.fds ↔ fd ∈ q.map WorkFd.fd ∨ ∃ id s, wi.conn id = some s ∧ s.socks.hasFd fd
  disj : ∀ id s id' s' fd, wi.conn id = some s → wi.conn id' = some s' →
    s.socks.hasFd fd → s'.socks.hasFd fd → id = id'
  queued : ∀ w ∈ q, 0 < w.fd ∧ ∀ id s, wi.conn id = some s → ¬ s.socks.hasFd w.fd
  nodup : (q.map WorkFd.fd).Nodup
  pkts : Multiset.range wi.nextPkt =
    ↑wi.puts + wi.sesstbl.total (fun s => ids s.held) + wi.lost
  blocked : wi.nblocked = (wi.sesstbl.total Connection.nflags + wi.drift : Nat)

/-- What is accounted for beside the connection `id`. -/
def Work.others (wi : Work) (q : List WorkFd) (id : Nat) : World where
  pkts := (wi.sesstbl.delSlot id).total (fun s => ids s.held) + wi.lost
  blocked := ((wi.sesstbl.delSlot id).total Connection.nflags + wi.drift : Nat)
  send := { p | p.2 ≠ id ∧ ∃ s, wi.conn p.2 = some s ∧ s.socks.inSend p.1 }
  recv := { p | p.2 ≠ id ∧ ∃ s, wi.conn p.2 = some s ∧ s.socks.inRecv p.1 }
  fds := { fd | fd ∈ q.map WorkFd.fd ∨ ∃ j s, j ≠ id ∧ wi.conn j = some s ∧ s.socks.hasFd fd }

section
variable {q : List WorkFd} {wi : Work} {id : Nat}

theorem others_pkts : (wi.others q id).pkts =
    (wi.sesstbl.delSlot id).total (fun s => ids s.held) + wi.lost := rfl

theorem others_blocked : (wi.others q id).blocked =
    ((wi.sesstbl.delSlot id).total Connection.nflags + wi.drift : Nat) := rfl

/-- What the others registered is one of their descriptors. -/
theorem others_own {p : Nat × Nat} (h : p ∈ (wi.others q id).send ∨ p ∈ (wi.others q id).recv) :
    p.1 ∈ (wi.others q id).fds := by
  rcases h with ⟨hp, s, hs, hi⟩ | ⟨hp, s, hs, hi⟩
  · exact .inr ⟨p.2, s, hp, hs, Socks.inSend_hasFd hi⟩
  · exact .inr ⟨p.2, s, hp, hs, Socks.inRecv_hasFd hi⟩

/-! ## Before and after an event -/

theorem WorkInv.enter (h : WorkInv q wi) {s : Connection} (hs : wi.conn id = some s) :
    Live (wi.others q id) ⟨wi, s⟩ [] := by
  have hc := h.conn id s hs
  have hid : s.id = id := hc.id
  refine ⟨⟨hc.nalloced, ?_, ?_⟩, ⟨?_, ?_, ?_, ?_, ?_, hc.cli, hc.ne⟩, hc.svr⟩
  · change Multiset.range wi.nextPkt = ↑wi.puts + ids s.held + (_ + wi.lost)
    rw [h.pkts, total_del _ hs]
    ac_rfl
  · change wi.nblocked =
      s.nflags + ((total Connection.nflags (delSlot wi.sesstbl id) + wi.drift : Nat) : Int)
    rw [h.blocked, total_del _ hs]
    omega
  · intro p
    change p ∈ wi.sendEpfd ↔ (p.2 ≠ id ∧ _) ∨ (p.2 = s.id ∧ _)
    rw [h.send, hid]
    by_cases hp : p.2 = id
    · rw [hp, hs]
      simp
    · simp [hp]
  · intro p
    change p ∈ wi.recvEpfd ↔ (p.2 ≠ id ∧ _) ∨ (p.2 = s.id ∧ _)
    rw [h.recv, hid]
    by_cases hp : p.2 = id
    · rw [hp, hs]
      simp
    · simp [hp]
  · intro fd
    change fd ∈ wi.fds ↔ (_ ∨ _) ∨ _
    rw [h.fds, or_assoc]
    refine or_congr_right ⟨?_, ?_⟩
    · rintro ⟨j, s', hj, hfd⟩
      by_cases hji : j = id
      · rw [hji, hs, Option.some.injEq] at hj
        exact .inr (hj ▸ hfd)
      · exact .inl ⟨j, s', hji, hj, hfd⟩
    · rintro (⟨j, s', _, hj, hfd⟩ | hfd)
      · exact ⟨j, s', hj, hfd⟩
      · exact ⟨id, s, hs, hfd⟩
  · intro fd hfd hw
    rcases hw with hw | ⟨j, s', hji, hj, hfd'⟩
    · obtain ⟨w, hmem, rfl⟩ := List.mem_map.mp hw
      exact (h.queued w hmem).2 id s hs hfd
    · exact hji (h.disj j s' id s fd hj hs hfd' hfd)
  · exact fun p => others_own

/-- One slot of the table changed, and the worker's shared state with it. -/
theorem WorkInv.put {q₀ : List WorkFd} {wi' : Work} (h : WorkInv q₀ wi) (id : Nat)
    (o : Option Connection)
    (hq : q.Sublist q₀) (hfind : ∀ j, wi'.conn j = if j = id then o else wi.conn j)
    (hconn : ∀ s, o = some s → ConnAt id s)
    (hsend : ∀ p, p ∈ wi'.sendEpfd ↔
      p ∈ (wi.others q id).send ∨ ∃ s, o = some s ∧ p.2 = id ∧ s.socks.inSend p.1)
    (hrecv : ∀ p, p ∈ wi'.recvEpfd ↔
      p ∈ (wi.others q id).recv ∨ ∃ s, o = some s ∧ p.2 = id ∧ s.socks.inRecv p.1)
    (hfds : ∀ fd, fd ∈ wi'.fds ↔
      fd ∈ (wi.others q id).fds ∨ ∃ s, o = some s ∧ s.socks.hasFd fd)
    (hfresh : ∀ s fd, o = some s → s.socks.hasFd fd → fd ∉ (wi.others q id).fds)
    (hpkts : Multiset.range wi'.nextPkt =
      ↑wi'.puts + wi'.sesstbl.total (fun s => ids s.held) + wi'.lost)
    (hblocked : wi'.nblocked = (wi'.sesstbl.total Connection.nflags + wi'.drift : Nat)) :
    WorkInv q wi' where
  conn j s hj := by
    rw [hfind] at hj
    split at hj
    · next he => exact he ▸ hconn s hj
    · exact h.conn j s hj
  send p := by
    rw [hsend, hfind]
    change (p.2 ≠ id ∧ _) ∨ _ ↔ _
    by_cases hp : p.2 = id
    · simp [hp]
    · simp [hp]
  recv p := by
    rw [hrecv, hfind]
    change (p.2 ≠ id ∧ _) ∨ _ ↔ _
    by_cases hp : p.2 = id
    · simp [hp]
    · simp [hp]
  fds fd := by
    rw [hfds]
    change (_ ∨ _) ∨ _ ↔ _
    rw [or_assoc]
    refine or_congr_right ⟨?_, ?_⟩
    · rintro (⟨j, s, hj, hs, hfd⟩ | ⟨s, hs, hfd⟩)
      · exact ⟨j, s, by rw [hfind, if_neg hj, hs], hfd⟩
      · exact ⟨id, s, by rw [hfind, if_pos rfl, hs], hfd⟩
    · rintro ⟨j, s, hj, hfd⟩
      rw [hfind] at hj
      split at hj
      · exact .inr ⟨s, hj, hfd⟩
      · next hne => exact .inl ⟨j, s, hne, hj, hfd⟩
  disj i s j s' fd hi hj hfd hfd' := by
    rw [hfind] at hi hj
    split at hi
    · next he =>
      split at hj
      · next he' => exact he.trans he'.symm
      · next hne => exact absurd (.inr ⟨j, s', hne, hj, hfd'⟩) (hfresh s fd hi hfd)
    · next hne =>
      split at hj
      · next he' => exact absurd (.inr ⟨i, s, hne, hi, hfd⟩) (hfresh s' fd hj hfd')
      · exact h.disj i s j s' fd hi hj hfd hfd'
  queued w hw := by
    refine ⟨(h.queued w (hq.subset hw)).1, fun j s hj hfd => ?_⟩
    rw [hfind] at hj
    split at hj
    · exact hfresh s w.fd hj hfd (.inl (List.mem_map.mpr ⟨w, hw, rfl⟩))
    · exact (h.queued w (hq.subset hw)).2 j s hj hfd
  nodup := (hq.map WorkFd.fd).nodup h.nodup
  pkts := hpkts
  blocked := hblocked

/-- The handler kept the connection. -/
theorem WorkInv.kept {s : Connection} {c' : Ctx} {r : Risk} (h : WorkInv q wi)
    (hs : wi.conn id = some s) (hk : Kept (wi.others q id) r ⟨wi, s⟩ c') :
    WorkInv q c'.store := by
  have hid : c'.s.id = id := hk.frame.id.trans (h.conn id s hs).id
  have htbl : c'.wi.sesstbl = wi.sesstbl := hk.frame.sesstbl
  have hfreed : c'.wi.freed = wi.freed := hk.frame.freed
  have hfind : ∀ j, c'.store.conn j = if j = id then some c'.s else wi.conn j := by
    intro j
    change findSlot (store c'.wi.sesstbl c'.s.id c'.s) j = _
    rw [htbl, hid]
    exact find_store c'.s j hs
  have htotal : ∀ {M : Type} [AddCommMonoid M] (f : Connection → M),
      c'.store.sesstbl.total f = (wi.sesstbl.delSlot id).total f + f c'.s := by
    intro M _ f
    change (store c'.wi.sesstbl c'.s.id c'.s).total f = _
    rw [htbl, hid]
    exact total_store f c'.s hs
  have hreg := hk.live.reg
  -- the slot now holds what the handler left of the connection
  refine h.put id (some c'.s) (List.Sublist.refl q) hfind ?_ ?_ ?_ ?_ ?_ ?_ ?_
  · rintro _ ⟨⟩
    exact ⟨hid, hk.ok, hreg.cli, hreg.ne, hk.live.svr, hk.live.acct.nalloced⟩
  · intro p
    refine (hreg.send p).trans (or_congr_right ?_)
    rw [show c'.s.socks.id = id from hid]
    simp
  · intro p
    refine (hreg.recv p).trans (or_congr_right ?_)
    rw [show c'.s.socks.id = id from hid]
    simp
  · intro fd
    refine (hreg.fds fd).trans (or_congr_right ?_)
    simp
  · rintro _ fd ⟨⟩ hfd
    exact hreg.fresh fd hfd
  · rw [htotal, Work.lost]
    change Multiset.range c'.wi.nextPkt = ↑c'.wi.puts + _ + (c'.wi.freed.map _).sum
    rw [hk.live.acct.taken, hfreed, List.nil_append, others_pkts, Work.lost]
    ac_rfl
  · rw [htotal, Work.drift]
    change c'.wi.nblocked = ((_ + (c'.wi.freed.map _).sum : Nat) : Int)
    rw [hk.live.acct.blocked, hfreed, others_blocked, Work.drift]
    omega

/-- What freeing a connection found in its slot, or one about to be stored
there, leaves of the pool and the counter. -/
theorem free_counts {W : World} {d : Ctx} (site : Site) (hd : Failed W d)
    (hpkts : W.pkts = (d.wi.sesstbl.delSlot d.s.id).total (fun s => ids s.held) + d.wi.lost)
    (hblocked : W.blocked =
      ((d.wi.sesstbl.delSlot d.s.id).total Connection.nflags + d.wi.drift : Nat)) :
    let wi' := (workFreeConnection site d).wi
    Multiset.range wi'.nextPkt = ↑wi'.puts + wi'.sesstbl.total (fun s => ids s.held) + wi'.lost ∧
      wi'.nblocked = (wi'.sesstbl.total Connection.nflags + wi'.drift : Nat) := by
  obtain ⟨send, recv, fds, stat, hwi⟩ := free_wi site d
  have htaken := hd.acct.taken
  have hb := hd.acct.blocked
  rw [hwi]
  refine ⟨?_, ?_⟩
  · simp only [Work.lost, List.map_append, List.map_cons, List.map_nil, List.sum_append,
      List.sum_cons, List.sum_nil, add_zero]
    rw [htaken, hpkts, Work.lost, List.nil_append, Connection.held, Connection.owned, ids_append,
      ids_append, ← Multiset.coe_add, ← Multiset.coe_add]
    change _ + (ids d.s.cliq.owned + ids d.s.svrq.owned + ids d.s.leaked) + _ =
      _ + ids d.s.cliq.owned + ids d.s.svrq.owned + _ + _
    ac_rfl
  · simp only [Work.drift, List.map_append, List.map_cons, List.map_nil, List.sum_append,
      List.sum_cons, List.sum_nil, add_zero]
    rw [hb, hblocked, Work.drift]
    omega

/-- A freed connection is in no slot, so storing it changes nothing. -/
theorem store_freed (site : Site) (d : Ctx) :
    (workFreeConnection site d).store = (workFreeConnection site d).wi := by
  obtain ⟨send, recv, fds, stat, hwi⟩ := free_wi site d
  have hid : (workFreeConnection site d).s.id = d.s.id := by rw [free_s]
  unfold Ctx.store ConnectionTable.store
  rw [hid, hwi]
  simp

theorem conn_freed {site : Site} {d : Ctx} (j : Nat) :
    (workFreeConnection site d).wi.conn j = if j = d.s.id then none else d.wi.conn j := by
  obtain ⟨send, recv, fds, stat, hwi⟩ := free_wi site d
  rw [hwi]
  exact find_del _ _ _

/-- The handler passed the connection to `_work_free_connection`. -/
theorem WorkInv.freed {s : Connection} {d : Ctx} {r : Risk} (site : Site)
    (h : WorkInv q wi) (hs : wi.conn id = some s)
    (hd : Dropped (wi.others q id) r ⟨wi, s⟩ d) :
    WorkInv q (workFreeConnection site d).wi := by
  have hid : d.s.id = id := hd.frame.id.trans (h.conn id s hs).id
  have htbl : d.wi.sesstbl = wi.sesstbl := hd.frame.sesstbl
  have hfreed : d.wi.freed = wi.freed := hd.frame.freed
  obtain ⟨hpkts, hblocked⟩ := free_counts site hd.failed
    (by rw [htbl, hid, Work.lost, hfreed]; rfl) (by rw [htbl, hid, Work.drift, hfreed]; rfl)
  refine h.put id none (List.Sublist.refl q) ?_ ?_ ?_ ?_ ?_ ?_ hpkts hblocked
  · intro j
    rw [conn_freed, hid]
    unfold Work.conn
    rw [htbl]
  · simp
  · intro p
    rw [free_send site hd.failed.clo]
    simp
  · intro p
    rw [free_recv site hd.failed.clo]
    simp
  · intro fd
    rw [free_fds site hd.failed.clo]
    simp
  · simp

/-! ## One event -/

/-- How one turn of the two event loops ends. With `good` answers the connection
is kept. -/
inductive EventEnds (q : List WorkFd) (risk : Connection → Risk)
    (good : Connection → Prop) (id : Nat) (wi wi' : Work) : Prop where
  | idle (he : wi' = wi) : EventEnds q risk good id wi wi'
  | kept (s : Connection) (c' : Ctx) (hs : wi.conn id = some s)
      (hk : Kept (wi.others q id) (risk s) ⟨wi, s⟩ c') (he : wi' = c'.store) :
      EventEnds q risk good id wi wi'
  | freed (s : Connection) (site : Site) (d : Ctx) (hs : wi.conn id = some s)
      (hd : Dropped (wi.others q id) (risk s) ⟨wi, s⟩ d) (hbad : ¬ good s)
      (he : wi' = (workFreeConnection site d).wi) : EventEnds q risk good id wi wi'
  | late (s : Connection) (d : Ctx) (hs : wi.conn id = some s)
      (hd : Dropped (wi.others q id) (risk s) ⟨wi, s⟩ d) (hlt : (risk s).reuse) (hbad : ¬ good s)
      (he : wi' = ((workFreeConnection .sendDataCheck d).call .sendtoServer).wi) :
      EventEnds q risk good id wi wi'

theorem store_late {d : Ctx} {site : Site} :
    ((workFreeConnection site d).call .sendtoServer).store =
      ((workFreeConnection site d).call .sendtoServer).wi := by
  have h := store_freed site d
  unfold Ctx.store at h ⊢
  have ht : (workFreeConnection site d).wi.sesstbl.store (workFreeConnection site d).s.id
      (workFreeConnection site d).s = (workFreeConnection site d).wi.sesstbl :=
    congrArg Work.sesstbl h
  simp only [Ctx.call, ht]

/-- A handler's specification says how its event ends. -/
theorem ends_of_spec {risk : Connection → Risk} {good : Connection → Prop}
    {s : Connection} {c' : Ctx} {r : Risk} {g : Prop}
    (ho : Outcome (wi.others q id) r ⟨wi, s⟩ c' ∧ (g → Kept (wi.others q id) r ⟨wi, s⟩ c'))
    (hs : wi.conn id = some s) (hr : r.Le (risk s)) (hg : good s → g) :
    EventEnds q risk good id wi c'.store := by
  by_cases hgood : good s
  · exact .kept s c' hs ((ho.2 (hg hgood)).mono hr) rfl
  cases ho.1 with
  | kept h => exact .kept s c' hs (h.mono hr) rfl
  | freed site d h he => exact .freed s site d hs (h.mono hr) hgood (by rw [he, store_freed])
  | late d h hl he => exact .late s d hs (h.mono hr) (hr.reuse hl) hgood (by rw [he, store_late])

/-- An error event frees the connection as it is. -/
theorem WorkInv.errorEvent (h : WorkInv q wi) {s : Connection} (site : Site)
    {risk : Connection → Risk} {good : Connection → Prop} (hs : wi.conn id = some s)
    (hflag : s.nflags ≠ 0 → (risk s).flagged) (hbad : ¬ good s) :
    EventEnds q risk good id wi (workFreeConnection site ⟨wi, s⟩).store := by
  have hok := (h.conn id s hs).ok
  rw [store_freed]
  refine .freed s site ⟨wi, s⟩ hs ⟨.refl _, (h.enter hs).failed, ⟨fun _ => rfl, fun _ => rfl⟩, ?_, ?_,
    hflag⟩ hbad rfl
  · simp [hok.cliclose]
  · simp [hok.svrclose]

/-- Nothing that the receive event makes the worker do for `s` fails, and the
peer has not closed. -/
structure RecvGood (a : Answers) (e : Event) (wi : Work) (s : Connection) : Prop where
  err : e.err = false
  cli : s.clifd = e.fd → s.isSvrblock = false → ClientReadGood a ⟨wi, s⟩
  svr : s.clifd ≠ e.fd → s.svrfd = e.fd → s.isCliblock = false → ServerReadGood a

instance (a : Answers) (e : Event) (wi : Work) (s : Connection) : Decidable (RecvGood a e wi s) :=
  decidable_of_iff (e.err = false ∧
      (s.clifd = e.fd → s.isSvrblock = false → ClientReadGood a ⟨wi, s⟩) ∧
      (s.clifd ≠ e.fd → s.svrfd = e.fd → s.isCliblock = false → ServerReadGood a))
    ⟨fun h => ⟨h.1, h.2.1, h.2.2⟩, fun h => ⟨h.err, h.cli, h.svr⟩⟩

/-- The receive event finds the client's close while request bytes wait for the
connect. -/
def CloseLosesAt (a : Answers) (e : Event) (s : Connection) : Prop :=
  e.err = false ∧ s.clifd = e.fd ∧ CloseLoses a s

instance (a : Answers) (e : Event) (s : Connection) : Decidable (CloseLosesAt a e s) :=
  inferInstanceAs (Decidable (_ ∧ _ ∧ _))

def recvRisk (a : Answers) (e : Event) (s : Connection) : Risk :=
  { flagged := s.nflags ≠ 0, loses := CloseLosesAt a e s }

theorem WorkInv.recvEvent (h : WorkInv q wi) (a : Answers) (e : Event) :
    EventEnds q (recvRisk a e) (RecvGood a e wi) e.id wi (workRecvEvent a e wi) := by
  unfold workRecvEvent
  cases hs : wi.sesstbl.findSlot e.id with
  | none => exact .idle rfl
  | some s =>
    have hl := h.enter hs
    have hok := (h.conn e.id s hs).ok
    dsimp only
    by_cases herr : e.err = true
    · rw [if_pos herr]
      exact h.errorEvent _ hs id fun hg => absurd (herr.symm.trans hg.err) (by simp)
    rw [if_neg herr]
    rw [Bool.not_eq_true] at herr
    by_cases hc : s.clifd = e.fd
    · rw [if_pos hc]
      by_cases hb : s.isSvrblock = true
      · rw [if_neg (by simpa using hb)]
        exact .idle rfl
      · rw [if_pos hb]
        rw [Bool.not_eq_true] at hb
        refine ends_of_spec (workProcessClient_spec hl hok hb rfl) hs ?_ fun hg => hg.cli hc hb
        exact ⟨id, id, id, id, fun hl => ⟨herr, hc, hl⟩, id⟩
    rw [if_neg hc]
    by_cases hv : s.svrfd = e.fd
    · rw [if_pos hv]
      by_cases hb : s.isCliblock = true
      · rw [if_neg (by simpa using hb)]
        exact .idle rfl
      · rw [if_pos hb]
        rw [Bool.not_eq_true] at hb
        refine ends_of_spec (workProcessServer_spec hl hok hb rfl) hs ?_ fun hg => hg.svr hc hv hb
        exact ⟨id, id, id, id, False.elim, id⟩
    · rw [if_neg hv]
      exact .idle rfl

/-- The send event retries the blocked server side of `s` in part. -/
def RetryShortServer (a : Answers) (e : Event) (s : Connection) : Prop :=
  e.err = false ∧ s.clifd ≠ e.fd ∧ s.svrfd = e.fd ∧ ShortServerRetry a s

instance (a : Answers) (e : Event) (s : Connection) : Decidable (RetryShortServer a e s) :=
  inferInstanceAs (Decidable (_ ∧ _ ∧ _ ∧ _))

/-- The same, with more request packets queued. -/
def RetryShortMore (a : Answers) (e : Event) (s : Connection) : Prop :=
  e.err = false ∧ s.clifd ≠ e.fd ∧ s.svrfd = e.fd ∧ ShortServerRetryMore a s

instance (a : Answers) (e : Event) (s : Connection) : Decidable (RetryShortMore a e s) :=
  inferInstanceAs (Decidable (_ ∧ _ ∧ _ ∧ _))

/-- The send event retries the blocked client side of `s` in part. -/
def RetryShortClient (a : Answers) (e : Event) (s : Connection) : Prop :=
  e.err = false ∧ s.clifd = e.fd ∧ ShortClientRetry a s

instance (a : Answers) (e : Event) (s : Connection) : Decidable (RetryShortClient a e s) :=
  inferInstanceAs (Decidable (_ ∧ _ ∧ _))

/-- The send event is for a connect of `s` that fails. -/
def ConnectFailsAt (a : Answers) (e : Event) (s : Connection) : Prop :=
  e.err = false ∧ s.clifd ≠ e.fd ∧ s.svrfd = e.fd ∧ ConnectFails a s

instance (a : Answers) (e : Event) (s : Connection) : Decidable (ConnectFailsAt a e s) :=
  inferInstanceAs (Decidable (_ ∧ _ ∧ _ ∧ _))

/-- The send event frees `s`, if it does, with a flag set. -/
def FlaggedAt (a : Answers) (e : Event) (s : Connection) : Prop :=
  s.nflags ≠ 0 ∧ (e.err = false → s.clifd ≠ e.fd → ServerFlagged a s)

instance (a : Answers) (e : Event) (s : Connection) : Decidable (FlaggedAt a e s) :=
  inferInstanceAs (Decidable (_ ∧ (_ → _ → _)))

def sendRisk (a : Answers) (e : Event) (s : Connection) : Risk where
  leakUp := RetryShortServer a e s
  leakDown := RetryShortClient a e s
  reuse := ConnectFailsAt a e s
  flagged := FlaggedAt a e s
  leakMore := RetryShortMore a e s

/-- Nothing that the send event makes the worker do for `s` fails. -/
structure SendGood (a : Answers) (e : Event) (s : Connection) : Prop where
  err : e.err = false
  cli : s.clifd = e.fd → ClientGood a
  svr : s.clifd ≠ e.fd → s.svrfd = e.fd → ¬ ConnectFails a s ∧ ServerSendGood a

instance (a : Answers) (e : Event) (s : Connection) : Decidable (SendGood a e s) :=
  decidable_of_iff (e.err = false ∧ (s.clifd = e.fd → ClientGood a) ∧
      (s.clifd ≠ e.fd → s.svrfd = e.fd → ¬ ConnectFails a s ∧ ServerSendGood a))
    ⟨fun h => ⟨h.1, h.2.1, h.2.2⟩, fun h => ⟨h.err, h.cli, h.svr⟩⟩

theorem WorkInv.sendEvent (h : WorkInv q wi) (a : Answers) (e : Event) :
    EventEnds q (sendRisk a e) (SendGood a e) e.id wi (workSendEvent a e wi) := by
  unfold workSendEvent
  cases hs : wi.sesstbl.findSlot e.id with
  | none => exact .idle rfl
  | some s =>
    have hl := h.enter hs
    have hok := (h.conn e.id s hs).ok
    dsimp only
    by_cases herr : e.err = true
    · rw [if_pos herr]
      exact h.errorEvent _ hs (fun hn => ⟨hn, fun hne => absurd (herr.symm.trans hne) (by simp)⟩)
        fun hg => absurd (herr.symm.trans hg.err) (by simp)
    rw [if_neg herr]
    rw [Bool.not_eq_true] at herr
    by_cases hc : s.clifd = e.fd
    · rw [if_pos hc]
      refine ends_of_spec (sendDataClient_spec hl hok rfl) hs ?_ fun hg => hg.cli hc
      exact ⟨False.elim, fun hd => ⟨herr, hc, hd⟩, False.elim,
        fun hn => ⟨hn, fun _ hne => absurd hc hne⟩, id, False.elim⟩
    rw [if_neg hc]
    by_cases hv : s.svrfd = e.fd
    · rw [if_pos hv]
      refine ends_of_spec (sendDataServer_spec hl hok rfl) hs ?_ fun hg => hg.svr hc hv
      exact ⟨fun hu => ⟨herr, hc, hv, hu⟩, False.elim, fun hf => ⟨herr, hc, hv, hf⟩,
        fun hf => ⟨hf.nflags, fun _ _ => hf⟩, id, fun hm => ⟨herr, hc, hv, hm⟩⟩
    · rw [if_neg hv]
      exact .idle rfl

/-- The log of calls is no part of the invariant. -/
theorem WorkInv.call {c : Ctx} (h : WorkInv q c.wi) (f : WorkFn) : WorkInv q (c.call f).wi :=
  ⟨h.conn, h.send, h.recv, h.fds, h.disj, h.queued, h.nodup, h.pkts, h.blocked⟩

theorem EventEnds.inv {risk : Connection → Risk} {good : Connection → Prop}
    {wi' : Work} (h : WorkInv q wi)
    (he : EventEnds q risk good id wi wi') : WorkInv q wi' := by
  cases he with
  | idle he => exact he ▸ h
  | kept s c' hs hk he => exact he ▸ h.kept hs hk
  | freed s site d hs hd hbad he => exact he ▸ h.freed site hs hd
  | late s d hs hd hlt hbad he =>
    have hf := h.freed .sendDataCheck hs hd
    rw [he]
    exact hf.call _

/-- Clients that wait to be taken over are not touched. -/
theorem EventEnds.inq {risk : Connection → Risk} {good : Connection → Prop}
    {wi' : Work}
    (he : EventEnds q risk good id wi wi') : wi'.inq = wi.inq := by
  cases he with
  | idle he => rw [he]
  | kept s c' hs hk he => rw [he]; exact hk.frame.inq
  | freed s site d hs hd hbad he =>
    obtain ⟨_, _, _, _, hwi⟩ := free_wi site d
    rw [he, hwi]
    exact hd.frame.inq
  | late s d hs hd hlt hbad he =>
    obtain ⟨_, _, _, _, hwi⟩ := free_wi .sendDataCheck d
    rw [he, Ctx.call, hwi]
    exact hd.frame.inq

/-! ## Taking over a client -/

/-- The connection `_work_alloc_connection` makes, under the id the table gives it. -/
def freshConn (wi : Work) (id : Nat) : Connection := { serial := wi.nextSerial, id := id }

/-- The connection of a client taken over. -/
def takenConn (wfd : WorkFd) (wi : Work) (id : Nat) : Connection :=
  { freshConn wi id with clifd := wfd.fd, cliaddr := wfd.addr, cliport := wfd.port }

/-- How one turn of the loop of `_work_get_connection` ends. -/
inductive TakeEnds (wfd : WorkFd) (wi wi' : Work) : Prop where
  | refused (he : wi' = wi.close wfd.fd) : TakeEnds wfd wi wi'
  | freed (id : Nat) (t : ConnectionTable Connection)
      (hadd : wi.sesstbl.addSlot (freshConn wi) = some (id, t))
      (he : wi' = (workFreeConnection .getConnection
        ⟨{ wi with sesstbl := t, nextSerial := wi.nextSerial + 1 }.close wfd.fd, freshConn wi id⟩).wi) :
      TakeEnds wfd wi wi'
  | taken (id : Nat) (t : ConnectionTable Connection)
      (hadd : wi.sesstbl.addSlot (freshConn wi) = some (id, t))
      (he : wi' = { wi with
        sesstbl := t.store id (takenConn wfd wi id)
        nextSerial := wi.nextSerial + 1
        recvEpfd := (wfd.fd, id) :: wi.recvEpfd }) : TakeEnds wfd wi wi'

theorem workTakeClient_ends (a : TakeAnswers) (wfd : WorkFd) (wi : Work) :
    TakeEnds wfd wi (workTakeClient a wfd wi) := by
  unfold workTakeClient
  cases hc : workAllocConnection a.ssn wi with
  | none => exact .refused rfl
  | some c =>
    unfold workAllocConnection at hc
    split at hc
    swap
    · simp at hc
    dsimp only at hc
    split at hc
    · simp at hc
    next id t hadd =>
    simp only [Option.some.injEq] at hc
    subst hc
    dsimp only
    cases he : epollAdd a.add wi.recvEpfd wfd.fd id with
    | none =>
      refine .freed id t hadd ?_
      exact store_freed _ _
    | some ep => exact .taken id t hadd (by rw [epollAdd_some he]; rfl)

/-- Closing a descriptor that is neither registered nor owned by a connection. -/
theorem WorkInv.close {wfd : WorkFd} (h : WorkInv (wfd :: q) wi) : WorkInv q (wi.close wfd.fd) := by
  have hfree := (h.queued wfd List.mem_cons_self).2
  have hnodup := h.nodup
  rw [List.map_cons, List.nodup_cons] at hnodup
  refine ⟨h.conn, fun p => ?_, fun p => ?_, fun fd => ?_, h.disj, fun w hw => h.queued w
    (List.mem_cons_of_mem _ hw), hnodup.2, h.pkts, h.blocked⟩
  · rw [mem_close_send, h.send]
    refine and_iff_left_of_imp ?_
    rintro ⟨s, hs, hi⟩ he
    exact hfree p.2 s hs (he ▸ Socks.inSend_hasFd hi)
  · rw [mem_close_recv, h.recv]
    refine and_iff_left_of_imp ?_
    rintro ⟨s, hs, hi⟩ he
    exact hfree p.2 s hs (he ▸ Socks.inRecv_hasFd hi)
  · rw [mem_close_fds, h.fds, List.map_cons, List.mem_cons]
    constructor
    · rintro ⟨(he | hq) | hc, hne⟩
      · exact absurd he hne
      · exact .inl hq
      · exact .inr hc
    · rintro (hq | ⟨j, s, hs, hfd⟩)
      · exact ⟨.inl (.inr hq), fun he => hnodup.1 (he ▸ hq)⟩
      · exact ⟨.inr ⟨j, s, hs, hfd⟩, fun he => hfree j s hs (he ▸ hfd)⟩

theorem fresh_ok (wi : Work) (id : Nat) : (freshConn wi id).Ok :=
  ⟨Dir.ok_new, ⟨Dir.ok_new, rfl, by simp [freshConn]⟩, rfl, rfl, rfl, rfl⟩

theorem fresh_hasFd {wi : Work} {id fd : Nat} : ¬ (freshConn wi id).socks.hasFd fd := by
  rintro ⟨h0, h | h⟩
  · exact absurd h (Nat.ne_of_gt h0)
  · exact absurd h (Nat.ne_of_gt h0)

theorem taken_hasFd {wfd : WorkFd} {wi : Work} {id fd : Nat} (h0 : 0 < wfd.fd) :
    (takenConn wfd wi id).socks.hasFd fd ↔ fd = wfd.fd := by
  constructor
  · rintro ⟨hpos, h | h⟩
    · exact h
    · exact absurd h (Nat.ne_of_gt hpos)
  · rintro rfl
    exact ⟨h0, .inl rfl⟩

/-- Where a free slot is concerned, the others are all there is. -/
theorem WorkInv.others_send (h : WorkInv q wi) (hnone : wi.conn id = none) (q' : List WorkFd)
    (p : Nat × Nat) : p ∈ wi.sendEpfd ↔ p ∈ (wi.others q' id).send := by
  rw [h.send]
  refine ⟨fun hs => ⟨fun hp => ?_, hs⟩, fun hs => hs.2⟩
  obtain ⟨s, hs, _⟩ := hs
  rw [hp, hnone] at hs
  simp at hs

theorem WorkInv.others_recv (h : WorkInv q wi) (hnone : wi.conn id = none) (q' : List WorkFd)
    (p : Nat × Nat) : p ∈ wi.recvEpfd ↔ p ∈ (wi.others q' id).recv := by
  rw [h.recv]
  refine ⟨fun hs => ⟨fun hp => ?_, hs⟩, fun hs => hs.2⟩
  obtain ⟨s, hs, _⟩ := hs
  rw [hp, hnone] at hs
  simp at hs

theorem WorkInv.others_fds (h : WorkInv q wi) (hnone : wi.conn id = none) (fd : Nat) :
    fd ∈ wi.fds ↔ fd ∈ (wi.others q id).fds := by
  rw [h.fds]
  refine or_congr_right ⟨?_, ?_⟩
  · rintro ⟨j, s, hs, hfd⟩
    refine ⟨j, s, fun hj => ?_, hs, hfd⟩
    rw [hj, hnone] at hs
    simp at hs
  · rintro ⟨j, s, _, hs, hfd⟩
    exact ⟨j, s, hs, hfd⟩

section
variable {wfd : WorkFd} {t : ConnectionTable Connection}

/-- The table with the new slot given back is the table before it was added. -/
theorem total_add_del {M : Type} [AddCommMonoid M] (f : Connection → M)
    (hadd : wi.sesstbl.addSlot (freshConn wi) = some (id, t)) :
    (delSlot t id).total f = wi.sesstbl.total f := by
  unfold ConnectionTable.total
  rw [del_add hadd]

theorem total_taken {M : Type} [AddCommMonoid M] (f : Connection → M)
    (hadd : wi.sesstbl.addSlot (freshConn wi) = some (id, t)) :
    (t.store id (takenConn wfd wi id)).total f = wi.sesstbl.total f + f (takenConn wfd wi id) := by
  have hid : findSlot t id = some (freshConn wi id) := by
    rw [(add_find hadd).2, if_pos rfl]
  rw [total_store f _ hid, total_add_del f hadd]

/-- The client is closed and its new connection freed: what `free_counts` asks for. -/
theorem WorkInv.fresh_failed (h : WorkInv (wfd :: q) wi) (hnone : wi.conn id = none) :
    Failed ((wi.close wfd.fd).others q id)
      ⟨{ wi with sesstbl := t, nextSerial := wi.nextSerial + 1 }.close wfd.fd, freshConn wi id⟩ := by
  have hclose := h.close
  have hdel : delSlot wi.sesstbl id = wi.sesstbl := by
    change findSlot wi.sesstbl id = none at hnone
    unfold delSlot
    rw [hnone]
  refine ⟨⟨rfl, ?_, ?_⟩, ⟨?_, ?_, ?_, ?_, ?_, ?_, ?_⟩⟩
  · change Multiset.range wi.nextPkt =
      ↑wi.puts + 0 + ((delSlot wi.sesstbl id).total _ + wi.lost)
    rw [h.pkts, hdel, add_zero, add_assoc]
  · change wi.nblocked = (0 : Nat) +
      (((delSlot wi.sesstbl id).total Connection.nflags + wi.drift : Nat) : Int)
    rw [h.blocked, hdel]
    omega
  · exact fun p hp => (hclose.others_send hnone q p).mpr hp
  · exact fun p hp => .inl ((hclose.others_send hnone q p).mp hp)
  · exact fun p hp => (hclose.others_recv hnone q p).mpr hp
  · exact fun p hp => .inl ((hclose.others_recv hnone q p).mp hp)
  · intro fd
    refine (hclose.others_fds hnone fd).trans ?_
    simp [fresh_hasFd]
  · exact fun fd hfd => absurd hfd fresh_hasFd
  · exact fun p => others_own

theorem WorkInv.take_freed (h : WorkInv (wfd :: q) wi)
    (hadd : wi.sesstbl.addSlot (freshConn wi) = some (id, t)) :
    WorkInv q (workFreeConnection .getConnection
      ⟨{ wi with sesstbl := t, nextSerial := wi.nextSerial + 1 }.close wfd.fd, freshConn wi id⟩).wi := by
  have hclose := h.close
  obtain ⟨hnone, hfind⟩ := add_find hadd
  have hdel : delSlot wi.sesstbl id = wi.sesstbl := by
    unfold delSlot
    rw [hnone]
  have hfail := h.fresh_failed (t := t) hnone
  have hsame : ∀ {M : Type} [AddCommMonoid M] (f : Connection → M),
      (delSlot wi.sesstbl id).total f = (delSlot t id).total f :=
    fun f => (congrArg _ hdel).trans (total_add_del f hadd).symm
  obtain ⟨hpkts, hblocked⟩ := free_counts .getConnection hfail
    (by rw [others_pkts]; exact congrArg₂ (· + ·) (hsame _) rfl)
    (by rw [others_blocked]; exact congrArg Nat.cast (congrArg₂ (· + ·) (hsame _) rfl))
  -- the slot is empty again, and closing the client leaves the others alone
  refine hclose.put id none (List.Sublist.refl q) ?_ ?_ ?_ ?_ ?_ ?_ hpkts hblocked
  · intro j
    rw [conn_freed]
    change (if j = id then none else findSlot t j) = if j = id then none else _
    rw [hfind]
    split
    · rfl
    · next hne => rfl
  · simp
  · intro p
    rw [free_send .getConnection hfail.clo]
    simp
  · intro p
    rw [free_recv .getConnection hfail.clo]
    simp
  · intro fd
    rw [free_fds .getConnection hfail.clo]
    simp
  · simp

/-- The descriptors behind a client taken over: those of the others and its own. -/
theorem WorkInv.taken_fds (h : WorkInv (wfd :: q) wi) (hnone : wi.conn id = none) (fd : Nat) :
    fd ∈ wi.fds ↔ fd ∈ (wi.others q id).fds ∨
      ∃ s, some (takenConn wfd wi id) = some s ∧ s.socks.hasFd fd := by
  have hpos := (h.queued wfd List.mem_cons_self).1
  have hof : fd ∈ (wi.others q id).fds ↔ fd ∈ wi.fds ∧ fd ≠ wfd.fd :=
    (h.close.others_fds hnone fd).symm.trans mem_close_fds
  have hown : wfd.fd ∈ wi.fds := (h.fds _).mpr (.inl List.mem_cons_self)
  rw [hof]
  constructor
  · intro hm
    by_cases he : fd = wfd.fd
    · exact .inr ⟨_, rfl, (taken_hasFd hpos).mpr he⟩
    · exact .inl ⟨hm, he⟩
  · rintro (⟨hm, _⟩ | ⟨_, ⟨⟩, hfd⟩)
    · exact hm
    · rw [(taken_hasFd hpos).mp hfd]
      exact hown

theorem WorkInv.take_stored (h : WorkInv (wfd :: q) wi)
    (hadd : wi.sesstbl.addSlot (freshConn wi) = some (id, t)) :
    WorkInv q { wi with
      sesstbl := t.store id (takenConn wfd wi id)
      nextSerial := wi.nextSerial + 1
      recvEpfd := (wfd.fd, id) :: wi.recvEpfd } := by
  have hpos := (h.queued wfd List.mem_cons_self).1
  have hfdfree : wfd.fd ∉ (wi.close wfd.fd).fds := fun hm => (mem_close_fds.mp hm).2 rfl
  obtain ⟨hnone, hfind⟩ := add_find hadd
  have hid : findSlot t id = some (freshConn wi id) := by rw [hfind, if_pos rfl]
  refine h.put id (some (takenConn wfd wi id)) (List.sublist_cons_self _ _)
    ?_ ?_ ?_ ?_ (h.taken_fds hnone) ?_ ?_ ?_
  · intro j
    change findSlot (t.store id (takenConn wfd wi id)) j = _
    rw [find_store _ j hid, hfind]
    split
    · rfl
    · rfl
  · rintro _ ⟨⟩
    have hok := fresh_ok wi id
    exact ⟨rfl, ⟨hok.up, hok.down.congr rfl, rfl, rfl, rfl, rfl⟩, hpos, Nat.ne_of_lt hpos,
      fun _ => ⟨rfl, rfl⟩, rfl⟩
  · intro p
    rw [← h.others_send hnone q p]
    simp [takenConn, freshConn, Socks.inSend, Connection.socks]
  · intro p
    rw [List.mem_cons, ← h.others_recv hnone q p, or_comm]
    refine or_congr_right ⟨?_, ?_⟩
    · rintro rfl
      exact ⟨_, rfl, rfl, hpos, .inl rfl⟩
    · rintro ⟨_, ⟨⟩, hp, hi⟩
      exact Prod.ext ((taken_hasFd hpos).mp (Socks.inRecv_hasFd hi)) hp
  · -- the client was queued, so its descriptor is no other connection's
    rintro _ fd ⟨⟩ hfd hw
    rw [taken_hasFd hpos] at hfd
    exact hfdfree (hfd ▸ (h.close.others_fds hnone fd).mpr hw)
  · rw [total_taken _ hadd]
    change Multiset.range wi.nextPkt = ↑wi.puts + (_ + 0) + wi.lost
    rw [add_zero, h.pkts]
  · rw [total_taken _ hadd]
    change wi.nblocked = ((_ + 0 + wi.drift : Nat) : Int)
    rw [add_zero, h.blocked]

theorem TakeEnds.inv {wi' : Work} (h : WorkInv (wfd :: q) wi)
    (ht : TakeEnds wfd wi wi') : WorkInv q wi' := by
  cases ht with
  | refused he => exact he ▸ h.close
  | freed id t hadd he => exact he ▸ h.take_freed hadd
  | taken id t hadd he => exact he ▸ h.take_stored hadd

end

/-- A turn of the loop leaves the clients of later turns alone. -/
theorem TakeEnds.inq {wfd : WorkFd} {wi' : Work} (ht : TakeEnds wfd wi wi') : wi'.inq = wi.inq := by
  cases ht with
  | refused he => rw [he]; rfl
  | freed id t hadd he =>
    obtain ⟨_, _, _, _, hwi⟩ := free_wi .getConnection
      ⟨{ wi with sesstbl := t, nextSerial := wi.nextSerial + 1 }.close wfd.fd, freshConn wi id⟩
    rw [he, hwi]
    rfl
  | taken id t hadd he => rw [he]

/-- What every turn preserves, the whole call preserves. -/
theorem workTakeClients_rule {I : List WorkFd → Work → Prop}
    (hturn : ∀ wfd q wi wi', I (wfd :: q) wi → TakeEnds wfd wi wi' → I q wi') :
    ∀ (q : List WorkFd) (as : List TakeAnswers) (wi : Work), I q wi →
      I [] (workTakeClients as q wi) := by
  intro q
  induction q with
  | nil => exact fun _ _ h => h
  | cons wfd q ih => exact fun as wi h => ih _ _ (hturn wfd q wi _ h (workTakeClient_ends _ wfd wi))

end

/-! ## Runs -/

theorem WorkInv.perm {q q' : List WorkFd} {wi : Work} (h : WorkInv q wi) (hp : q.Perm q') :
    WorkInv q' wi where
  conn := h.conn
  send := h.send
  recv := h.recv
  fds fd := by rw [h.fds, (hp.map WorkFd.fd).mem_iff]
  disj := h.disj
  queued w hw := h.queued w (hp.mem_iff.mpr hw)
  nodup := (hp.map WorkFd.fd).nodup_iff.mp h.nodup
  pkts := h.pkts
  blocked := h.blocked

/-- A client just accepted, with its descriptor. -/
theorem WorkInv.accepted {q : List WorkFd} {wi : Work} {wfd : WorkFd} (h : WorkInv q wi)
    (h0 : 0 < wfd.fd) (hnew : wfd.fd ∉ wi.fds) :
    WorkInv (wfd :: q) { wi with fds := wfd.fd :: wi.fds } where
  conn := h.conn
  send := h.send
  recv := h.recv
  fds fd := by
    rw [List.mem_cons, h.fds, List.map_cons, List.mem_cons, or_assoc]
    rfl
  disj := h.disj
  queued w hw := by
    rcases List.mem_cons.mp hw with rfl | hw
    · exact ⟨h0, fun id s hs hfd => hnew ((h.fds _).mpr (.inr ⟨id, s, hs, hfd⟩))⟩
    · exact h.queued w hw
  nodup := by
    rw [List.map_cons, List.nodup_cons]
    exact ⟨fun hw => hnew ((h.fds _).mpr (.inl hw)), h.nodup⟩
  pkts := h.pkts
  blocked := h.blocked

/-- The steps of a worker: what it does to the worker's state, by the rules of
one event and of one client taken over. -/
inductive StepEnds (st : WorkState) : WorkInput → WorkState → Prop where
  | added (wfd : WorkFd) (st' : WorkState) (h0 : 0 < wfd.fd) (hnew : wfd.fd ∉ st.wi.fds)
      (he : st'.wi = { st.wi with inq := st.wi.inq ++ [wfd], fds := wfd.fd :: st.wi.fds } ∨
        st'.wi = { st.wi with fds := wfd.fd :: st.wi.fds }.close wfd.fd) :
      StepEnds st (.addConnection wfd) st'
  | took (as : List TakeAnswers) (st' : WorkState)
      (he : st'.wi = workTakeClients as st.wi.inq { st.wi with inq := [] }) :
      StepEnds st (.getConnection as) st'
  | waitedSend (es : List Event) (st' : WorkState) (he : st'.wi = st.wi) :
      StepEnds st (.sendWait es) st'
  | sent (a : Answers) (e : Event) (es : List Event) (st' : WorkState) (hb : st.batch = e :: es)
      (he : st'.wi = workSendEvent a e st.wi) : StepEnds st (.sendEvent a) st'
  | waitedRecv (es : List Event) (st' : WorkState) (he : st'.wi = st.wi) :
      StepEnds st (.recvWait es) st'
  | recvd (a : Answers) (e : Event) (es : List Event) (st' : WorkState) (hb : st.batch = e :: es)
      (he : st'.wi = workRecvEvent a e st.wi) : StepEnds st (.recvEvent a) st'

theorem workStep_ends {st st' : WorkState} {i : WorkInput} (h : workStep st i = some st') :
    StepEnds st i st' := by
  cases i with
  | addConnection wfd =>
    simp only [workStep] at h
    split at h
    · next hfd =>
      refine .added wfd st' hfd.1 hfd.2 ?_
      simp only [Option.some.injEq] at h
      rw [← h]
      unfold workAddConnection
      split
      · exact .inr rfl
      · exact .inl rfl
    · simp at h
  | getConnection as =>
    simp only [workStep] at h
    split at h
    · simp only [Option.some.injEq] at h
      exact .took as st' (by rw [← h]; rfl)
    · simp at h
  | sendWait es =>
    refine .waitedSend es st' ?_
    simp only [workStep] at h
    split at h
    · split at h
      · split at h
        · simp only [Option.some.injEq] at h
          rw [← h]
        · simp at h
      · split at h
        · simp only [Option.some.injEq] at h
          rw [← h]
        · simp at h
    · simp at h
  | sendEvent a =>
    simp only [workStep] at h
    split at h
    · next e es hpc hb =>
      simp only [Option.some.injEq] at h
      exact .sent a e es st' hb (by rw [← h])
    · simp at h
  | recvWait es =>
    refine .waitedRecv es st' ?_
    simp only [workStep] at h
    split at h
    · simp only [Option.some.injEq] at h
      rw [← h]
    · simp at h
  | recvEvent a =>
    simp only [workStep] at h
    split at h
    · next e es hpc hb =>
      simp only [Option.some.injEq] at h
      exact .recvd a e es st' hb (by rw [← h])
    · simp at h

/-- The invariant of a worker's state. -/
def WorkState.Inv (st : WorkState) : Prop := WorkInv st.wi.inq st.wi

theorem WorkState.Inv.step {st st' : WorkState} {i : WorkInput} (h : st.Inv)
    (hs : workStep st i = some st') : st'.Inv := by
  unfold WorkState.Inv at h ⊢
  cases workStep_ends hs with
  | added wfd _ h0 hnew he =>
    have hacc := h.accepted h0 hnew
    rcases he with he | he
    · have hperm : (wfd :: st.wi.inq).Perm (st.wi.inq ++ [wfd]) := (List.perm_append_singleton _ _).symm
      have hq := hacc.perm hperm
      rw [he]
      exact ⟨hq.conn, hq.send, hq.recv, hq.fds, hq.disj, hq.queued, hq.nodup, hq.pkts, hq.blocked⟩
    · rw [he]
      exact hacc.close
  | took as _ he =>
    have hrule := workTakeClients_rule (I := fun q wi => WorkInv q wi ∧ wi.inq = [])
      (fun wfd q wi wi' hI ht => ⟨ht.inv hI.1, ht.inq.trans hI.2⟩) st.wi.inq as { st.wi with inq := [] }
      ⟨⟨h.conn, h.send, h.recv, h.fds, h.disj, h.queued, h.nodup, h.pkts, h.blocked⟩, rfl⟩
    rw [he, hrule.2]
    exact hrule.1
  | waitedSend es _ he => rw [he]; exact h
  | sent a e es _ hb he =>
    have hend := h.sendEvent a e
    rw [he, hend.inq]
    exact hend.inv h
  | waitedRecv es _ he => rw [he]; exact h
  | recvd a e es _ hb he =>
    have hend := h.recvEvent a e
    rw [he, hend.inq]
    exact hend.inv h

theorem workInv_init (max nwork : Nat) : (worker max nwork).init.Inv := by
  have hnone : ∀ id s, ¬ (workInit max nwork).conn id = some s := by
    intro id s hs
    rw [show (workInit max nwork).conn id = none from find_alloc max id] at hs
    simp at hs
  unfold WorkState.Inv
  refine ⟨fun id s hs => absurd hs (hnone id s), fun p => ?_, fun p => ?_, fun fd => ?_,
    fun id s _ _ _ hs => absurd hs (hnone id s), fun w hw => by simp [worker, workInit] at hw,
    by simp [worker, workInit], ?_, ?_⟩
  · simp [worker, hnone]
    simp [workInit]
  · simp [worker, hnone]
    simp [workInit]
  · simp [worker, hnone]
    simp [workInit]
  · simp [worker, workInit, total_alloc, Work.lost]
  · simp [worker, workInit, total_alloc, Work.drift]

/-- **The invariant holds in every reachable state**, whatever the clients, the
servers, the pools and the kernel do. -/
theorem workInv_run {max nwork : Nat} {is : List WorkInput} {st : WorkState}
    (h : workRun max nwork is = some st) : st.Inv :=
  Machine.run_inv' (fun _ _ _ hi hs => hi.step hs) (workInv_init max nwork) h

end WafProxy
