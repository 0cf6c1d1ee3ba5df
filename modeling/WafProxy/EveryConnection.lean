import WafProxy.WorkInvariant

/-
  Rules for what holds of every connection of a run

  `Everywhere P F` says `P` of every live connection and `F` of every call of
  `_work_free_connection` so far. To carry it through a run it is enough to see
  what a handler does to the one connection it is called with (`kept`, `freed`)
  and what a new connection is (`StepRule`).
-/

namespace WafProxy
open Lib ConnectionTable

structure Everywhere (P : Connection → Prop) (F : Freed → Prop) (wi : Work) : Prop where
  live : ∀ id s, wi.conn id = some s → P s
  freed : ∀ f ∈ wi.freed, F f

section
variable {P : Connection → Prop} {F : Freed → Prop} {q : List WorkFd} {wi wi' : Work} {id : Nat}

/-- What `_work_free_connection` records of `d`. -/
def freedOf (site : Site) (d : Ctx) : Freed :=
  ⟨site, d.s, d.s.nalloced - d.s.cliq.owned.length - d.s.svrq.owned.length⟩

/-- A handler that leaks nothing leaves nothing leaked. -/
theorem Leaks.none {r : Risk} {s s' : Connection} (h : Leaks r s s') (hu : ¬ r.leakUp)
    (hd : ¬ r.leakDown) (hs : s.leaked = []) : s'.leaked = [] := by
  unfold Connection.leaked
  rw [h.up hu, h.down hd]
  exact hs

/-- With nothing leaked, cleaning both queues brings `nalloced` to 0. -/
theorem Dropped.left_zero {W : World} {r : Risk} {c d : Ctx} {site : Site}
    (h : Dropped W r c d) (hl : d.s.leaked = []) :
    (freedOf site d).conn.leaked = [] ∧ (freedOf site d).left = 0 := by
  refine ⟨hl, ?_⟩
  have hn := h.failed.acct.nalloced
  rw [List.nil_append, Connection.held, hl, List.append_nil, Connection.owned,
    List.length_append] at hn
  simp only [freedOf]
  omega

theorem mem_free_freed {site : Site} {d : Ctx} {f : Freed}
    (hf : f ∈ (workFreeConnection site d).wi.freed) : f ∈ d.wi.freed ∨ f = freedOf site d := by
  obtain ⟨_, _, _, _, hwi⟩ := free_wi site d
  rw [hwi] at hf
  simpa [freedOf] using hf

theorem Everywhere.free (site : Site) {d : Ctx} (h : Everywhere P F wi) (hconn : d.wi.conn = wi.conn)
    (hfreed : d.wi.freed = wi.freed) (hF : F (freedOf site d)) :
    Everywhere P F (workFreeConnection site d).wi where
  live j s hs := by
    rw [conn_freed] at hs
    split at hs
    · simp at hs
    · rw [hconn] at hs
      exact h.live j s hs
  freed f hf := by
    rcases mem_free_freed hf with hf | rfl
    · exact h.freed f (hfreed ▸ hf)
    · exact hF

theorem Frame.conn {c c' : Ctx} (h : Frame c c') : c'.wi.conn = c.wi.conn := by
  unfold Work.conn
  rw [h.sesstbl]

theorem EventEnds.everywhere {risk : Connection → Risk} {good : Connection → Prop}
    (he : EventEnds q risk good id wi wi') (hinv : WorkInv q wi) (h : Everywhere P F wi)
    (hkept : ∀ s c', wi.conn id = some s → Kept (wi.others q id) (risk s) ⟨wi, s⟩ c' →
      P s → P c'.s)
    (hfreed : ∀ s site d, wi.conn id = some s → ¬ good s →
      Dropped (wi.others q id) (risk s) ⟨wi, s⟩ d → P s → F (freedOf site d)) :
    Everywhere P F wi' := by
  cases he with
  | idle he => exact he ▸ h
  | kept s c' hs hk he =>
    have hid : c'.s.id = id := hk.frame.id.trans (hinv.conn id s hs).id
    rw [he]
    refine ⟨fun j s' hs' => ?_, fun f hf => h.freed f (hk.frame.freed ▸ hf)⟩
    have hfind : c'.store.conn j = if j = id then some c'.s else wi.conn j := by
      change findSlot (store c'.wi.sesstbl c'.s.id c'.s) j = _
      rw [hk.frame.sesstbl, hid]
      exact find_store c'.s j hs
    rw [hfind] at hs'
    split at hs'
    · rw [← Option.some.inj hs']
      exact hkept s c' hs hk (h.live id s hs)
    · exact h.live j s' hs'
  | freed s site d hs hd hbad he =>
    rw [he]
    exact h.free site hd.frame.conn hd.frame.freed (hfreed s site d hs hbad hd (h.live id s hs))
  | late s d hs hd hlt hbad he =>
    rw [he]
    have hf := h.free .sendDataCheck hd.frame.conn hd.frame.freed
      (hfreed s .sendDataCheck d hs hbad hd (h.live id s hs))
    exact ⟨hf.live, hf.freed⟩

theorem TakeEnds.everywhere {wfd : WorkFd} (ht : TakeEnds wfd wi wi') (h : Everywhere P F wi)
    (hnew : ∀ id, P (takenConn wfd wi id)) (hnewF : ∀ id, F ⟨.getConnection, freshConn wi id, 0⟩) :
    Everywhere P F wi' := by
  cases ht with
  | refused he => rw [he]; exact ⟨h.live, h.freed⟩
  | freed id t hadd he =>
    obtain ⟨hnone, hfind⟩ := add_find hadd
    rw [he]
    refine ⟨fun j s hs => ?_, fun f hf => ?_⟩
    · rw [conn_freed] at hs
      change (if j = id then none else findSlot t j) = some s at hs
      rw [hfind] at hs
      split at hs
      · simp at hs
      · exact h.live j s hs
    · rcases mem_free_freed hf with hf | rfl
      · exact h.freed f hf
      · exact hnewF id
  | taken id t hadd he =>
    obtain ⟨hnone, hfind⟩ := add_find hadd
    have hid : findSlot t id = some (freshConn wi id) := by rw [hfind, if_pos rfl]
    rw [he]
    refine ⟨fun j s hs => ?_, h.freed⟩
    change findSlot (t.store id (takenConn wfd wi id)) j = some s at hs
    rw [find_store _ j hid, hfind] at hs
    split at hs
    · rw [← Option.some.inj hs]
      exact hnew id
    · exact h.live j s hs

end

/-- What one step has to keep for `Everywhere P F` to hold along a run whose
steps meet `C`. -/
structure StepRule (C : WorkState → WorkInput → Prop) (P : Connection → Prop) (F : Freed → Prop) :
    Prop where
  new : ∀ wfd wi id, P (takenConn wfd wi id)
  refused : ∀ wi id, F ⟨.getConnection, freshConn wi id, 0⟩
  sendKept : ∀ st a e es s c', C st (.sendEvent a) → st.batch = e :: es → st.wi.conn e.id = some s →
    Kept (st.wi.others st.wi.inq e.id) (sendRisk a e s) ⟨st.wi, s⟩ c' → P s → P c'.s
  sendFreed : ∀ st a e es s site d, C st (.sendEvent a) → st.batch = e :: es →
    st.wi.conn e.id = some s → ¬ SendGood a e s → Dropped (st.wi.others st.wi.inq e.id)
      (sendRisk a e s) ⟨st.wi, s⟩ d → P s → F (freedOf site d)
  recvKept : ∀ st a e es s c', C st (.recvEvent a) → st.batch = e :: es → st.wi.conn e.id = some s →
    Kept (st.wi.others st.wi.inq e.id) (recvRisk a e s) ⟨st.wi, s⟩ c' → P s → P c'.s
  recvFreed : ∀ st a e es s site d, C st (.recvEvent a) → st.batch = e :: es →
    st.wi.conn e.id = some s → ¬ RecvGood a e st.wi s →
    Dropped (st.wi.others st.wi.inq e.id) (recvRisk a e s) ⟨st.wi, s⟩ d → P s → F (freedOf site d)

theorem StepRule.step {C : WorkState → WorkInput → Prop} {P : Connection → Prop}
    {F : Freed → Prop} (hr : StepRule C P F) {st st' : WorkState} {i : WorkInput} (hc : C st i)
    (hinv : st.Inv) (h : Everywhere P F st.wi) (hs : workStep st i = some st') :
    Everywhere P F st'.wi := by
  cases workStep_ends hs with
  | added wfd _ h0 hnew he =>
    rcases he with he | he
    · rw [he]; exact ⟨h.live, h.freed⟩
    · rw [he]; exact ⟨h.live, h.freed⟩
  | took as _ he =>
    rw [he]
    exact workTakeClients_rule (I := fun _ wi => Everywhere P F wi)
      (fun wfd q wi wi' hI ht => ht.everywhere hI (hr.new wfd wi) (hr.refused wi)) st.wi.inq as _
      ⟨h.live, h.freed⟩
  | waitedSend es _ he => rw [he]; exact h
  | sent a e es _ hb he =>
    rw [he]
    exact (WorkInv.sendEvent hinv a e).everywhere hinv h
      (fun s c' hs hk hp => hr.sendKept st a e es s c' hc hb hs hk hp)
      (fun s site d hs hbad hd hp => hr.sendFreed st a e es s site d hc hb hs hbad hd hp)
  | waitedRecv es _ he => rw [he]; exact h
  | recvd a e es _ hb he =>
    rw [he]
    exact (WorkInv.recvEvent hinv a e).everywhere hinv h
      (fun s c' hs hk hp => hr.recvKept st a e es s c' hc hb hs hk hp)
      (fun s site d hs hbad hd hp => hr.recvFreed st a e es s site d hc hb hs hbad hd hp)

theorem everywhere_init {P : Connection → Prop} {F : Freed → Prop} (max nwork : Nat) :
    Everywhere P F (worker max nwork).init.wi := by
  refine ⟨fun id s hs => ?_, fun f hf => by simp [worker, workInit] at hf⟩
  rw [show (worker max nwork).init.wi.conn id = none from find_alloc max id] at hs
  simp at hs

/-- What every step meeting `C` keeps holds of every connection after every run
whose steps meet `C`. -/
theorem StepRule.run {C : WorkState → WorkInput → Prop} {P : Connection → Prop}
    {F : Freed → Prop} (hr : StepRule C P F) {max nwork : Nat} {is : List WorkInput}
    {st : WorkState} (hm : (worker max nwork).Meets C (worker max nwork).init is)
    (h : workRun max nwork is = some st) : Everywhere P F st.wi := by
  have hboth := Machine.run_inv (M := worker max nwork) (C := C)
    (I := fun st => st.Inv ∧ Everywhere P F st.wi)
    (fun st i st' hc hi hs => ⟨hi.1.step hs, hr.step hc hi.1 hi.2 hs⟩) is
    ⟨workInv_init max nwork, everywhere_init max nwork⟩ hm h
  exact hboth.2

end WafProxy
