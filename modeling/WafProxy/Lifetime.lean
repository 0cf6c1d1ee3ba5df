import WafProxy.BlockedSides

/-
  Connection lifetime — a freed connection is not used again

  The worker functions are logged with the serial number of the connection they
  are called on (`Work.calls`). `AfterFree` reads the log: `_work_free_connection`
  calls `_work_clean_connection` for both queues, and after that no function is
  called on that connection, `_work_free_connection` included.

  One caller does not notice that the connection is gone: when the connect check
  of `_work_send_data` fails, the connection is freed and then passed to
  `_work_sendto_server` (`EventEnds.late`). Without a failing check the log
  stays closed (`lifetime_run`).
-/

namespace WafProxy
open Lib ConnectionTable

/-- What follows a call of `_work_free_connection` in the log. -/
def AfterFree (calls : List (WorkFn × Nat)) : Prop :=
  ∀ pre post n, calls = pre ++ (.freeConnection, n) :: post →
    ∃ rest, post = (.cleanConnection, n) :: (.cleanConnection, n) :: rest ∧ ∀ e ∈ rest, e.2 ≠ n

theorem AfterFree.of_not_mem {l : List (WorkFn × Nat)} (h : ∀ e ∈ l, e.1 ≠ .freeConnection) :
    AfterFree l := by
  intro pre post n he
  exact absurd rfl (h (.freeConnection, n) (by simp [he]))

/-- Calls on connections not freed yet continue a log. -/
theorem AfterFree.append {calls l : List (WorkFn × Nat)} (h : AfterFree calls) (hl : AfterFree l)
    (hnew : ∀ e ∈ l, (.freeConnection, e.2) ∉ calls) : AfterFree (calls ++ l) := by
  intro pre post n he
  rcases List.append_eq_append_iff.mp he with ⟨as, _, hlast⟩ | ⟨bs, hcalls, hpost⟩
  · exact hl as post n hlast
  · cases bs with
    | nil => exact hl [] post n hpost.symm
    | cons b bs =>
      obtain ⟨rfl, rfl⟩ := List.cons.inj hpost
      obtain ⟨rest, rfl, hrest⟩ := h pre bs n hcalls
      refine ⟨rest ++ l, rfl, fun e hm => ?_⟩
      rcases List.mem_append.mp hm with hm | hm
      · exact hrest e hm
      · rintro rfl
        exact hnew e hm (by simp [hcalls])

/-- The calls of one `_work_free_connection`. -/
def freeCalls (n : Nat) : List (WorkFn × Nat) :=
  [(.freeConnection, n), (.cleanConnection, n), (.cleanConnection, n)]

theorem afterFree_freeCalls (n : Nat) : AfterFree (freeCalls n) := by
  intro pre post m he
  unfold freeCalls at he
  rcases pre with _ | ⟨_, _ | ⟨_, _ | ⟨_, pre⟩⟩⟩ <;> simp at he
  obtain ⟨rfl, rfl⟩ := he
  exact ⟨[], rfl, by simp⟩

/-! ## The log of a worker -/

/-- The log is closed, serial numbers name connections, and no live connection
was freed. -/
structure Log (wi : Work) : Prop where
  closed : AfterFree wi.calls
  known : ∀ e ∈ wi.calls, e.2 < wi.nextSerial
  serial : ∀ id s, wi.conn id = some s → s.serial < wi.nextSerial
  alive : ∀ id s, wi.conn id = some s → (.freeConnection, s.serial) ∉ wi.calls
  apart : ∀ id s id' s', wi.conn id = some s → wi.conn id' = some s' → s.serial = s'.serial →
    id = id'

section
variable {q : List WorkFd} {wi wi' : Work} {id : Nat}

/-- The calls of one event are on its connection `s`, which stays or goes. -/
theorem Log.event (h : Log wi) {s : Connection} (hs : wi.conn id = some s)
    (l : List (WorkFn × Nat)) (o : Option Connection) (hcalls : wi'.calls = wi.calls ++ l)
    (hl : ∀ e ∈ l, e.2 = s.serial) (hfin : AfterFree l) (hn : wi'.nextSerial = wi.nextSerial)
    (hconn : ∀ j, wi'.conn j = if j = id then o else wi.conn j)
    (ho : ∀ s', o = some s' → s'.serial = s.serial ∧ (.freeConnection, s.serial) ∉ l) : Log wi' := by
  have hold : ∀ j s', wi'.conn j = some s' → ∃ s₀, wi.conn j = some s₀ ∧ s'.serial = s₀.serial ∧
      (.freeConnection, s'.serial) ∉ l := by
    intro j s' hj
    rw [hconn] at hj
    split at hj
    · next he =>
      obtain ⟨hser, hnot⟩ := ho s' hj
      exact ⟨s, he ▸ hs, hser, hser ▸ hnot⟩
    · next hne =>
      refine ⟨s', hj, rfl, fun hm => hne ?_⟩
      exact h.apart j s' id s hj hs (hl _ hm)
  refine ⟨?_, fun e he => ?_, fun j s' hj => ?_, fun j s' hj hm => ?_, fun i s' j s'' hi hj he => ?_⟩
  · rw [hcalls]
    exact h.closed.append hfin fun e he => hl e he ▸ h.alive id s hs
  · rw [hcalls, List.mem_append] at he
    rw [hn]
    rcases he with he | he
    · exact h.known e he
    · exact hl e he ▸ h.serial id s hs
  · obtain ⟨s₀, hs₀, hser, _⟩ := hold j s' hj
    rw [hn, hser]
    exact h.serial j s₀ hs₀
  · obtain ⟨s₀, hs₀, hser, hnot⟩ := hold j s' hj
    rw [hcalls, List.mem_append] at hm
    exact hm.elim (fun hm => h.alive j s₀ hs₀ (hser ▸ hm)) hnot
  · obtain ⟨s₁, hs₁, hser₁, _⟩ := hold i s' hi
    obtain ⟨s₂, hs₂, hser₂, _⟩ := hold j s'' hj
    exact h.apart i s₁ j s₂ hs₁ hs₂ (hser₁ ▸ hser₂ ▸ he)

/-- A client taken over has a serial number of its own. -/
theorem Log.take {j : Nat} (h : Log wi) (l : List (WorkFn × Nat)) (o : Option Connection)
    (hcalls : wi'.calls = wi.calls ++ l) (hl : ∀ e ∈ l, e.2 = wi.nextSerial) (hfin : AfterFree l)
    (hn : wi'.nextSerial = wi.nextSerial + 1)
    (hconn : ∀ k, wi'.conn k = if k = j then o else wi.conn k)
    (ho : ∀ s', o = some s' → s'.serial = wi.nextSerial ∧ (.freeConnection, wi.nextSerial) ∉ l) :
    Log wi' := by
  have hfresh : ∀ f, (f, wi.nextSerial) ∉ wi.calls :=
    fun f hm => absurd (h.known _ hm) (Nat.lt_irrefl _)
  have hold : ∀ k s', wi'.conn k = some s' →
      k = j ∧ s'.serial = wi.nextSerial ∧ (.freeConnection, wi.nextSerial) ∉ l ∨
        wi.conn k = some s' := by
    intro k s' hj
    rw [hconn] at hj
    split at hj
    · next he => exact .inl ⟨he, ho s' hj⟩
    · exact .inr hj
  refine ⟨?_, fun e he => ?_, fun j s' hj => ?_, fun j s' hj hm => ?_, fun i s' j s'' hi hj he => ?_⟩
  · rw [hcalls]
    exact h.closed.append hfin fun e he => hl e he ▸ hfresh _
  · rw [hcalls, List.mem_append] at he
    rcases he with he | he
    · have := h.known e he
      omega
    · have := hl e he
      omega
  · rcases hold j s' hj with ⟨_, hser, _⟩ | hj
    · omega
    · have := h.serial j s' hj
      omega
  · rw [hcalls, List.mem_append] at hm
    rcases hold j s' hj with ⟨_, hser, hnot⟩ | hj
    · rw [hser] at hm
      exact hm.elim (hfresh _) hnot
    · rcases hm with hm | hm
      · exact h.alive j s' hj hm
      · exact absurd (hl _ hm) (Nat.ne_of_lt (h.serial j s' hj))
  · rcases hold i s' hi with ⟨hid, hser, _⟩ | hi
    · rcases hold j s'' hj with ⟨hjd, _, _⟩ | hj
      · exact hid.trans hjd.symm
      · have := h.serial j s'' hj
        omega
    · rcases hold j s'' hj with ⟨_, hser, _⟩ | hj
      · have := h.serial i s' hi
        omega
      · exact h.apart i s' j s'' hi hj he

theorem EventEnds.log {risk : Connection → Risk} {good : Connection → Prop}
    (he : EventEnds q risk good id wi wi') (hinv : WorkInv q wi) (h : Log wi)
    (hreuse : ∀ s, wi.conn id = some s → ¬ (risk s).reuse) : Log wi' := by
  cases he with
  | idle he => exact he ▸ h
  | kept s c' hs hk he =>
    have hid : c'.s.id = id := hk.frame.id.trans (hinv.conn id s hs).id
    obtain ⟨l, hl, hser⟩ := hk.frame.calls
    rw [he]
    refine h.event hs l (some c'.s) hl (fun e he => (hser e he).2)
      (.of_not_mem fun e he => (hser e he).1) hk.frame.nextSerial ?_ ?_
    · intro j
      change findSlot (store c'.wi.sesstbl c'.s.id c'.s) j = _
      rw [hk.frame.sesstbl, hid]
      exact find_store c'.s j hs
    · rintro _ ⟨⟩
      exact ⟨hk.frame.serial, fun hm => (hser _ hm).1 rfl⟩
  | freed s site d hs hd hbad he =>
    have hid : d.s.id = id := hd.frame.id.trans (hinv.conn id s hs).id
    have hserial : d.s.serial = s.serial := hd.frame.serial
    obtain ⟨l, hl, hser⟩ := hd.frame.calls
    obtain ⟨_, _, _, _, hwi⟩ := free_wi site d
    rw [he]
    refine h.event hs (l ++ freeCalls s.serial) none ?_ (fun e he => ?_) ?_ ?_ ?_ (by simp)
    · rw [hwi, ← List.append_assoc, hl, hserial]
      rfl
    · rcases List.mem_append.mp he with he | he
      · exact (hser e he).2
      · simp only [freeCalls, List.mem_cons, List.not_mem_nil, or_false] at he
        rcases he with rfl | rfl | rfl <;> rfl
    · refine (AfterFree.of_not_mem fun e he => (hser e he).1).append (afterFree_freeCalls _) ?_
      exact fun e _ hm => (hser _ hm).1 rfl
    · rw [hwi]
      exact hd.frame.nextSerial
    · intro j
      rw [conn_freed, hid, hd.frame.conn]
  | late s d hs hd hlt hbad he => exact absurd hlt (hreuse s hs)

theorem TakeEnds.log {wfd : WorkFd} (ht : TakeEnds wfd wi wi') (h : Log wi) : Log wi' := by
  cases ht with
  | refused he => rw [he]; exact ⟨h.closed, h.known, h.serial, h.alive, h.apart⟩
  | freed id t hadd he =>
    obtain ⟨_, hfind⟩ := add_find hadd
    obtain ⟨_, _, _, _, hwi⟩ := free_wi .getConnection
      ⟨{ wi with sesstbl := t, nextSerial := wi.nextSerial + 1 }.close wfd.fd, freshConn wi id⟩
    rw [he]
    refine h.take (j := id) (freeCalls wi.nextSerial) none ?_ (fun e he => ?_)
      (afterFree_freeCalls _) ?_ ?_ (by simp)
    · rw [hwi]
      rfl
    · simp only [freeCalls, List.mem_cons, List.not_mem_nil, or_false] at he
      rcases he with rfl | rfl | rfl <;> rfl
    · rw [hwi]
      rfl
    · intro j
      rw [conn_freed]
      change (if j = id then none else findSlot t j) = if j = id then none else _
      rw [hfind]
      split <;> rfl
  | taken id t hadd he =>
    obtain ⟨_, hfind⟩ := add_find hadd
    have hid : findSlot t id = some (freshConn wi id) := by rw [hfind, if_pos rfl]
    rw [he]
    refine h.take (j := id) [] (some (takenConn wfd wi id)) (List.append_nil _).symm (by simp)
      (.of_not_mem (by simp)) rfl ?_ ?_
    · intro j
      change findSlot (t.store id (takenConn wfd wi id)) j = _
      rw [find_store _ j hid, hfind]
      split <;> rfl
    · rintro _ ⟨⟩
      exact ⟨rfl, by simp⟩

end

/-! ## The property -/

/-- No send event is for a connect that turns out to have failed. -/
def NoFailedConnect (st : WorkState) (i : WorkInput) : Prop :=
  st.OnSend i fun a e s => ¬ ConnectFailsAt a e s

instance (st : WorkState) (i : WorkInput) : Decidable (NoFailedConnect st i) :=
  inferInstanceAs (Decidable (st.OnSend i _))

theorem Log.step {st st' : WorkState} {i : WorkInput} (hc : NoFailedConnect st i) (hinv : st.Inv)
    (h : Log st.wi) (hs : workStep st i = some st') : Log st'.wi := by
  cases workStep_ends hs with
  | added wfd _ h0 hnew he =>
    rcases he with he | he
    · rw [he]; exact ⟨h.closed, h.known, h.serial, h.alive, h.apart⟩
    · rw [he]; exact ⟨h.closed, h.known, h.serial, h.alive, h.apart⟩
  | took as _ he =>
    rw [he]
    exact workTakeClients_rule (I := fun _ wi => Log wi) (fun wfd q wi wi' hI ht => ht.log hI)
      st.wi.inq as _ ⟨h.closed, h.known, h.serial, h.alive, h.apart⟩
  | waitedSend es _ he => rw [he]; exact h
  | sent a e es _ hb he =>
    rw [he]
    exact (WorkInv.sendEvent hinv a e).log hinv h fun s hs => hc _ (WorkState.next_eq hb hs)
  | waitedRecv es _ he => rw [he]; exact h
  | recvd a e es _ hb he =>
    rw [he]
    exact (WorkInv.recvEvent hinv a e).log hinv h fun _ _ => id

theorem log_init (max nwork : Nat) : Log (worker max nwork).init.wi := by
  have hnone : ∀ id s, ¬ (worker max nwork).init.wi.conn id = some s := by
    intro id s hs
    rw [show (worker max nwork).init.wi.conn id = none from find_alloc max id] at hs
    simp at hs
  exact ⟨.of_not_mem (by simp [worker, workInit]), by simp [worker, workInit],
    fun id s hs => absurd hs (hnone id s), fun id s hs => absurd hs (hnone id s),
    fun id s _ _ hs => absurd hs (hnone id s)⟩

/-- **When no connect fails, a connection is freed at most once and not used
after that.** -/
theorem lifetime_run {max nwork : Nat} {is : List WorkInput} {st : WorkState}
    (hm : (worker max nwork).Meets NoFailedConnect (worker max nwork).init is)
    (h : workRun max nwork is = some st) : AfterFree st.wi.calls := by
  have hboth := Machine.run_inv (M := worker max nwork) (C := NoFailedConnect)
    (I := fun st => st.Inv ∧ Log st.wi)
    (fun st i st' hc hi hs => ⟨hi.1.step hs, Log.step hc hi.1 hi.2 hs⟩) is
    ⟨workInv_init max nwork, log_init max nwork⟩ hm h
  exact hboth.2.closed

/-- The client's close, read after the retry of its packet, frees the connection. -/
def closeRun : List WorkInput :=
  retryRun ++ [.recvWait [⟨5, 0, false⟩], .recvEvent { recv := .bytes [] }]

theorem lifetime_closeRun : ∃ st, workRun 4 1 closeRun = some st ∧ AfterFree st.wi.calls := by
  have hm : (worker 4 1).Meets NoFailedConnect (worker 4 1).init closeRun := by decide
  obtain ⟨st, h⟩ := Option.isSome_iff_exists.mp (show (workRun 4 1 closeRun).isSome by decide)
  exact ⟨st, h, lifetime_run hm h⟩

/-- The refused connect frees the connection and sends to its server. -/
theorem refusedRun_reuses :
    ∃ st, workRun 4 1 refusedRun = some st ∧ ¬ AfterFree st.wi.calls := by
  have hend : (workRun 4 1 refusedRun).map (fun st => st.wi.calls.drop 7) =
      some [(.freeConnection, 0), (.cleanConnection, 0), (.cleanConnection, 0),
        (.sendtoServer, 0)] := by decide
  obtain ⟨st, h, hst⟩ := Option.map_eq_some_iff.mp hend
  refine ⟨st, h, fun haf => ?_⟩
  obtain ⟨rest, hrest, hno⟩ := haf (st.wi.calls.take 7) _ 0
    ((List.take_append_drop 7 _).symm.trans (congrArg _ hst))
  simp only [List.cons.injEq, true_and] at hrest
  exact hno (.sendtoServer, 0) (by simp [← hrest]) rfl

end WafProxy
