import Mathlib.Algebra.Group.Nat.Defs
import Mathlib.Data.List.Perm.Basic
import Mathlib.Data.List.Perm.Subperm
import Mathlib.Data.List.Nodup
import WafProxy.Accept
import WafProxy.Worker

/-
  The counter of live connections — accept.c and work2.c, `g_cfg.stat.nowlive`

  `_accept_client` counts `nowlive` up in its own section, after the client is
  in the input queue of a worker; `_work_free_connection` counts it down. Here
  every client is followed from one to the other: through `inq` and `inq2` of a
  worker to its connections, with every way out.

  What is proved:
    1. `liveCountStep_cases` — what a step does to the clients the workers hold
       and to `nowlive`.
    2. `LiveCount.Inv.step` — `nowlive` is the number of these clients, less the
       one the accept thread has not counted yet.
    3. `nowlive_run` — so it never wraps and is 0 when nobody is connected, as
       long as no client is dropped for want of a connection and none is freed
       that only the accept thread's section is still to count.

  Correspondence (C ↔ Lean):
    `_accept_client`                       ↔ the inputs `accept`, `handOver`, `count`
    `_work_get_connection`: locked, loop   ↔ the inputs `get`, `take`
    `_work_free_connection`, from the loop
    of a worker                            ↔ the input `free`
    `_update_traffic`                      ↔ the input `tick`
-/

namespace WafProxy
open Lib

/-- The clients a worker holds, by their descriptors, and `wi->max`. -/
structure WorkClients where
  max : Nat
  inq : List Nat := []
  inq2 : List Nat := []
  conns : List Nat := []
  deriving DecidableEq, Repr

def WorkClients.all (wi : WorkClients) : List Nat := wi.inq ++ (wi.inq2 ++ wi.conns)

/-- `g_cfg.stat`, the accept thread with its `ai->index`, and the workers. -/
structure LiveCount where
  nlive : UInt64 := 0
  nowlive : UInt64 := 0
  pc : AcceptPc := .idle
  index : Nat := 0
  works : List WorkClients
  deriving DecidableEq, Repr

/-- The clients the workers hold. -/
def LiveCount.held (st : LiveCount) : List Nat := st.works.flatMap WorkClients.all

inductive LiveCountInput where
  | accept (fd : Nat)
  | handOver
  | count
  | get (w : Nat)
  | take (w : Nat) (a : TakeAnswers)
  | free (w : Nat) (fd : Nat)
  | tick
  deriving DecidableEq, Repr

/-- The client `_accept_client` has, before the hand-over. -/
def AcceptPc.clients : AcceptPc → List Nat
  | .checked fd => [fd]
  | .idle | .handedOver _ => []

/-- A turn of the loop of `_work_get_connection` for `fd`: whether
`_work_free_connection` runs, and the worker. -/
def WorkClients.takeFd (a : TakeAnswers) (fd : Nat) (wi : WorkClients) : Bool × WorkClients :=
  if ¬ a.ssn then (false, wi)
  else if ¬ a.add then (true, wi)
  else (false, { wi with conns := fd :: wi.conns })

/-- `g_cfg.stat.nowlive--` when `_work_free_connection` runs. -/
def countDown (freed : Bool) (nowlive : UInt64) : UInt64 := if freed then nowlive - 1 else nowlive

def liveCountStep (max : UInt32) (st : LiveCount) : LiveCountInput → Option LiveCount
  | .accept fd =>
    -- a new descriptor is an `int` that is not open
    if st.pc = .idle ∧ fd < 2 ^ 31 ∧ fd ∉ st.held then
      if max.toUInt64 ≤ st.nlive then some st else some { st with pc := .checked fd }
    else none
  | .handOver =>
    match st.pc with
    | .checked fd =>
      match st.works[st.index]? with
      | none => some { st with pc := .idle }
      | some wi =>
        if wi.max < 1 ∨ wi.max ≤ wi.inq.length then some { st with pc := .idle }
        else some { st with
          pc := .handedOver fd
          works := st.works.set st.index { wi with inq := wi.inq ++ [fd] } }
    | _ => none
  | .count =>
    match st.pc with
    | .handedOver _ =>
      some { st with
        pc := .idle, nlive := st.nlive + 1, nowlive := st.nowlive + 1
        index := if st.works.length ≤ st.index + 1 then 0 else st.index + 1 }
    | _ => none
  | .get w =>
    match st.works[w]? with
    | none => none
    | some wi =>
      if wi.inq2 = [] then
        some { st with works := st.works.set w { wi with inq := [], inq2 := wi.inq } }
      else none
  | .take w a =>
    match st.works[w]? with
    | none => none
    | some wi =>
      match wi.inq2 with
      | [] => none
      | fd :: rest =>
        match { wi with inq2 := rest }.takeFd a fd with
        | (freed, wi') =>
          some { st with nowlive := countDown freed st.nowlive, works := st.works.set w wi' }
  | .free w fd =>
    match st.works[w]? with
    | none => none
    | some wi =>
      if fd ∈ wi.conns then
        some { st with
          nowlive := countDown true st.nowlive
          works := st.works.set w { wi with conns := wi.conns.erase fd } }
      else none
  | .tick => some { st with nlive := 0 }

/-- The accept thread, the workers with these `wi->max`, and the clock. -/
def liveCount (max : UInt32) (maxs : List Nat) : Machine LiveCount LiveCountInput where
  init := { works := maxs.map fun m => { max := m } }
  step := liveCountStep max

/-! ## What a step does -/

/-- The others stay as they are when one worker's clients change. -/
theorem held_set {works : List WorkClients} {w : Nat} {wi : WorkClients} (h : works[w]? = some wi) :
    ∃ others : List Nat, (works.flatMap WorkClients.all).Perm (wi.all ++ others) ∧
      ∀ wi', ((works.set w wi').flatMap WorkClients.all).Perm (wi'.all ++ others) := by
  obtain ⟨hw, rfl⟩ := List.getElem?_eq_some_iff.mp h
  refine ⟨(works.take w).flatMap WorkClients.all ++ (works.drop (w + 1)).flatMap WorkClients.all, ?_, ?_⟩
  · have hflat : works.flatMap WorkClients.all = (works.take w).flatMap WorkClients.all ++
        (works[w].all ++ (works.drop (w + 1)).flatMap WorkClients.all) := by
      calc works.flatMap WorkClients.all
          = (works.take w ++ works[w] :: works.drop (w + 1)).flatMap WorkClients.all := by
            rw [List.getElem_cons_drop, List.take_append_drop]
        _ = _ := by rw [List.flatMap_append, List.flatMap_cons]
    rw [hflat]
    exact List.perm_append_comm_assoc _ _ _
  · intro wi'
    rw [List.set_eq_take_append_cons_drop, if_pos hw, List.flatMap_append, List.flatMap_cons]
    exact List.perm_append_comm_assoc _ _ _

/-- `_work_free_connection` runs in this step. -/
def LiveCountInput.Frees : LiveCountInput → Prop
  | .take _ a => a.ssn = true ∧ a.add = false
  | .free _ _ => True
  | _ => False

/-- `_work_alloc_connection` succeeds, if it is called. -/
def LiveCountInput.Allocates : LiveCountInput → Prop
  | .take _ a => a.ssn = true
  | _ => True

instance (i : LiveCountInput) : Decidable i.Frees :=
  match i with
  | .take _ _ => inferInstanceAs (Decidable (_ ∧ _))
  | .free _ _ => .isTrue trivial
  | .accept _ | .handOver | .count | .get _ | .tick => .isFalse not_false

instance (i : LiveCountInput) : Decidable i.Allocates :=
  match i with
  | .take _ _ => inferInstanceAs (Decidable (_ = _))
  | .accept _ | .handOver | .count | .get _ | .free _ _ | .tick => .isTrue trivial

/-- What a step does to the clients of the workers and to `nowlive`. -/
inductive Moves (st st' : LiveCount) : LiveCountInput → Prop
  | accept (fd : Nat) : st.pc = .idle → fd < 2 ^ 31 → fd ∉ st.held → st'.pc = .checked fd →
      st'.held = st.held → st'.nowlive = st.nowlive → Moves st st' (.accept fd)
  | same (i : LiveCountInput) : ¬ i.Frees → st'.pc = st.pc → st'.held.Perm st.held →
      st'.nowlive = st.nowlive → Moves st st' i
  | handOver (fd : Nat) : st.pc = .checked fd → st'.pc = .handedOver fd →
      st'.held.Perm (fd :: st.held) → st'.nowlive = st.nowlive → Moves st st' .handOver
  | refused (fd : Nat) : st.pc = .checked fd → st'.pc = .idle → st'.held = st.held →
      st'.nowlive = st.nowlive → Moves st st' .handOver
  | count (fd : Nat) : st.pc = .handedOver fd → st'.pc = .idle → st'.held = st.held →
      st'.nowlive = st.nowlive + 1 → Moves st st' .count
  | dropped (w : Nat) (a : TakeAnswers) (fd : Nat) : a.ssn = false → st'.pc = st.pc →
      st.held.Perm (fd :: st'.held) → st'.nowlive = st.nowlive → Moves st st' (.take w a)
  | refusedByEpoll (w : Nat) (a : TakeAnswers) (fd : Nat) : a.ssn = true → a.add = false →
      st'.pc = st.pc → st.held.Perm (fd :: st'.held) → st'.nowlive = st.nowlive - 1 →
      Moves st st' (.take w a)
  | freed (w fd : Nat) : st'.pc = st.pc → st.held.Perm (fd :: st'.held) →
      st'.nowlive = st.nowlive - 1 → Moves st st' (.free w fd)

/-- One worker's clients change, and the others' do not. -/
theorem held_perm {st : LiveCount} {w : Nat} {wi wi' : WorkClients} (more : List Nat)
    (h : st.works[w]? = some wi) (hall : wi'.all.Perm (more ++ wi.all)) :
    ((st.works.set w wi').flatMap WorkClients.all).Perm (more ++ st.held) := by
  obtain ⟨others, hold, hset⟩ := held_set h
  refine (hset wi').trans ((hall.append_right others).trans ?_)
  rw [List.append_assoc]
  exact hold.symm.append_left more

theorem held_perm_cons {st : LiveCount} {w fd : Nat} {wi wi' : WorkClients}
    (h : st.works[w]? = some wi) (hall : wi.all.Perm (fd :: wi'.all)) :
    st.held.Perm (fd :: (st.works.set w wi').flatMap WorkClients.all) := by
  obtain ⟨others, hold, hset⟩ := held_set h
  exact hold.trans ((hall.append_right others).trans ((hset wi').symm.cons fd))

theorem liveCountStep_cases {max : UInt32} {st st' : LiveCount} {i : LiveCountInput}
    (h : liveCountStep max st i = some st') : Moves st st' i := by
  cases i with
  | accept fd =>
    simp only [liveCountStep] at h
    split at h
    next hnew =>
      split at h <;> cases h
      · exact .same _ not_false rfl (List.Perm.refl _) rfl
      · exact .accept fd hnew.1 hnew.2.1 hnew.2.2 rfl rfl rfl
    · cases h
  | handOver =>
    simp only [liveCountStep] at h
    split at h
    next fd hpc =>
      split at h
      · cases h
        exact .refused fd hpc rfl rfl rfl
      next wi hwi =>
        split at h <;> cases h
        · exact .refused fd hpc rfl rfl rfl
        · refine .handOver fd hpc rfl (held_perm [fd] hwi ?_) rfl
          show ((wi.inq ++ [fd]) ++ (wi.inq2 ++ wi.conns)).Perm _
          rw [List.append_assoc]
          exact List.perm_middle
    · cases h
  | count =>
    simp only [liveCountStep] at h
    split at h
    next fd hpc =>
      cases h
      exact .count fd hpc rfl rfl rfl
    · cases h
  | get w =>
    simp only [liveCountStep] at h
    split at h
    · cases h
    next wi hwi =>
      split at h
      next hempty =>
        cases h
        refine .same _ not_false rfl (held_perm [] hwi ?_) rfl
        show (wi.inq ++ wi.conns).Perm (wi.inq ++ (wi.inq2 ++ wi.conns))
        rw [hempty, List.nil_append]
      · cases h
  | take w a =>
    simp only [liveCountStep] at h
    split at h
    · cases h
    next wi hwi =>
      split at h
      · cases h
      next fd rest hinq2 =>
        have hall : wi.all.Perm (fd :: { wi with inq2 := rest }.all) := by
          rw [WorkClients.all, hinq2]
          exact List.perm_middle
        rw [WorkClients.takeFd] at h
        split at h
        next hssn =>
          cases h
          exact .dropped w a fd (Bool.not_eq_true _ ▸ hssn) rfl (held_perm_cons hwi hall) rfl
        next hssn =>
          split at h <;> cases h
          next hadd =>
            exact .refusedByEpoll w a fd (not_not.mp hssn) (Bool.not_eq_true _ ▸ hadd) rfl
              (held_perm_cons hwi hall) rfl
          next hadd =>
            refine .same _ (fun hf => hadd (Bool.not_eq_true _ ▸ hf.2)) rfl (held_perm [] hwi ?_) rfl
            show (wi.inq ++ (rest ++ fd :: wi.conns)).Perm (wi.inq ++ (wi.inq2 ++ wi.conns))
            rw [hinq2]
            exact List.perm_middle.append_left wi.inq
  | free w fd =>
    simp only [liveCountStep] at h
    split at h
    · cases h
    next wi hwi =>
      split at h
      next hmem =>
        cases h
        refine .freed w fd rfl (held_perm_cons hwi ?_) rfl
        have hconns := ((List.perm_cons_erase hmem).append_left wi.inq2).append_left wi.inq
        exact hconns.trans ((List.perm_middle.append_left wi.inq).trans List.perm_middle)
      · cases h
  | tick =>
    cases h
    exact .same _ not_false rfl (List.Perm.refl _) rfl

/-! ## What `nowlive` counts -/

/-- The client in a worker's hands that the accept thread has not counted yet. -/
def AcceptPc.uncounted : AcceptPc → Nat
  | .handedOver _ => 1
  | .idle | .checked _ => 0

/-- The workers hold one client, and the accept thread has one to count. -/
def LiveCount.LastUncounted (st : LiveCount) : Prop := st.held.length = 1 ∧ st.pc.uncounted = 1

instance (st : LiveCount) : Decidable st.LastUncounted := inferInstanceAs (Decidable (_ ∧ _))

/-- No client is dropped for want of a connection, and none is freed as the last
one while the accept thread is about to count it. -/
def Orderly (st : LiveCount) (i : LiveCountInput) : Prop :=
  i.Allocates ∧ (i.Frees → ¬ st.LastUncounted)

instance (st : LiveCount) (i : LiveCountInput) : Decidable (Orderly st i) :=
  inferInstanceAs (Decidable (_ ∧ _))

/-- `nowlive` is not counted down from 0. -/
def NoWrap (st : LiveCount) (i : LiveCountInput) : Prop := i.Frees → st.nowlive ≠ 0

/-- No accepted client waits in a queue, is being handed over or has a connection. -/
def LiveCount.Quiet (st : LiveCount) : Prop := st.pc = .idle ∧ st.held = []

instance (st : LiveCount) : Decidable st.Quiet := inferInstanceAs (Decidable (_ ∧ _))

structure LiveCount.Inv (st : LiveCount) : Prop where
  fds : (st.pc.clients ++ st.held).Nodup
  int : ∀ fd ∈ st.pc.clients ++ st.held, fd < 2 ^ 31
  count : st.nowlive.toNat + st.pc.uncounted = st.held.length

theorem LiveCount.Inv.few {st : LiveCount} (hi : st.Inv) : st.held.length ≤ 2 ^ 31 := by
  have hsub : st.held ⊆ List.range (2 ^ 31) := fun fd hfd =>
    List.mem_range.mpr (hi.int fd (List.mem_append_right _ hfd))
  have hle := (List.subperm_of_subset hi.fds.of_append_right hsub).length_le
  rwa [List.length_range] at hle

theorem uint64_succ {n : UInt64} (h : n.toNat ≤ 2 ^ 31) : (n + 1).toNat = n.toNat + 1 := by
  rw [UInt64.toNat_add]
  show (n.toNat + 1) % 2 ^ 64 = n.toNat + 1
  omega

theorem uint64_pred {n : UInt64} (h : 0 < n.toNat) : (n - 1).toNat = n.toNat - 1 := by
  have hone : (1 : UInt64) ≤ n := UInt64.le_iff_toNat_le.mpr h
  rw [UInt64.toNat_sub_of_le _ _ hone]
  rfl

/-- With a client in the workers' hands `nowlive` is 0 only before the accept
thread has counted it. -/
theorem LiveCount.Inv.nowlive_zero {st : LiveCount} (hi : st.Inv) (hheld : st.held ≠ []) :
    st.nowlive = 0 ↔ st.LastUncounted := by
  have hcount := hi.count
  have hpos := List.length_pos_iff.mpr hheld
  have hle : st.pc.uncounted ≤ 1 := by cases st.pc <;> simp [AcceptPc.uncounted]
  have hzero : st.nowlive = 0 ↔ st.nowlive.toNat = 0 := by
    rw [← UInt64.toNat_inj]
    exact Iff.rfl
  rw [hzero, LiveCount.LastUncounted]
  omega

/-- A client leaves the workers and is counted down. -/
theorem LiveCount.Inv.freed {st st' : LiveCount} {fd : Nat} (hi : st.Inv)
    (hlast : ¬ st.LastUncounted) (hpc : st'.pc = st.pc) (hheld : st.held.Perm (fd :: st'.held))
    (hnow : st'.nowlive = st.nowlive - 1) : st'.Inv := by
  have hlen : st.held.length = st'.held.length + 1 := hheld.length_eq
  have hcount := hi.count
  have hne : st.held ≠ [] := List.length_pos_iff.mp (by omega)
  have hpos : 0 < st.nowlive.toNat := by
    apply Nat.pos_of_ne_zero
    intro hzero
    exact hlast ((hi.nowlive_zero hne).mp (UInt64.toNat_inj.mp hzero))
  have hperm := hheld.append_left st.pc.clients
  have hsub : (st.pc.clients ++ st'.held).Sublist (st.pc.clients ++ fd :: st'.held) :=
    (List.sublist_cons_self fd st'.held).append_left st.pc.clients
  refine ⟨?_, fun x hx => hi.int x ?_, ?_⟩
  · rw [hpc]
    exact (hperm.nodup_iff.mp hi.fds).sublist hsub
  · rw [hpc] at hx
    exact hperm.mem_iff.mpr (hsub.subset hx)
  · rw [hnow, hpc, uint64_pred hpos]
    omega

theorem LiveCount.Inv.step {max : UInt32} {st st' : LiveCount} {i : LiveCountInput}
    (hc : Orderly st i) (hi : st.Inv) (h : liveCountStep max st i = some st') : st'.Inv := by
  have hcount := hi.count
  cases liveCountStep_cases h with
  | accept fd hidle hint hnew hpc hheld hnow =>
    refine ⟨?_, ?_, ?_⟩
    · rw [hpc, hheld]
      exact List.nodup_cons.mpr ⟨hnew, hi.fds.of_append_right⟩
    · rw [hpc, hheld]
      intro x hx
      rcases List.mem_cons.mp hx with hx | hx
      · omega
      · exact hi.int x (List.mem_append_right _ hx)
    · rw [hpc, hheld, hnow]
      rw [hidle] at hcount
      exact hcount
  | same _ _ hpc hheld hnow =>
    have hperm := hheld.append_left st.pc.clients
    refine ⟨?_, ?_, ?_⟩
    · rw [hpc]
      exact hperm.nodup_iff.mpr hi.fds
    · rw [hpc]
      exact fun x hx => hi.int x (hperm.mem_iff.mp hx)
    · rw [hpc, hnow, hheld.length_eq]
      exact hcount
  | handOver fd hchecked hpc hheld hnow =>
    have hfds := hi.fds
    have hint := hi.int
    rw [hchecked] at hcount hfds hint
    refine ⟨?_, ?_, ?_⟩
    · rw [hpc]
      exact hheld.nodup_iff.mpr hfds
    · rw [hpc]
      exact fun x hx => hint x (hheld.mem_iff.mp hx)
    · rw [hpc, hnow, hheld.length_eq, List.length_cons, ← hcount]
      rfl
  | refused fd hchecked hpc hheld hnow =>
    rw [hchecked] at hcount
    refine ⟨?_, ?_, ?_⟩
    · rw [hpc, hheld]
      exact hi.fds.of_append_right
    · rw [hpc, hheld]
      exact fun x hx => hi.int x (List.mem_append_right _ hx)
    · rw [hpc, hheld, hnow]
      exact hcount
  | count fd hover hpc hheld hnow =>
    have hfew := hi.few
    rw [hover] at hcount
    refine ⟨?_, ?_, ?_⟩
    · rw [hpc, hheld]
      exact hi.fds.of_append_right
    · rw [hpc, hheld]
      exact fun x hx => hi.int x (List.mem_append_right _ hx)
    · have hle : st.nowlive.toNat ≤ 2 ^ 31 := by omega
      rw [hpc, hheld, hnow, uint64_succ hle]
      exact hcount
  | dropped w a fd hssn hpc hheld hnow =>
    have halloc : a.ssn = true := hc.1
    rw [hssn] at halloc
    cases halloc
  | refusedByEpoll w a fd hssn hadd hpc hheld hnow =>
    exact hi.freed (hc.2 ⟨hssn, hadd⟩) hpc hheld hnow
  | freed w fd hpc hheld hnow =>
    exact hi.freed (hc.2 trivial) hpc hheld hnow

theorem liveCount_init (max : UInt32) (maxs : List Nat) : (liveCount max maxs).init.Inv := by
  have hnone : (liveCount max maxs).init.held = [] := by
    simp [liveCount, LiveCount.held, WorkClients.all]
  refine ⟨?_, ?_, ?_⟩
  · rw [hnone]
    exact List.nodup_nil
  · rw [hnone]
    exact fun _ hx => absurd hx List.not_mem_nil
  · rw [hnone]
    rfl

theorem LiveCount.Inv.orderly_iff {max : UInt32} {st st' : LiveCount} {i : LiveCountInput}
    (hi : st.Inv) (h : liveCountStep max st i = some st') :
    Orderly st i ↔ i.Allocates ∧ NoWrap st i := by
  refine and_congr_right fun _ => forall_congr' fun hf => not_congr ?_
  refine (hi.nowlive_zero (List.length_pos_iff.mp ?_)).symm
  cases liveCountStep_cases h with
  | same _ hstay => exact absurd hf hstay
  | refusedByEpoll w a fd _ _ _ hheld =>
    rw [hheld.length_eq]
    exact Nat.succ_pos _
  | freed w fd _ hheld =>
    rw [hheld.length_eq]
    exact Nat.succ_pos _
  | dropped w a fd _ _ hheld =>
    rw [hheld.length_eq]
    exact Nat.succ_pos _
  | _ => exact hf.elim

/-- **The counter of live connections.** Without a failed allocation, `nowlive`
never wraps in a run exactly when no step of it frees the last client before the
accept thread has counted it; and then it is 0 whenever nobody is connected. -/
theorem nowlive_run (max : UInt32) (maxs : List Nat) (is : List LiveCountInput) (st : LiveCount)
    (h : (liveCount max maxs).run (liveCount max maxs).init is = some st) :
    ((liveCount max maxs).Meets Orderly (liveCount max maxs).init is ↔
      (liveCount max maxs).Meets (fun st i => i.Allocates ∧ NoWrap st i)
        (liveCount max maxs).init is) ∧
    ((liveCount max maxs).Meets Orderly (liveCount max maxs).init is →
      st.Quiet → st.nowlive = 0) := by
  have hinit := liveCount_init max maxs
  refine ⟨Machine.meets_congr_run (M := liveCount max maxs) (I := LiveCount.Inv)
    (fun _ _ _ hc hi hs => hi.step hc hs) (fun _ _ _ hi hs => hi.orderly_iff hs) is hinit h, ?_⟩
  intro hc hquiet
  have hst : st.Inv := Machine.run_inv (M := liveCount max maxs)
    (fun _ _ _ hc hi hs => hi.step hc hs) is hinit hc h
  have hcount := hst.count
  rw [hquiet.1, hquiet.2] at hcount
  exact UInt64.toNat_inj.mp hcount

/-- Two clients of one worker: the first is freed while the second is handed over. -/
def twoClients : List LiveCountInput :=
  [.accept 5, .handOver, .count, .get 0, .take 0 {}, .accept 6, .handOver, .free 0 5, .count,
    .get 0, .take 0 { add := false }]

theorem nowlive_twoClients : ∃ st, (liveCount 10 [4]).run (liveCount 10 [4]).init twoClients = some st ∧
    (liveCount 10 [4]).Meets (fun st i => i.Allocates ∧ NoWrap st i)
      (liveCount 10 [4]).init twoClients ∧ st.Quiet ∧ st.nowlive = 0 := by
  have hrun : ((liveCount 10 [4]).run (liveCount 10 [4]).init twoClients).isSome := by decide
  obtain ⟨st, hst⟩ := Option.isSome_iff_exists.mp hrun
  have horderly : (liveCount 10 [4]).Meets Orderly (liveCount 10 [4]).init twoClients := by decide
  obtain ⟨hiff, hzero⟩ := nowlive_run 10 [4] twoClients st hst
  have hquiet : ∀ st ∈ (liveCount 10 [4]).run (liveCount 10 [4]).init twoClients, st.Quiet := by decide
  exact ⟨st, hst, hiff.mp horderly, hquiet st hst, hzero horderly (hquiet st hst)⟩

/-- (a) A client a worker has no connection for stays counted. (b) A client that
is freed before it is counted takes `nowlive` to 2^64 - 1. -/
theorem nowlive_drifts :
    (∃ st, (liveCount 10 [4]).run (liveCount 10 [4]).init
        [.accept 5, .handOver, .count, .get 0, .take 0 { ssn := false }] = some st ∧
      st.Quiet ∧ st.nowlive = 1) ∧
    (∃ st, (liveCount 10 [4]).run (liveCount 10 [4]).init
        [.accept 5, .handOver, .get 0, .take 0 {}, .free 0 5] = some st ∧
      st.nowlive.toNat = 2 ^ 64 - 1) :=
  ⟨⟨_, rfl, by decide, rfl⟩, ⟨_, rfl, by decide⟩⟩

end WafProxy
