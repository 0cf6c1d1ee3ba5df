import Mathlib.Algebra.Group.Nat.Defs
import Mathlib.Data.List.Basic
import Mathlib.Data.List.Nodup
import Mathlib.Data.List.Perm.Basic
import WafProxy.Lib.Machine

/-
  The accept thread, the clock and the connection counters — accept.c, clock.c

  `_accept_client` runs in three steps: the concurrency check on a client it
  has just accepted, the hand-over to a worker, and the section under the
  statistics lock. Between two of them the workers may close clients that were
  handed over, and the clock may tick. A worker closes a client in
  `_work_free_connection`, which also counts `nowlive` down, or in
  `_work_get_connection` when it has no connection for it.

  Correspondence (C ↔ Lean):
    the check `nlive >= g_cfg.max`       ↔ `refuses`
    `_accept_client`                     ↔ the inputs `accept`, `handOver`, `count`
    `close(clifd)` in a worker           ↔ the input `close`
    `_update_traffic`                    ↔ the input `tick`

  Of `g_cfg.stat` the two counters of connections are kept; the other counters
  of accept.c are only printed. Bookkeeping: `openFds`, the accepted clients whose
  descriptor is open, and of the clients counted since the clock last ticked
  those that are still open (`recent`) and the number of the others (`gone`).

  What is proved:
    1. `LiveInv.step` — `nlive` is what the clock's last tick has left to count:
       the recent clients, and those that have gone.
    2. `concurrency_run` — while no client is closed that `nlive` counts and none
       is open that the clock has struck off, every check is right.
-/

namespace WafProxy
open Lib

/-- Where `_accept_client` stands, with the client in hand. -/
inductive AcceptPc where
  | idle
  | checked (fd : Nat)
  | handedOver (fd : Nat)
  deriving DecidableEq, Repr

structure LiveState where
  nlive : UInt64 := 0
  nowlive : UInt64 := 0
  pc : AcceptPc := .idle
  openFds : List Nat := []
  recent : List Nat := []
  gone : Nat := 0
  deriving DecidableEq, Repr

inductive LiveInput where
  | accept (fd : Nat)
  | handOver (ok : Bool)
  | count
  | close (fd : Nat) (counted : Bool)
  | tick
  deriving DecidableEq, Repr

/-- `g_cfg.stat.nlive >= g_cfg.max`. -/
def refuses (max : UInt32) (st : LiveState) : Bool := max.toUInt64 ≤ st.nlive

/-- A client a worker has: open, and not in the hands of the accept thread. -/
def LiveState.withWorker (st : LiveState) (fd : Nat) : Prop :=
  fd ∈ st.openFds ∧ st.pc ≠ .checked fd

instance (st : LiveState) (fd : Nat) : Decidable (st.withWorker fd) :=
  inferInstanceAs (Decidable (_ ∧ _))

def liveStep (max : UInt32) (st : LiveState) : LiveInput → Option LiveState
  | .accept fd =>
    if st.pc = .idle ∧ fd ∉ st.openFds then
      if refuses max st then some st
      else some { st with pc := .checked fd, openFds := fd :: st.openFds }
    else none
  | .handOver ok =>
    match st.pc with
    | .checked fd =>
      if ok then some { st with pc := .handedOver fd }
      else some { st with pc := .idle, openFds := st.openFds.erase fd }
    | _ => none
  | .count =>
    match st.pc with
    | .handedOver fd =>
      some { st with
        pc := .idle, nlive := st.nlive + 1, nowlive := st.nowlive + 1
        recent := if fd ∈ st.openFds then fd :: st.recent else st.recent
        gone := if fd ∈ st.openFds then st.gone else st.gone + 1 }
    | _ => none
  | .close fd counted =>
    if st.withWorker fd then
      some { st with
        openFds := st.openFds.erase fd
        nowlive := if counted then st.nowlive - 1 else st.nowlive
        recent := st.recent.erase fd
        gone := if fd ∈ st.recent then st.gone + 1 else st.gone }
    else none
  | .tick => some { st with nlive := 0, recent := [], gone := 0 }

/-- The accept thread, the workers' closes and the clock, in any order. -/
def live (max : UInt32) : Machine LiveState LiveInput where
  init := {}
  step := liveStep max

def liveRun (max : UInt32) (is : List LiveInput) : Option LiveState :=
  (live max).run (live max).init is

/-! ## The limit -/

/-- At a concurrency check, every client counted since the last tick is still
open, and every open client was counted since then. -/
def Undisturbed (st : LiveState) : LiveInput → Prop
  | .accept _ => st.gone = 0 ∧ ∀ fd ∈ st.openFds, fd ∈ st.recent
  | _ => True

instance (st : LiveState) (i : LiveInput) : Decidable (Undisturbed st i) :=
  match i with
  | .accept _ => inferInstanceAs (Decidable (_ ∧ _))
  | .handOver _ | .count | .close _ _ | .tick => .isTrue trivial

/-- A concurrency check refuses exactly when `max` accepted clients are open. -/
def RefusesRightly (max : UInt32) (st : LiveState) : LiveInput → Prop
  | .accept _ => refuses max st = true ↔ max.toNat ≤ st.openFds.length
  | _ => True

/-- `nlive` counts the recent clients and the gone ones; the client the accept
thread has in hand is not counted yet. -/
structure LiveInv (st : LiveState) : Prop where
  nlive : st.nlive.toNat = (st.recent.length + st.gone) % 2 ^ 64
  openNodup : st.openFds.Nodup
  nodup : st.recent.Nodup
  isOpen : ∀ fd ∈ st.recent, fd ∈ st.openFds
  inHand : ∀ fd, st.pc = .checked fd ∨ st.pc = .handedOver fd → fd ∉ st.recent

theorem liveInv_init (max : UInt32) : LiveInv (live max).init where
  nlive := rfl
  openNodup := List.nodup_nil
  nodup := List.nodup_nil
  isOpen := fun _ h => absurd h List.not_mem_nil
  inHand := fun _ _ => List.not_mem_nil

theorem LiveInv.step (max : UInt32) (st : LiveState) (i : LiveInput) (st' : LiveState)
    (hi : LiveInv st) (h : liveStep max st i = some st') : LiveInv st' := by
  cases i with
  | accept fd =>
    simp only [liveStep] at h
    split at h
    · next hnew =>
      split at h <;> cases h
      · exact hi
      · refine ⟨hi.nlive, List.nodup_cons.mpr ⟨hnew.2, hi.openNodup⟩, hi.nodup,
          fun x hx => List.mem_cons_of_mem _ (hi.isOpen x hx), fun x hx hr => ?_⟩
        rcases hx with hx | hx <;> cases hx
        exact hnew.2 (hi.isOpen fd hr)
    · cases h
  | handOver ok =>
    simp only [liveStep] at h
    split at h
    · next fd hpc =>
      have hfd := hi.inHand fd (Or.inl hpc)
      split at h <;> cases h
      · refine ⟨hi.nlive, hi.openNodup, hi.nodup, hi.isOpen, fun x hx => ?_⟩
        rcases hx with hx | hx <;> cases hx
        exact hfd
      · refine ⟨hi.nlive, hi.openNodup.erase fd, hi.nodup, fun x hx => ?_, fun x hx => ?_⟩
        · have hne : x ≠ fd := by
            rintro rfl
            exact hfd hx
          exact (List.mem_erase_of_ne hne).mpr (hi.isOpen x hx)
        · rcases hx with hx | hx <;> cases hx
    · cases h
  | count =>
    simp only [liveStep] at h
    split at h
    · next fd hpc =>
      have hfd := hi.inHand fd (Or.inr hpc)
      cases h
      have hnlive : (st.nlive + 1).toNat = (st.recent.length + st.gone + 1) % 2 ^ 64 := by
        rw [UInt64.toNat_add, hi.nlive]
        show ((st.recent.length + st.gone) % 2 ^ 64 + 1) % 2 ^ 64 = _
        omega
      -- counted while it is open, or after a worker has closed it already
      by_cases ho : fd ∈ st.openFds
      · simp only [ho, if_true]
        refine ⟨?_, hi.openNodup, List.nodup_cons.mpr ⟨hfd, hi.nodup⟩, fun x hx => ?_, fun x hx => ?_⟩
        · rw [hnlive, List.length_cons, Nat.add_right_comm]
        · rcases List.mem_cons.mp hx with rfl | hx
          · exact ho
          · exact hi.isOpen x hx
        · rcases hx with hx | hx <;> cases hx
      · simp only [ho, if_false]
        refine ⟨hnlive, hi.openNodup, hi.nodup, hi.isOpen, fun x hx => ?_⟩
        rcases hx with hx | hx <;> cases hx
    · cases h
  | close fd counted =>
    simp only [liveStep] at h
    split at h
    · cases h
      refine ⟨?_, hi.openNodup.erase fd, hi.nodup.erase fd, fun x hx => ?_, fun x hx hr => ?_⟩
      · rw [hi.nlive]
        by_cases hr : fd ∈ st.recent
        · have hpos : 0 < st.recent.length := List.length_pos_of_mem hr
          simp only [hr, if_true, List.length_erase_of_mem hr]
          congr 1
          omega
        · simp only [hr, if_false, List.erase_of_not_mem hr]
      · obtain ⟨hne, hx⟩ := hi.nodup.mem_erase_iff.mp hx
        exact (List.mem_erase_of_ne hne).mpr (hi.isOpen x hx)
      · exact hi.inHand x hx (List.mem_of_mem_erase hr)
    · cases h
  | tick =>
    cases h
    exact ⟨rfl, hi.openNodup, List.nodup_nil, fun _ h => absurd h List.not_mem_nil,
      fun _ _ => List.not_mem_nil⟩

/-- Where nothing was disturbed, the recent clients are the open ones. -/
theorem LiveInv.recent_length {st : LiveState} (hi : LiveInv st)
    (hall : ∀ fd ∈ st.openFds, fd ∈ st.recent) : st.recent.length = st.openFds.length := by
  apply List.Perm.length_eq
  exact (List.perm_ext_iff_of_nodup hi.nodup hi.openNodup).mpr fun fd => ⟨hi.isOpen fd, hall fd⟩

theorem LiveInv.refusesRightly {max : UInt32} {st : LiveState} (hi : LiveInv st)
    (hlimit : st.openFds.length ≤ max.toNat) (i : LiveInput) (hu : Undisturbed st i) :
    RefusesRightly max st i := by
  cases i with
  | accept fd =>
    obtain ⟨hgone, hall⟩ := hu
    have hmax : max.toNat < 2 ^ 32 := max.toNat_lt
    have hnlive := hi.nlive
    rw [hi.recent_length hall, hgone, Nat.add_zero, Nat.mod_eq_of_lt (by omega)] at hnlive
    simp only [RefusesRightly, refuses]
    rw [decide_eq_true_iff, UInt64.le_iff_toNat_le, UInt32.toNat_toUInt64, hnlive]
  | _ => trivial

theorem openFds_step (max : UInt32) (st : LiveState) (i : LiveInput) (st' : LiveState)
    (hr : RefusesRightly max st i) (hi : st.openFds.length ≤ max.toNat)
    (h : liveStep max st i = some st') : st'.openFds.length ≤ max.toNat := by
  cases i with
  | accept fd =>
    simp only [liveStep] at h
    simp only [RefusesRightly] at hr
    split at h
    · split at h
      · cases h
        exact hi
      · next hno =>
        cases h
        have hlt : ¬ max.toNat ≤ st.openFds.length := fun hle => hno (hr.mpr hle)
        show st.openFds.length + 1 ≤ max.toNat
        omega
    · cases h
  | handOver ok =>
    simp only [liveStep] at h
    split at h
    · split at h <;> cases h
      · exact hi
      · exact Nat.le_trans List.length_erase_le hi
    · cases h
  | count =>
    simp only [liveStep] at h
    split at h <;> cases h
    exact hi
  | close fd counted =>
    simp only [liveStep] at h
    split at h <;> cases h
    exact Nat.le_trans List.length_erase_le hi
  | tick =>
    cases h
    exact hi

/-- **The concurrency limit.** In every run in which, at each check, the clients
counted since the clock last ticked are the open ones, every check refuses
exactly when `max` clients are open, and never more than `max` are. -/
theorem concurrency_run (max : UInt32) (is : List LiveInput) (st : LiveState)
    (h : liveRun max is = some st) (hu : (live max).Meets Undisturbed (live max).init is) :
    (live max).Meets (RefusesRightly max) (live max).init is ∧ st.openFds.length ≤ max.toNat := by
  have hkeep : ∀ st i st', Undisturbed st i → LiveInv st ∧ st.openFds.length ≤ max.toNat →
      liveStep max st i = some st' → LiveInv st' ∧ st'.openFds.length ≤ max.toNat :=
    fun st i st' hu hi hs => ⟨LiveInv.step max st i st' hi.1 hs,
      openFds_step max st i st' (hi.1.refusesRightly hi.2 i hu) hi.2 hs⟩
  have hstart : LiveInv (live max).init ∧ (live max).init.openFds.length ≤ max.toNat :=
    ⟨liveInv_init max, Nat.zero_le _⟩
  refine ⟨?_, (Machine.run_inv (I := fun st => LiveInv st ∧ st.openFds.length ≤ max.toNat)
    hkeep is hstart hu h).2⟩
  -- under the invariant the condition brings the right answer with it
  have hboth : (live max).Meets (fun st i => Undisturbed st i ∧ RefusesRightly max st i)
      (live max).init is :=
    (Machine.meets_congr_while (I := fun st => LiveInv st ∧ st.openFds.length ≤ max.toNat) hkeep
      (fun st i hi => ⟨fun hu => ⟨hu, hi.1.refusesRightly hi.2 i hu⟩, And.left⟩) hstart).mp hu
  exact (Machine.meets_and.mp hboth).2

/-- A client that leaves before the clock ticks, one that comes behind the tick
and stays, and one that is refused for it. -/
def servedRun : List LiveInput :=
  [.accept 5, .handOver true, .count, .close 5 true, .tick, .accept 6, .handOver true, .count, .accept 7]

theorem concurrency_servedRun :
    (live 1).Meets (RefusesRightly 1) (live 1).init servedRun ∧
      ∃ st, liveRun 1 servedRun = some st ∧ st.openFds = [6] ∧ st.openFds.length ≤ 1 := by
  have hrun : (liveRun 1 servedRun).isSome := by decide
  obtain ⟨st, hst⟩ := Option.isSome_iff_exists.mp hrun
  have hfds : (liveRun 1 servedRun).map LiveState.openFds = some [6] := by decide
  obtain ⟨hright, hlimit⟩ := concurrency_run 1 servedRun st hst (by decide)
  rw [hst] at hfds
  exact ⟨hright, st, hst, Option.some.inj hfds, hlimit⟩

/-- With a limit of one client: a tick while it is open lets a second one in,
and a client that has left is counted until the next tick. -/
theorem concurrency_drifts :
    (∃ st, liveRun 1 [.accept 5, .handOver true, .count, .tick, .accept 6] = some st ∧
      st.openFds.length = 2) ∧
    (∃ st, liveRun 1 [.accept 5, .handOver true, .count, .close 5 true] = some st ∧
      st.openFds = [] ∧ refuses 1 st = true) :=
  ⟨⟨_, rfl, by decide⟩, ⟨_, rfl, by decide, by decide⟩⟩

end WafProxy
