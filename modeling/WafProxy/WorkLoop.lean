import WafProxy.Lib.Machine
import WafProxy.Handlers

/-
  `_work_loop` as a machine — the runs of a worker

  A turn of the loop takes over the accepted clients, then waits on the send
  set and handles what it got one event after the other, then the same on the
  receive set. `pc` is the part that ran last, `batch` the events of
  `wi->events` still to handle. The accept thread may hand over a client
  between any two steps.

  `epoll_wait` returns registered descriptors, each at most once and no more
  than `nevent` of them; which of them are ready is the input.

  Correspondence (C ↔ Lean):
    `_work_init`                                ↔ `workInit`
    `_work_get_connection`, `_work_send_data`,
    `_work_recv_data` in `_work_loop`           ↔ `workStep`
    `_accept_client` calling
    `work_add_connection`                       ↔ the input `addConnection`
-/

namespace WafProxy
open Lib

inductive Pc where
  | get
  | send
  | recv
  deriving DecidableEq, Repr

structure WorkState where
  wi : Work
  pc : Pc
  batch : List Event

inductive WorkInput where
  | addConnection (wfd : WorkFd)
  | getConnection (as : List TakeAnswers)
  | sendWait (es : List Event)
  | sendEvent (a : Answers)
  | recvWait (es : List Event)
  | recvEvent (a : Answers)
  deriving DecidableEq, Repr

/-- `_work_init` with `g_cfg.max` and `g_cfg.nwork`. -/
def workInit (max nwork : Nat) : Work :=
  { max := max / nwork + 1, sesstbl := .alloc max }

/-- What `epoll_wait` may return for the set `ep`. -/
def Harvest (max : Nat) (ep : EpollSet) (es : List Event) : Prop :=
  es.length ≤ max ∧ (es.map Event.fd).Nodup ∧ ∀ e ∈ es, (e.fd, e.id) ∈ ep

instance (max : Nat) (ep : EpollSet) (es : List Event) : Decidable (Harvest max ep es) :=
  inferInstanceAs (Decidable (_ ∧ _ ∧ _))

def workStep (st : WorkState) : WorkInput → Option WorkState
  | .addConnection wfd =>
    if 0 < wfd.fd ∧ wfd.fd ∉ st.wi.fds then
      match workAddConnection wfd { st.wi with fds := wfd.fd :: st.wi.fds } with
      | (r, wi) => some { st with wi := if r ≠ 0 then wi.close wfd.fd else wi }
    else none
  | .getConnection as =>
    if st.pc = .recv ∧ st.batch = [] then
      some { wi := workGetConnection as st.wi, pc := .get, batch := [] }
    else none
  | .sendWait es =>
    if st.pc = .get then
      -- `_work_send_data` does not wait when `nblocked < 1`
      if st.wi.nblocked < 1 then
        if es = [] then some { st with pc := .send, batch := [] } else none
      else if Harvest st.wi.max st.wi.sendEpfd es then some { st with pc := .send, batch := es }
      else none
    else none
  | .sendEvent a =>
    match st.pc, st.batch with
    | .send, e :: es => some { st with wi := workSendEvent a e st.wi, batch := es }
    | _, _ => none
  | .recvWait es =>
    if st.pc = .send ∧ st.batch = [] ∧ Harvest st.wi.max st.wi.recvEpfd es then
      some { st with pc := .recv, batch := es }
    else none
  | .recvEvent a =>
    match st.pc, st.batch with
    | .recv, e :: es => some { st with wi := workRecvEvent a e st.wi, batch := es }
    | _, _ => none

/-- A worker of a configuration, before its first turn. -/
def worker (max nwork : Nat) : Machine WorkState WorkInput where
  init := { wi := workInit max nwork, pc := .recv, batch := [] }
  step := workStep

/-- The worker after the inputs of a run, when they were all possible. -/
def workRun (max nwork : Nat) (is : List WorkInput) : Option WorkState :=
  (worker max nwork).run (worker max nwork).init is

end WafProxy
