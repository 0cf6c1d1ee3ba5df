import WafProxy.Http.Types
import WafProxy.WorkInvariant

/-
  Inspection and forwarding — the calls `_work_parse_client` does not make

  `_work_parse_client` calls `do_http_parse_test` and `module_detect_entry` in a
  block behind `if (0)`. This file writes the function with that block
  (`workParseClientFull`), whatever the two functions do (`Inspector`), and runs
  the worker with a record of what is inspected and what is forwarded
  (`firewall`). It

   1. proves that the block changes nothing (`workParseClientFull_eq`);
   2. says what it would be for a packet to be inspected before it is forwarded
      (`Watch.InspectsFirst`);
   3. proves what the worker does instead: no run inspects anything, and every
      packet is forwarded in the event it was received in (`forwarded_uninspected`).

  Correspondence (C ↔ Lean):
    `if (0) { … }`                          ↔ `inspectGate`, `inspectPacket`
    `_work_parse_client`, with the block    ↔ `workParseClientFull`
    its call in one step of the worker      ↔ `parseCall`
-/

namespace WafProxy
open Lib ConnectionTable

/-! ## The block -/

/-- `do_http_parse_test` and `module_detect_entry`. -/
structure Inspector where
  doHttpParseTest : Http → List Byte → Int × Http
  moduleDetectEntry : Http → Int

/-- An inspection of a packet: what the two calls returned, the second of which
is made only when the first does not return -1. -/
structure Inspection where
  pkt : Nat
  parse : Int
  detect : Option Int
  deriving DecidableEq, Repr

/-- The condition of the block, `0`. -/
def inspectGate : Bool := false

/-- The block: the inspection it makes, `ret` (`none` when it returns 0 at once),
and `http_ctx`. -/
def inspectPacket (x : Inspector) (http : Http) (pkt : Packet) :
    Option Inspection × Option Int × Http :=
  if inspectGate then
    let (ret, http) := x.doHttpParseTest http pkt.data
    if ret = -1 then (some ⟨pkt.id, ret, none⟩, none, http)
    else
      let found := x.moduleDetectEntry http
      (some ⟨pkt.id, ret, some found⟩, some found, http)
  else (none, some 0, http)

/-- `_work_parse_client` with the block. -/
def workParseClientFull (x : Inspector) (http : Http) (c : Ctx) :
    (Int × Ctx) × Option Inspection × Http :=
  let c := c.call .parseClient
  match c.s.cliq.pkt with
  | none => ((0, c), none, http)
  | some pkt =>
    match inspectPacket x http pkt with
    | (made, none, http) => ((0, c), made, http)
    | (made, some ret, http) =>
      if ret = RET_FAIL then ((-1, c), made, http)
      else ((0, { c with s.cliq.pkt := none, s.cliq.outq := pktqIn c.s.cliq.outq pkt }), made, http)

/-- **The block changes nothing and inspects nothing.** -/
theorem workParseClientFull_eq (x : Inspector) (http : Http) (c : Ctx) :
    workParseClientFull x http c = (workParseClient c, none, http) := by
  unfold workParseClientFull workParseClient
  dsimp only
  cases (c.call .parseClient).s.cliq.pkt with
  | none => rfl
  | some pkt => rfl

/-- A packet moves to the output queue. -/
theorem workParseClient_moves (c : Ctx) : ∃ c', workParseClient c = (0, c') ∧
    c'.s.cliq.pkt = none ∧ c'.s.cliq.outq = c.s.cliq.outq ++ c.s.cliq.pkt.toList := by
  have hcall : (c.call .parseClient).s = c.s := rfl
  unfold workParseClient
  dsimp only
  cases hp : (c.call .parseClient).s.cliq.pkt with
  | none =>
    refine ⟨c.call .parseClient, rfl, hp, ?_⟩
    rw [hcall] at hp
    rw [hcall, hp]
    simp
  | some pkt =>
    refine ⟨_, rfl, rfl, ?_⟩
    rw [hcall] at hp
    rw [hp]
    rfl

/-! ## The call in a step -/

/-- What `_work_parse_client` is called with while an event is handled. -/
def parseCallIn (a : Answers) (e : Event) (wi : Work) : Option Ctx :=
  match wi.sesstbl.findSlot e.id with
  | none => none
  | some s =>
    if e.err ∨ s.clifd ≠ e.fd ∨ s.isSvrblock then none
    else
      match workRecvfromClient a (Ctx.call ⟨wi, s⟩ .processClient) with
      | (r, c) => if r ≠ 0 then none else some c

/-- The same for a step: only a receive event comes to the call. -/
def parseCall (st : WorkState) : WorkInput → Option Ctx
  | .recvEvent a =>
    match st.pc, st.batch with
    | .recv, e :: _ => parseCallIn a e st.wi
    | _, _ => none
  | _ => none

/-- `_work_process_client` behind its call of `_work_parse_client`. -/
def processParsed (a : Answers) (out : Int × Ctx) : Int × Ctx :=
  if out.1 ≠ 0 then (-1, workFreeConnection .parseClient out.2)
  else
    match workSendtoServer a out.2 with
    | (r, c) =>
      if r ≠ 0 then (-1, workFreeConnection .sendtoServer c)
      else if c.s.isClierror ∨ c.s.isCliclose then (-1, workFreeConnection .clientDone c)
      else (0, c)

theorem workProcessClient_parsed {a : Answers} {c c₁ : Ctx} {r : Int}
    (h : workRecvfromClient a (c.call .processClient) = (r, c₁)) (hr : ¬ r ≠ 0) :
    workProcessClient a c = processParsed a (workParseClient c₁) := by
  unfold workProcessClient
  dsimp only
  rw [h]
  dsimp only
  rw [if_neg hr]
  rfl

/-- An event with such a call goes on from what the call returns. -/
theorem recvEvent_parseCall {a : Answers} {e : Event} {wi : Work} {c : Ctx}
    (h : parseCallIn a e wi = some c) :
    workRecvEvent a e wi = (processParsed a (workParseClient c)).2.store := by
  unfold parseCallIn at h
  unfold workRecvEvent
  cases hs : wi.sesstbl.findSlot e.id with
  | none =>
    rw [hs] at h
    cases h
  | some s =>
    rw [hs] at h
    dsimp only at h ⊢
    split at h
    · cases h
    · next hgood =>
      simp only [not_or, Bool.not_eq_true, Decidable.not_not] at hgood
      obtain ⟨herr, hfd, hblk⟩ := hgood
      rw [herr, if_neg (by simp), if_pos hfd, hblk, if_pos (by simp)]
      split at h
      · cases h
      · next hr =>
        cases h
        exact congrArg (fun out : Int × Ctx => out.2.store) (workProcessClient_parsed rfl hr)

/-! ## The record of a run -/

/-- The `http_ctx` of each connection, by its serial number, the inspections made
and the packets moved to an output queue, in order. -/
structure Watch where
  http : Nat → Http := fun _ => Http.zero
  log : List Inspection := []
  moved : List Nat := []

/-- What a step adds to the record. -/
def Watch.note (x : Inspector) (st : WorkState) (i : WorkInput) (w : Watch) : Watch :=
  match parseCall st i with
  | none => w
  | some c =>
    let out := workParseClientFull x (w.http c.s.serial) c
    { http := fun n => if n = c.s.serial then out.2.2 else w.http n
      log := w.log ++ out.2.1.toList
      moved := w.moved ++
        if out.1.2.s.cliq.pkt = none then c.s.cliq.pkt.toList.map Packet.id else [] }

/-- Every packet moved to an output queue was parsed, and passed the modules when
its head was complete. -/
def Watch.InspectsFirst (w : Watch) : Prop :=
  ∀ p ∈ w.moved, ∃ e ∈ w.log, e.pkt = p ∧ (e.parse ≠ -1 → ∃ r ∈ e.detect, r ≠ RET_FAIL)

/-- The worker with the record. -/
def firewall (x : Inspector) (max nwork : Nat) : Machine (WorkState × Watch) WorkInput :=
  (worker max nwork).observe (Watch.note x) {}

theorem note_log {x : Inspector} {st : WorkState} {i : WorkInput} {w : Watch} (h : w.log = []) :
    (w.note x st i).log = [] := by
  unfold Watch.note
  split
  · exact h
  · next c hc =>
    dsimp only
    rw [workParseClientFull_eq, h]
    rfl

theorem firewall_log {x : Inspector} {max nwork : Nat} {is : List WorkInput} {st : WorkState}
    {w : Watch} (h : (firewall x max nwork).run (firewall x max nwork).init is = some (st, w)) :
    w.log = [] := by
  refine Machine.run_inv' (I := fun s : WorkState × Watch => s.2.log = []) ?_ rfl h
  intro s i s' hs hstep
  obtain ⟨st', -, rfl⟩ := Option.map_eq_some_iff.mp hstep
  exact note_log hs

/-- **No run of a worker inspects anything.** `_work_parse_client` moves the
packet it is called with to the output queue, so that between two events no
connection holds one back, and it never makes its caller free the connection. -/
theorem forwarded_uninspected {x : Inspector} {max nwork : Nat} {is : List WorkInput}
    {st : WorkState} {w : Watch}
    (h : (firewall x max nwork).run (firewall x max nwork).init is = some (st, w)) :
    w.log = [] ∧
    (∀ i c, parseCall st i = some c → ∃ c', workParseClient c = (0, c') ∧
      c'.s.cliq.pkt = none ∧ c'.s.cliq.outq = c.s.cliq.outq ++ c.s.cliq.pkt.toList) ∧
    ∀ id s, st.wi.conn id = some s → s.cliq.pkt = none := by
  refine ⟨firewall_log h, fun i c _ => workParseClient_moves c, ?_⟩
  intro id s hs
  have hrun : workRun max nwork is = some st := Machine.run_observe is h
  exact ((workInv_run hrun).conn id s hs).ok.up.pkt

/-! ## A request goes through -/

/-- A request of one byte, and a server that takes it. -/
def requestRun : List WorkInput :=
  [.addConnection { fd := 5 }, .getConnection [], .sendWait [], .recvWait [⟨5, 0, false⟩],
    .recvEvent { recv := .bytes [97], connect := .done 6, sends := [.accept 1] }]

/-- An inspector that takes every packet for an attack. -/
def alarm : Inspector where
  doHttpParseTest http _ := (0, http)
  moduleDetectEntry _ := RET_FAIL

/-- What is left of a run, for the tests: what the server got, what was moved
and how much was inspected. -/
def requestEnd : Option (Option (List Byte) × List Nat × Nat) :=
  ((firewall alarm 4 1).run (firewall alarm 4 1).init requestRun).map fun s =>
    ((s.1.wi.conn 0).map fun c => c.wire.svrSent, s.2.moved, s.2.log.length)

theorem forwarded_request :
    ∃ st w, (firewall alarm 4 1).run (firewall alarm 4 1).init requestRun = some (st, w) ∧
      w.log = [] := by
  have hsome : requestEnd.isSome := by decide
  obtain ⟨r, hr⟩ := Option.isSome_iff_exists.mp hsome
  obtain ⟨⟨st, w⟩, h, -⟩ := Option.map_eq_some_iff.mp hr
  exact ⟨st, w, h, (forwarded_uninspected h).1⟩

/-- The byte reaches the server although the modules would have failed it. -/
theorem request_uninspected :
    ∃ st w, (firewall alarm 4 1).run (firewall alarm 4 1).init requestRun = some (st, w) ∧
      (st.wi.conn 0).map (fun c => c.wire.svrSent) = some [97] ∧ ¬ w.InspectsFirst := by
  have hend : requestEnd = some (some [97], [0], 0) := by decide
  obtain ⟨⟨st, w⟩, h, heq⟩ := Option.map_eq_some_iff.mp hend
  simp only [Prod.mk.injEq] at heq
  obtain ⟨hsent, hmoved, hlog⟩ := heq
  refine ⟨st, w, h, hsent, ?_⟩
  intro hfirst
  obtain ⟨e, he, -⟩ := hfirst 0 (by rw [hmoved]; exact List.mem_singleton.mpr rfl)
  rw [List.length_eq_zero_iff.mp hlog] at he
  cases he

end WafProxy
