import WafProxy.EveryConnection

/-
  Packet ownership — `nalloced`, the pool, and what a freed connection leaves

  The invariant counts the leaked packets apart (`WorkInv.pkts`). Packets leak
  in one place only: the `if (s->is_…block) break;` of the two senders, when a
  side that is blocked takes its packet in part once more. So in a run without
  such a retry (`NoShortRetry`) every packet taken from the pool is given back
  once or owned by one connection (`ownership_run`), and `leakRun` shows what
  one short retry does.
-/

namespace WafProxy
open Lib

/-- The next event of the batch and the connection it is for. -/
def WorkState.next (st : WorkState) : Option (Event × Connection) :=
  match st.batch with
  | [] => none
  | e :: _ => (st.wi.conn e.id).map fun s => (e, s)

theorem WorkState.next_eq {st : WorkState} {e : Event} {es : List Event} {s : Connection}
    (hb : st.batch = e :: es) (hs : st.wi.conn e.id = some s) : st.next = some (e, s) := by
  simp [WorkState.next, hb, hs]

/-- What the step does for a connection of a send event meets `P`. -/
def WorkState.OnSend (st : WorkState) (i : WorkInput) (P : Answers → Event → Connection → Prop) :
    Prop :=
  match i with
  | .sendEvent a => ∀ p ∈ st.next, P a p.1 p.2
  | _ => True

/-- The same for a receive event. -/
def WorkState.OnRecv (st : WorkState) (i : WorkInput) (P : Answers → Event → Connection → Prop) :
    Prop :=
  match i with
  | .recvEvent a => ∀ p ∈ st.next, P a p.1 p.2
  | _ => True

section
variable (st : WorkState) (i : WorkInput) (P : Answers → Event → Connection → Prop)
  [∀ a e s, Decidable (P a e s)]

instance : Decidable (st.OnSend i P) :=
  match i with
  | .sendEvent a => inferInstanceAs (Decidable (∀ p ∈ st.next, P a p.1 p.2))
  | .addConnection _ | .getConnection _ | .sendWait _ | .recvWait _ | .recvEvent _ => .isTrue trivial

instance : Decidable (st.OnRecv i P) :=
  match i with
  | .recvEvent a => inferInstanceAs (Decidable (∀ p ∈ st.next, P a p.1 p.2))
  | .addConnection _ | .getConnection _ | .sendWait _ | .recvWait _ | .sendEvent _ => .isTrue trivial

end

/-- No send event finds a blocked side ready for a part of its packet only. -/
def NoShortRetry (st : WorkState) (i : WorkInput) : Prop :=
  st.OnSend i fun a e s => ¬ RetryShortServer a e s ∧ ¬ RetryShortClient a e s

instance (st : WorkState) (i : WorkInput) : Decidable (NoShortRetry st i) :=
  inferInstanceAs (Decidable (st.OnSend i _))

/-- No packet was leaked, by a live connection or by one freed, and none was
left when a connection was freed. -/
theorem noLeak_rule : StepRule NoShortRetry (fun s => s.leaked = [])
    (fun f => f.conn.leaked = [] ∧ f.left = 0) where
  new _ _ _ := rfl
  refused _ _ := ⟨rfl, rfl⟩
  sendKept _ _ _ _ _ _ hc hb hs hk hp := by
    have hno := hc _ (WorkState.next_eq hb hs)
    exact hk.leaks.none hno.1 hno.2 hp
  sendFreed _ _ _ _ _ _ _ hc hb hs hbad hd hp := by
    have hno := hc _ (WorkState.next_eq hb hs)
    exact hd.left_zero (hd.leaks.none hno.1 hno.2 hp)
  recvKept _ _ _ _ _ _ hc hb hs hk hp := hk.leaks.none id id hp
  recvFreed _ _ _ _ _ _ _ hc hb hs hbad hd hp := hd.left_zero (hd.leaks.none id id hp)

/-! ## The property -/

/-- `nalloced` counts the packets of every live connection, every packet taken
from the pool is given back once or owned by one live connection, and each
connection freed so far was left with `nalloced` 0. -/
structure Ownership (st : WorkState) : Prop where
  nalloced : ∀ id s, st.wi.conn id = some s → s.nalloced = s.owned.length
  packets : Multiset.range st.wi.nextPkt =
    ↑st.wi.puts + st.wi.sesstbl.total fun s => ids s.owned
  left : ∀ f ∈ st.wi.freed, f.left = 0

theorem held_eq_owned {s : Connection} (h : s.leaked = []) : s.held = s.owned := by
  rw [Connection.held, h, List.append_nil]

theorem lost_eq_zero {wi : Work} (h : ∀ f ∈ wi.freed, f.conn.leaked = []) : wi.lost = 0 := by
  unfold Work.lost
  refine List.sum_eq_zero fun m hm => ?_
  obtain ⟨f, hf, rfl⟩ := List.mem_map.mp hm
  rw [h f hf, ids_nil]

/-- **A run without a short retry keeps every packet owned.** -/
theorem ownership_run {max nwork : Nat} {is : List WorkInput} {st : WorkState}
    (hm : (worker max nwork).Meets NoShortRetry (worker max nwork).init is)
    (h : workRun max nwork is = some st) : Ownership st := by
  have hinv := workInv_run h
  have hno := noLeak_rule.run hm h
  refine ⟨fun id s hs => ?_, ?_, fun f hf => (hno.freed f hf).2⟩
  · rw [(hinv.conn id s hs).nalloced, held_eq_owned (hno.live id s hs)]
  · rw [hinv.pkts, lost_eq_zero fun f hf => (hno.freed f hf).1, add_zero,
      ConnectionTable.total_congr fun id s hs => congrArg ids (held_eq_owned (hno.live id s hs))]

/-- One client sends three bytes; the server takes one of them, and one of the
two left when it is writable again. -/
def shortRetryRun : List WorkInput :=
  [.addConnection { fd := 5 }, .getConnection [], .sendWait [], .recvWait [⟨5, 0, false⟩],
    .recvEvent { recv := .bytes [97, 98, 99], connect := .done 6, sends := [.accept 1] },
    .getConnection [], .sendWait [⟨6, 0, false⟩], .sendEvent { sends := [.accept 1] }]

/-- The same, with the rest of the packet taken at once. -/
def retryRun : List WorkInput :=
  [.addConnection { fd := 5 }, .getConnection [], .sendWait [], .recvWait [⟨5, 0, false⟩],
    .recvEvent { recv := .bytes [97, 98, 99], connect := .done 6, sends := [.accept 1] },
    .getConnection [], .sendWait [⟨6, 0, false⟩], .sendEvent { sends := [.accept 2] }]

theorem ownership_retryRun : ∃ st, workRun 4 1 retryRun = some st ∧ Ownership st := by
  have hm : (worker 4 1).Meets NoShortRetry (worker 4 1).init retryRun := by decide
  obtain ⟨st, h⟩ := Option.isSome_iff_exists.mp (show (workRun 4 1 retryRun).isSome by decide)
  exact ⟨st, h, ownership_run hm h⟩

/-- One packet is out and none is owned after the short retry. -/
theorem shortRetryRun_leaks : ∃ st, workRun 4 1 shortRetryRun = some st ∧ ¬ Ownership st := by
  have hend : (workRun 4 1 shortRetryRun).map (fun st => (st.wi.conn 0).map fun s =>
      (s.nalloced, s.owned.length)) = some (some (1, 0)) := by decide
  obtain ⟨st, h, hst⟩ := Option.map_eq_some_iff.mp hend
  obtain ⟨s, hs, hn⟩ := Option.map_eq_some_iff.mp hst
  simp only [Prod.mk.injEq] at hn
  refine ⟨st, h, fun hown => ?_⟩
  have := hown.nalloced 0 s hs
  omega

end WafProxy
