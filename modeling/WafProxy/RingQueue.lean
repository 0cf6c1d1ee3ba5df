import Mathlib.Data.List.Nodup
import Mathlib.Logic.Function.Basic
import WafProxy.Lib.Ring

/-
  Object queues — queue.c

  A `queue_t` has `maxsize` blocks, and keeps its objects in the ring they make.
  `Dequeue` returns no copy: it returns the block itself, which from then on counts
  as free. It is the last of the free ones, and the ring is full with one free
  block left, so `Enqueue` never comes to it before the next `Dequeue`.

  `Enqueue` and `Dequeue` hold the lock around all they do, so that a call is one
  step. The `int`s are natural numbers: `rear + 1` is at most `maxsize`.

  What is proved:
    1. `createqueue_holds` — a new queue is empty.
    2. `enqueue_full`, `enqueue_room`, `dequeue_nil`, `dequeue_cons` — what each call does to the list.
    3. `run_holds` — over every run.
    4. `ring_queue_fifo` — a queue of `m` blocks is a bounded queue of `m - 1` objects,
       and the block last handed out holds what it held.

  Correspondence (C ↔ Lean):
    `queue_t`        ↔ `Queue`
    `Createqueue`    ↔ `createqueue`
    `Fullqueue`      ↔ `Queue.fullqueue`
    `Emptyqueue`     ↔ `Queue.emptyqueue`
    `Enqueue`        ↔ `QueueHeap.enqueue`
    `Dequeue`        ↔ `QueueHeap.dequeue`
-/

namespace WafProxy
open Lib Lib.Ring Function

/-! ## The functions -/

/-- `queue_t`, the blocks being known by their addresses. -/
structure Queue (P : Type) where
  pBase : List P
  front : Nat
  rear : Nat
  maxsize : Nat
  objsize : Nat
  deriving DecidableEq, Repr

/-- A queue, and what is at each address. -/
structure QueueHeap (P β : Type) where
  queue : Queue P
  block : P → List β

/-- The blocks, one call of `malloc` each; `none` when one fails and the program exits. -/
def mallocBlocks {P : Type} (malloc : Nat → Option P) : Nat → Option (List P)
  | 0 => some []
  | i + 1 => (mallocBlocks malloc i).bind fun pBase => (malloc (i + 1)).map fun p => pBase ++ [p]

/-- `Createqueue`, given what `malloc` returns to its calls, the first being the one for `pBase`. -/
def createqueue {P β : Type} (malloc : Nat → Option P) (block : P → List β) (max size : Nat) :
    Option (QueueHeap P β) :=
  (malloc 0).bind fun _ => (mallocBlocks malloc max).map fun pBase =>
    { queue := { pBase := pBase, front := 0, rear := 0, maxsize := max, objsize := size }, block := block }

namespace Queue
variable {P : Type}

def fullqueue (q : Queue P) : Bool := q.front = (q.rear + 1) % q.maxsize

def emptyqueue (q : Queue P) : Bool := q.front = q.rear

end Queue

namespace QueueHeap
variable {P β : Type}

/-- `Enqueue` of the object whose bytes are `val`; `none` when `rear` is no block. -/
def enqueue [DecidableEq P] (s : QueueHeap P β) (val : Nat → β) : Option (Int × QueueHeap P β) :=
  if s.queue.fullqueue then some (-1, s)
  else s.queue.pBase[s.queue.rear]?.map fun p =>
    (0, { queue := { s.queue with rear := (s.queue.rear + 1) % s.queue.maxsize }
          block := update s.block p ((List.range s.queue.objsize).map val) })

/-- `Dequeue`; `none` when `front` is no block. -/
def dequeue (s : QueueHeap P β) : Option (Option P × QueueHeap P β) :=
  if s.queue.emptyqueue then some (none, s)
  else s.queue.pBase[s.queue.front]?.map fun val =>
    (some val, { s with queue := { s.queue with front := (s.queue.front + 1) % s.queue.maxsize } })

/-! ## Runs -/

/-- A call, with the bytes of the object that `Enqueue` is given. -/
inductive Call (β : Type) where
  | enqueue (val : Nat → β)
  | dequeue

/-- What a call returns; with a block, also what is in it then. -/
inductive Answer (P β : Type) where
  | code (r : Int)
  | object (o : Option (P × List β))

/-- One call. -/
def step [DecidableEq P] (s : QueueHeap P β) : Call β → Option (Answer P β × QueueHeap P β)
  | .enqueue val => (s.enqueue val).map fun r => (.code r.1, r.2)
  | .dequeue => s.dequeue.map fun r => (.object (r.1.map fun p => (p, r.2.block p)), r.2)

def run [DecidableEq P] (s : QueueHeap P β) : List (Call β) → Option (List (Answer P β) × QueueHeap P β)
  | [] => some ([], s)
  | op :: ops => (s.step op).bind fun r => (r.2.run ops).map fun rs => (r.1 :: rs.1, rs.2)

/-- The call on a bounded queue of objects. -/
def Call.plain (size : Nat) : Call β → Fifo.Op (List β)
  | .enqueue val => .put ((List.range size).map val)
  | .dequeue => .take

/-- The answer without the block. -/
def Answer.plain : Answer P β → Fifo.Result (List β)
  | .code r => .stored (r = 0)
  | .object o => .taken (o.map Prod.snd)

/-- The block last handed out, and what was in it then. -/
def lastGiven : Option (P × List β) → List (Answer P β) → Option (P × List β)
  | given, [] => given
  | _, .object (some o) :: answers => lastGiven (some o) answers
  | given, .object none :: answers => lastGiven given answers
  | given, .code _ :: answers => lastGiven given answers

/-- What is in the block of a place in the ring. -/
def slot (s : QueueHeap P β) (i : Nat) : Option (List β) := s.queue.pBase[i]?.map s.block

/-- The queue holds the objects `l`, and the block last handed out is the last of
the free ones. -/
structure Holds (s : QueueHeap P β) (m size : Nat) (l : List (List β)) (given : Option (P × List β)) : Prop where
  blocks : s.queue.pBase.length = m
  distinct : s.queue.pBase.Nodup
  maxsize : s.queue.maxsize = m
  objsize : s.queue.objsize = size
  front_lt : s.queue.front < m
  rear_eq : s.queue.rear = index m s.queue.front l.length
  room : l.length < m
  objects : window s.slot m s.queue.front l.length = l.map some
  given : ∀ p x, given = some (p, x) →
    s.queue.pBase[index m s.queue.front (m - 1)]? = some p ∧ s.block p = x

section
variable {s : QueueHeap P β} {m size : Nat} {l : List (List β)} {x : List β} {given : Option (P × List β)}

/-! ## The tests -/

theorem Holds.fullqueue (h : Holds s m size l given) : s.queue.fullqueue = true ↔ l.length + 1 = m := by
  unfold Queue.fullqueue
  rw [decide_eq_true_eq, h.maxsize, h.rear_eq, eq_comm]
  have hnext : (index m s.queue.front l.length + 1) % m = index m s.queue.front (l.length + 1) := index_index
  rw [hnext, index_succ_eq_self h.front_lt h.room]

theorem Holds.emptyqueue (h : Holds s m size l given) : s.queue.emptyqueue = true ↔ l = [] := by
  unfold Queue.emptyqueue
  rw [decide_eq_true_eq, h.rear_eq, eq_comm, index_eq_self h.front_lt h.room, List.length_eq_zero_iff]

/-- Every place of the ring has its block. -/
theorem Holds.block (h : Holds s m size l given) (i : Nat) :
    ∃ p, s.queue.pBase[index m s.queue.front i]? = some p := by
  have hlt : index m s.queue.front i < s.queue.pBase.length := by
    rw [h.blocks]
    exact index_lt (Nat.lt_of_le_of_lt (Nat.zero_le _) h.front_lt)
  exact ⟨_, List.getElem?_eq_getElem hlt⟩

/-- Two places of the ring have two blocks. -/
theorem Holds.block_ne (h : Holds s m size l given) {i j : Nat} {p q : P} (hi : i < m) (hj : j < m) (hij : i ≠ j)
    (hp : s.queue.pBase[index m s.queue.front i]? = some p)
    (hq : s.queue.pBase[index m s.queue.front j]? = some q) : p ≠ q := by
  intro heq
  have hlt : index m s.queue.front i < s.queue.pBase.length := by
    rw [h.blocks]
    exact index_lt (Nat.lt_of_le_of_lt (Nat.zero_le _) hi)
  apply hij
  apply index_inj hi hj
  apply (List.getElem?_inj hlt h.distinct).mp
  rw [hp, hq, heq]

/-! ## Each call -/

/-- **A full queue** refuses an object and stays as it is. -/
theorem enqueue_full [DecidableEq P] (h : Holds s m size l given) (hfull : l.length + 1 = m) (val : Nat → β) :
    s.enqueue val = some (-1, s) :=
  if_pos (h.fullqueue.mpr hfull)

/-- **An object is stored** behind the others, in a block that was not handed out. -/
theorem enqueue_room [DecidableEq P] (h : Holds s m size l given) (hroom : l.length + 1 ≠ m) (val : Nat → β) :
    ∃ s', s.enqueue val = some (0, s') ∧ Holds s' m size (l ++ [(List.range size).map val]) given := by
  have hlt : l.length < m - 1 := by
    have := h.room
    omega
  obtain ⟨p, hp⟩ := h.block l.length
  have hrear : s.queue.pBase[s.queue.rear]? = some p := by rw [h.rear_eq, hp]
  have hfull : ¬ s.queue.fullqueue = true := fun hyes => hroom (h.fullqueue.mp hyes)
  unfold enqueue
  rw [if_neg hfull, hrear, h.objsize]
  refine ⟨_, rfl, ⟨h.blocks, h.distinct, h.maxsize, h.objsize, h.front_lt, ?_, ?_, ?_, ?_⟩⟩
  · show (s.queue.rear + 1) % s.queue.maxsize = _
    rw [h.maxsize, h.rear_eq, List.length_append]
    exact index_index
  · rw [List.length_append]
    exact Nat.add_lt_of_lt_sub hlt
  · -- the block at the end is the new object, the ones before it are other blocks
    rw [List.length_append, List.map_append, ← h.objects]
    show window _ m s.queue.front (l.length + 1) = _
    rw [window_concat]
    congr 1
    · apply window_congr
      intro i hi
      obtain ⟨q, hq⟩ := h.block i
      have hne : q ≠ p := h.block_ne (Nat.lt_trans hi h.room) h.room (Nat.ne_of_lt hi) hq hp
      simp [slot, hq, update_of_ne hne]
    · simp [slot, hp]
  · -- the block handed out is the last free one, and this is not the last
    intro q y hgiven
    obtain ⟨hq, hy⟩ := h.given q y hgiven
    have hne : q ≠ p := h.block_ne (Nat.sub_one_lt (Nat.ne_zero_of_lt h.room)) h.room (Nat.ne_of_gt hlt) hq hp
    exact ⟨hq, by rw [← hy]; exact update_of_ne hne _ _⟩

/-- **An empty queue** has nothing to return. -/
theorem dequeue_nil (h : Holds s m size [] given) : s.dequeue = some (none, s) :=
  if_pos (h.emptyqueue.mpr rfl)

/-- **The first object is handed out**, and its block is the last free one. -/
theorem dequeue_cons (h : Holds s m size (x :: l) given) :
    ∃ p s', s.dequeue = some (some p, s') ∧ s'.block p = x ∧ Holds s' m size l (some (p, x)) := by
  have hm : 0 < m := Nat.lt_of_le_of_lt (Nat.zero_le _) h.front_lt
  obtain ⟨p, hp⟩ := h.block 0
  rw [index_zero h.front_lt] at hp
  have hempty : ¬ s.queue.emptyqueue = true := fun hyes => absurd (h.emptyqueue.mp hyes) (List.cons_ne_nil x l)
  have hobjects := h.objects
  rw [List.length_cons, window_cons h.front_lt, List.map_cons] at hobjects
  obtain ⟨hfirst, hrest⟩ := List.cons.inj hobjects
  have hx : s.block p = x := by
    unfold slot at hfirst
    rw [hp] at hfirst
    exact Option.some.inj hfirst
  have hfront : (s.queue.front + 1) % s.queue.maxsize = index m s.queue.front 1 := by rw [h.maxsize]; rfl
  unfold dequeue
  rw [if_neg hempty, hp, hfront]
  refine ⟨p, _, rfl, hx, ⟨h.blocks, h.distinct, h.maxsize, h.objsize, index_lt hm, ?_, ?_, hrest, ?_⟩⟩
  · show s.queue.rear = index m (index m s.queue.front 1) l.length
    rw [index_index, h.rear_eq, List.length_cons, Nat.add_comm]
  · exact Nat.lt_trans (Nat.lt_succ_self l.length) h.room
  · intro q y hgiven
    obtain ⟨rfl, rfl⟩ := Prod.mk.inj (Option.some.inj hgiven)
    refine ⟨?_, hx⟩
    show s.queue.pBase[index m (index m s.queue.front 1) (m - 1)]? = some p
    rw [index_index, Nat.add_sub_cancel' hm, index_size h.front_lt, hp]

/-- `Enqueue` fails exactly on a full queue. -/
theorem enqueue_fails_iff [DecidableEq P] (h : Holds s m size l given) (val : Nat → β) :
    s.enqueue val = some (-1, s) ↔ l.length = m - 1 := by
  have hroom := h.room
  by_cases hfull : l.length + 1 = m
  · exact iff_of_true (enqueue_full h hfull val) (Nat.eq_sub_of_add_eq hfull)
  · obtain ⟨s', hok, -⟩ := enqueue_room h hfull val
    rw [hok]
    exact iff_of_false (fun hfail => by cases hfail) (fun hlen => hfull (by omega))

/-- `Dequeue` returns null exactly on an empty queue. -/
theorem dequeue_null_iff (h : Holds s m size l given) : s.dequeue = some (none, s) ↔ l = [] := by
  cases l with
  | nil => exact iff_of_true (dequeue_nil h) rfl
  | cons x l =>
    obtain ⟨p, s', hok, -⟩ := dequeue_cons h
    rw [hok]
    exact iff_of_false (fun hnull => by cases hnull) (List.cons_ne_nil x l)

/-! ## Runs of calls -/

/-- **One call.** -/
theorem step_holds [DecidableEq P] (h : Holds s m size l given) (op : Call β) :
    ∃ a s', s.step op = some (a, s') ∧ a.plain = (Fifo.step (m - 1) l (op.plain size)).1 ∧
      Holds s' m size (Fifo.step (m - 1) l (op.plain size)).2 (lastGiven given [a]) := by
  have hm : 0 < m := Nat.lt_of_le_of_lt (Nat.zero_le _) h.front_lt
  cases op with
  | enqueue val =>
    by_cases hfull : l.length + 1 = m
    · have hspec := Fifo.step_full (Nat.eq_sub_of_add_eq hfull) ((List.range size).map val)
      rw [Call.plain, hspec, step, enqueue_full h hfull]
      exact ⟨_, s, rfl, rfl, h⟩
    · have hlen : l.length ≠ m - 1 := fun heq => hfull (by omega)
      have hspec := Fifo.step_room hlen ((List.range size).map val)
      obtain ⟨s', hs', h'⟩ := enqueue_room h hfull val
      rw [Call.plain, hspec, step, hs']
      exact ⟨_, s', rfl, rfl, h'⟩
  | dequeue =>
    rw [Call.plain, Fifo.step_take, step]
    cases l with
    | nil =>
      rw [dequeue_nil h]
      exact ⟨_, s, rfl, rfl, h⟩
    | cons x l =>
      obtain ⟨p, s', hs', hx, h'⟩ := dequeue_cons h
      rw [hs']
      refine ⟨_, s', rfl, ?_, ?_⟩
      · show Fifo.Result.taken (some (s'.block p)) = _
        rw [hx]
        rfl
      · show Holds s' m size l (some (p, s'.block p))
        rw [hx]
        exact h'

theorem lastGiven_append (answers answers' : List (Answer P β)) : ∀ given,
    lastGiven given (answers ++ answers') = lastGiven (lastGiven given answers) answers' := by
  induction answers with
  | nil => exact fun _ => rfl
  | cons a answers ih =>
    intro given
    match a with
    | .code _ => exact ih given
    | .object none => exact ih given
    | .object (some o) => exact ih (some o)

/-- **Every run.** -/
theorem run_holds [DecidableEq P] (ops : List (Call β)) (h : Holds s m size l given) :
    ∃ answers s', s.run ops = some (answers, s') ∧
      answers.map Answer.plain = Fifo.results (m - 1) l (ops.map (Call.plain size)) ∧
      Holds s' m size (Fifo.behind (m - 1) l (ops.map (Call.plain size))) (lastGiven given answers) := by
  induction ops generalizing s l given with
  | nil => exact ⟨[], s, rfl, rfl, h⟩
  | cons op ops ih =>
    obtain ⟨a, s₁, hstep, ha, h₁⟩ := step_holds h op
    obtain ⟨answers, s', hrun, hanswers, h'⟩ := ih h₁
    refine ⟨a :: answers, s', ?_, ?_, ?_⟩
    · rw [run, hstep, Option.bind_some, hrun]
      rfl
    · rw [List.map_cons, ha, hanswers]
      rfl
    · rw [← lastGiven_append] at h'
      exact h'

end

/-! ## New queues -/

section
variable {malloc : Nat → Option P} {block : P → List β} {m size : Nat}

theorem mallocBlocks_spec : ∀ {k : Nat} {pBase : List P}, mallocBlocks malloc k = some pBase →
    pBase.length = k ∧ ∀ i, i < k → pBase[i]? = malloc (i + 1) := by
  intro k
  induction k with
  | zero =>
    intro pBase h
    rw [← Option.some.inj h]
    exact ⟨rfl, fun i hi => absurd hi (Nat.not_lt_zero i)⟩
  | succ k ih =>
    intro pBase h
    obtain ⟨front, hfront, hmap⟩ := Option.bind_eq_some_iff.mp h
    obtain ⟨p, hp, rfl⟩ := Option.map_eq_some_iff.mp hmap
    obtain ⟨hlen, hget⟩ := ih hfront
    refine ⟨by rw [List.length_append, hlen]; rfl, fun i hi => ?_⟩
    rcases Nat.lt_succ_iff_lt_or_eq.mp hi with hlt | rfl
    · rw [List.getElem?_append_left (by rw [hlen]; exact hlt), hget i hlt]
    · rw [← hlen, List.getElem?_concat_length, hlen, hp]

/-- **A new queue is empty.** -/
theorem createqueue_holds (hdistinct : ∀ i j p, malloc i = some p → malloc j = some p → i = j) (hm : 0 < m)
    {s : QueueHeap P β} (h : createqueue malloc block m size = some s) : Holds s m size [] none := by
  obtain ⟨_, -, hmap⟩ := Option.bind_eq_some_iff.mp h
  obtain ⟨pBase, hblocks, rfl⟩ := Option.map_eq_some_iff.mp hmap
  obtain ⟨hlen, hget⟩ := mallocBlocks_spec hblocks
  have hnodup : pBase.Nodup := by
    apply List.nodup_iff_getElem?_ne_getElem?.mpr
    intro i j hij hj heq
    rw [hlen] at hj
    rw [hget i (Nat.lt_trans hij hj), hget j hj] at heq
    obtain ⟨p, hp⟩ : ∃ p, malloc (j + 1) = some p := by
      rw [← hget j hj]
      exact ⟨_, List.getElem?_eq_getElem (by rw [hlen]; exact hj)⟩
    exact Nat.ne_of_lt hij (Nat.succ.inj (hdistinct _ _ p (heq.trans hp) hp))
  exact ⟨hlen, hnodup, rfl, rfl, hm, (index_zero hm).symm, hm, rfl, fun _ _ hnone => by cases hnone⟩

/-- **A ring queue** of `m` blocks is a bounded queue of `m - 1` objects: after every
run, `Enqueue` fails exactly when there are `m - 1` and then changes nothing,
`Dequeue` returns null exactly when there are none, and the block last handed out
holds what it held. -/
theorem ring_queue_fifo [DecidableEq P]
    (hdistinct : ∀ i j p, malloc i = some p → malloc j = some p → i = j) (hm : 2 ≤ m)
    {s₀ : QueueHeap P β} (h : createqueue malloc block m size = some s₀) (ops : List (Call β)) :
    let objects := Fifo.behind (m - 1) [] (ops.map (Call.plain size))
    ∃ answers s, s₀.run ops = some (answers, s) ∧
      answers.map Answer.plain = Fifo.results (m - 1) [] (ops.map (Call.plain size)) ∧
      (∀ val, s.enqueue val = some (-1, s) ↔ objects.length = m - 1) ∧
      (s.dequeue = some (none, s) ↔ objects = []) ∧
      ∀ p x, lastGiven none answers = some (p, x) → s.block p = x := by
  obtain ⟨answers, s, hrun, hanswers, hs⟩ := run_holds ops (createqueue_holds hdistinct (by omega) h)
  exact ⟨answers, s, hrun, hanswers, enqueue_fails_iff hs, dequeue_null_iff hs,
    fun p x hgiven => (hs.given p x hgiven).2⟩

/-- A new queue of two blocks for objects of one byte. -/
def twoBlocks : QueueHeap Nat Nat where
  queue := { pBase := [1, 2], front := 0, rear := 0, maxsize := 2, objsize := 1 }
  block := fun _ => []

/-- An object is handed out, and another one goes into the other block. -/
theorem ring_queue_fifo_two : ∃ answers s,
    twoBlocks.run [.enqueue fun _ => 7, .dequeue, .enqueue fun _ => 8] = some (answers, s) ∧
      answers.map Answer.plain = [.stored true, .taken (some [7]), .stored true] ∧
      (∀ val, s.enqueue val = some (-1, s) ↔ [[8]].length = 1) ∧ (s.dequeue = some (none, s) ↔ [[8]] = []) ∧
      ∀ p x, lastGiven none answers = some (p, x) → s.block p = x :=
  ring_queue_fifo (fun _ _ _ hi hj => Option.some.inj (hi.trans hj.symm))
    (show 2 ≤ 2 from Nat.le_refl 2) (show createqueue some (fun _ => []) 2 1 = some twoBlocks from rfl)
    [.enqueue fun _ => 7, .dequeue, .enqueue fun _ => 8]

end

end QueueHeap
end WafProxy
