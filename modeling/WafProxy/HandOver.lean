import Mathlib.Algebra.Group.Nat.Defs
import Mathlib.Algebra.Group.Int.Defs
import Mathlib.Data.List.Forall2
import WafProxy.Lib.Machine
import WafProxy.Worker

/-
  The hand-over from the accept thread to a worker — work2.c, the two queues

  `work_add_connection` writes a client into the next slot of `inq`;
  `_work_get_connection` copies the `ninq` slots in use to `inq2` and empties
  `inq`, both under `wi->lock`, and then goes through `inq2`, which nobody else
  touches. `Worker` has the queue as a list; here are the two blocks of memory
  it is made of, with the sizes `_work_init` asked `malloc` for.

  What is proved:
    1. `add_refines`, `get_refines` — the slots in use are the list `Worker` has.
    2. `HandOver.Inv.step` — the clients added are those taken, followed by those
       in the worker's batch and those in `inq`, in this order.
    3. `handOver_run` — no run writes beyond a block and takes every client as
       it was added exactly when every fetch fits into `inq2` and every client
       taken has a positive descriptor.

  Correspondence (C ↔ Lean):
    `wi->inq`, `wi->inq2`          ↔ `Block`s of `workfd_t` slots
    `_work_init`, the queues       ↔ `workInitQueues`
    `work_add_connection`          ↔ `Queues.workAddConnection`
    `_work_get_connection`: locked ↔ `Queues.workGetConnection`
    `_work_get_connection`: loop   ↔ the input `take`

  `inq2` is allocated as an array of pointers. Behind its end a copy writes to
  memory that belongs to others; the model only notes how far it went (`reach`).
-/

namespace WafProxy
open Lib

/-- `sizeof(workfd_t)`: `fd` and `is_ssl` 4 bytes each, `addr` 20, `port` 2, padded to 32. -/
def SIZEOF_WORKFD : Nat := 32

/-- `sizeof(workfd_t *)`. -/
def SIZEOF_WORKFD_PTR : Nat := 8

/-- A `workfd_t` after `memset(.., 0, ..)`. -/
def WorkFd.zero : WorkFd where
  fd := 0

/-- Memory from `malloc`, its size in bytes, as `workfd_t` slots; `reach` is how
far the writes so far have gone. -/
structure Block where
  size : Nat
  slots : Nat → WorkFd := fun _ => WorkFd.zero
  reach : Nat := 0

/-- A block nothing was written beyond. -/
def Block.Kept (b : Block) : Prop := b.reach ≤ b.size

def Block.write (b : Block) (i : Nat) (wfd : WorkFd) : Block :=
  { b with
    slots := fun j => if j = i then wfd else b.slots j
    reach := Nat.max b.reach (SIZEOF_WORKFD * (i + 1)) }

/-- `memcpy(b, .., n * sizeof(workfd_t))`. -/
def Block.copy (b from_ : Block) (n : Nat) : Block :=
  { b with
    slots := fun j => if j < n then from_.slots j else b.slots j
    reach := Nat.max b.reach (SIZEOF_WORKFD * n) }

/-- `memset(b, 0, n * sizeof(workfd_t))`. -/
def Block.clear (b : Block) (n : Nat) : Block :=
  { b with
    slots := fun j => if j < n then WorkFd.zero else b.slots j
    reach := Nat.max b.reach (SIZEOF_WORKFD * n) }

/-- The slots `i .. n-1`. -/
def Block.range (b : Block) (i n : Nat) : List WorkFd := (List.range' i (n - i)).map b.slots

/-- The queue part of `work_t`. -/
structure Queues where
  inq : Block
  inq2 : Block
  ninq : Int32
  max : Int32

/-- The bytes `malloc(size * maxfds)` asks for: `maxfds` is converted to `size_t`. -/
def mallocSize (size : UInt64) (maxfds : Int32) : Nat := (size * maxfds.toInt64.toUInt64).toNat

/-- `_work_init` with `g_cfg.max` and `g_cfg.nwork`, up to the queues, when no
`malloc` fails; a division by 0 ends the process. -/
def workInitQueues (gmax : UInt32) (nwork : Int32) : Option Queues :=
  if nwork = 0 then none
  else
    let maxfds : Int32 := (gmax / nwork.toUInt32 + 1).toInt32
    some {
      inq := { size := mallocSize (UInt64.ofNat SIZEOF_WORKFD) maxfds }
      inq2 := { size := mallocSize (UInt64.ofNat SIZEOF_WORKFD_PTR) maxfds }
      ninq := 0
      max := maxfds }

/-- `work_add_connection` for a worker that runs. -/
def Queues.workAddConnection (q : Queues) (wfd : WorkFd) : Int × Queues :=
  if q.max < 1 ∨ q.ninq < 0 ∨ q.max ≤ q.ninq then (-1, q)
  else (0, { q with inq := q.inq.write q.ninq.toNatClampNeg wfd, ninq := q.ninq + 1 })

/-- The locked part of `_work_get_connection`: the local `ninq` and the queues. -/
def Queues.workGetConnection (q : Queues) : Int32 × Queues :=
  if 0 < q.ninq then
    let n := q.ninq.toNatClampNeg
    (q.ninq, { q with inq := q.inq.clear n, inq2 := q.inq2.copy q.inq n, ninq := 0 })
  else (q.ninq, q)

/-- What became of a client the worker took. -/
inductive Taken where
  | attached (clifd : Nat) (cliaddr : IpAddr) (cliport : UInt16)
  | closed (fd : Nat)
  deriving DecidableEq, Repr

/-- The rest of a turn of the loop of `_work_get_connection` for the client in `wfd`. -/
def takeWorkFd (a : TakeAnswers) (wfd : WorkFd) : Taken :=
  if a.ssn ∧ a.add then .attached wfd.fd wfd.addr wfd.port else .closed wfd.fd

/-- The queues, the worker's place in its loop (`i` of `n`), and bookkeeping:
the clients `work_add_connection` returned 0 for and those taken. -/
structure HandOver where
  q : Queues
  i : Nat := 0
  n : Nat := 0
  aborted : Bool := false
  added : List WorkFd := []
  taken : List Taken := []

inductive HandOverInput where
  | add (wfd : WorkFd)
  | get
  | take (a : TakeAnswers)
  deriving DecidableEq, Repr

def handOverStep (st : HandOver) : HandOverInput → Option HandOver
  | .add wfd =>
    if st.aborted then none
    else match st.q.workAddConnection wfd with
      | (r, q) => some { st with q := q, added := if r = 0 then st.added ++ [wfd] else st.added }
  | .get =>
    if st.aborted ∨ st.i < st.n then none
    else match st.q.workGetConnection with
      | (n, q) => some { st with q := q, i := 0, n := n.toNatClampNeg }
  | .take a =>
    if st.aborted ∨ st.n ≤ st.i then none
    -- `assert(wfd->fd > 0)`
    else if (st.q.inq2.slots st.i).fd = 0 then some { st with aborted := true }
    else some { st with
      i := st.i + 1
      taken := st.taken ++ [takeWorkFd a (st.q.inq2.slots st.i)] }

/-- The accept thread and one worker. -/
def handOver (q : Queues) : Machine HandOver HandOverInput where
  init := { q := q }
  step := handOverStep

/-- The clients waiting in `inq`, and those of the batch still to go through. -/
def HandOver.waiting (st : HandOver) : List WorkFd := st.q.inq.range 0 st.q.ninq.toNatClampNeg
def HandOver.batch (st : HandOver) : List WorkFd := st.q.inq2.range st.i st.n

/-! ## The slots in use -/

@[simp] theorem Block.range_self (b : Block) (n : Nat) : b.range n n = [] := by
  simp [Block.range]

theorem Block.range_past (b : Block) {i n : Nat} (h : n ≤ i) : b.range i n = [] := by
  rw [Block.range, Nat.sub_eq_zero_of_le h]
  rfl

theorem Block.range_cons (b : Block) {i n : Nat} (h : i < n) :
    b.range i n = b.slots i :: b.range (i + 1) n := by
  rw [Block.range, show n - i = n - (i + 1) + 1 by omega, List.range'_succ, List.map_cons, Block.range]

theorem Block.range_congr {b c : Block} {n : Nat} (h : ∀ j, j < n → b.slots j = c.slots j) :
    b.range 0 n = c.range 0 n := by
  apply List.map_congr_left
  intro j hj
  have hlt := (List.mem_range'_1.mp hj).2
  exact h j (by omega)

theorem Block.range_write (b : Block) (n : Nat) (wfd : WorkFd) :
    (b.write n wfd).range 0 (n + 1) = b.range 0 n ++ [wfd] := by
  have hold : (b.write n wfd).range 0 n = b.range 0 n :=
    Block.range_congr fun j hj => if_neg (by omega)
  rw [← hold, Block.range, Block.range, Nat.sub_zero, Nat.sub_zero, List.range'_1_concat,
    List.map_append, List.map_singleton]
  simp [Block.write]

theorem Block.range_copy (b c : Block) (n : Nat) : (b.copy c n).range 0 n = c.range 0 n :=
  Block.range_congr fun _ hj => if_pos hj

/-! ## The queues between two calls -/

/-- `wi->ninq` and `wi->max` as numbers of slots. -/
def Queues.used (q : Queues) : Nat := q.ninq.toNatClampNeg
def Queues.cap (q : Queues) : Nat := q.max.toNatClampNeg

structure Queues.Inv (q : Queues) : Prop where
  ninq : 0 ≤ q.ninq
  used : q.used ≤ q.cap
  size : SIZEOF_WORKFD * q.cap ≤ q.inq.size
  size2 : 0 < q.cap → q.inq2.size = SIZEOF_WORKFD_PTR * q.cap
  kept : q.inq.Kept

theorem mallocSize_eq {size : UInt64} {maxfds : Int32} (hs : size.toNat ≤ SIZEOF_WORKFD)
    (h : 0 ≤ maxfds) : mallocSize size maxfds = size.toNat * maxfds.toNatClampNeg := by
  have hle : (0 : Int64) ≤ maxfds.toInt64 := by
    rw [Int64.le_iff_toInt_le, Int32.toInt_toInt64]
    exact Int32.le_iff_toInt_le.mp h
  have hlt : maxfds.toNatClampNeg < 2 ^ 31 := maxfds.toNatClampNeg_lt
  rw [mallocSize, UInt64.toNat_mul, Int64.toNat_toUInt64_of_le hle, Int32.toNatClampNeg_toInt64,
    Nat.mod_eq_of_lt]
  calc size.toNat * maxfds.toNatClampNeg ≤ SIZEOF_WORKFD * 2 ^ 31 :=
        Nat.mul_le_mul hs (Nat.le_of_lt hlt)
    _ < 2 ^ 64 := by decide

theorem clampNeg_pos {n : Int32} (h : 0 < n.toNatClampNeg) : 0 ≤ n := by
  have hto : n.toInt.toNat = n.toNatClampNeg := rfl
  rw [Int32.le_iff_toInt_le]
  show 0 ≤ n.toInt
  omega

theorem workInitQueues_inv {gmax : UInt32} {nwork : Int32} {q : Queues}
    (h : workInitQueues gmax nwork = some q) : q.Inv ∧ q.used = 0 ∧ q.inq2.Kept := by
  have hsize : ∀ (size : UInt64) {maxfds : Int32}, size.toNat ≤ SIZEOF_WORKFD →
      0 < maxfds.toNatClampNeg → mallocSize size maxfds = size.toNat * maxfds.toNatClampNeg :=
    fun _ _ hs hcap => mallocSize_eq hs (clampNeg_pos hcap)
  unfold workInitQueues at h
  split at h
  · cases h
  · cases h
    refine ⟨⟨Int32.le_refl 0, Nat.zero_le _, ?_, ?_, Nat.zero_le _⟩, rfl, Nat.zero_le _⟩
    · rcases Nat.eq_zero_or_pos (Queues.cap _) with hcap | hcap
      · rw [hcap]
        exact Nat.zero_le _
      · have heq := hsize (UInt64.ofNat SIZEOF_WORKFD) (by decide) hcap
        exact Nat.le_of_eq heq.symm
    · intro hcap
      exact hsize (UInt64.ofNat SIZEOF_WORKFD_PTR) (by decide) hcap

/-- What `work_add_connection` does when it returns 0. -/
structure Queues.Added (q q' : Queues) (wfd : WorkFd) : Prop where
  used : q'.used = q.used + 1
  max : q'.max = q.max
  inq2 : q'.inq2 = q.inq2
  waiting : q'.inq.range 0 q'.used = q.inq.range 0 q.used ++ [wfd]

/-- The check of `work_add_connection` is that a slot is free. -/
theorem Queues.refuses_iff {q : Queues} (hi : q.Inv) :
    (q.max < 1 ∨ q.ninq < 0 ∨ q.max ≤ q.ninq) ↔ q.cap ≤ q.used := by
  have hn : 0 ≤ q.ninq.toInt := Int32.le_iff_toInt_le.mp hi.ninq
  rw [Int32.lt_iff_toInt_lt, Int32.lt_iff_toInt_lt, Int32.le_iff_toInt_le]
  show q.max.toInt < 1 ∨ q.ninq.toInt < 0 ∨ q.max.toInt ≤ q.ninq.toInt ↔
    q.max.toInt.toNat ≤ q.ninq.toInt.toNat
  omega

theorem workAddConnection_spec {q q' : Queues} {wfd : WorkFd} {r : Int} (hi : q.Inv)
    (h : q.workAddConnection wfd = (r, q')) :
    q'.Inv ∧ ((r = 0 ∧ q.used < q.cap ∧ q.Added q' wfd) ∨ (r = -1 ∧ q.cap ≤ q.used ∧ q' = q)) := by
  rw [Queues.workAddConnection] at h
  split at h
  next hfull =>
    cases h
    exact ⟨hi, Or.inr ⟨rfl, (Queues.refuses_iff hi).mp hfull, rfl⟩⟩
  next hroom =>
    cases h
    rw [Queues.refuses_iff hi, Nat.not_le] at hroom
    have hn : 0 ≤ q.ninq.toInt := Int32.le_iff_toInt_le.mp hi.ninq
    have hlt : q.ninq.toInt.toNat < q.max.toInt.toNat := hroom
    have hsum : (q.ninq + 1).toInt = q.ninq.toInt + 1 := by
      rw [Int32.toInt_add]
      have hbound := q.max.toInt_lt
      apply Int.bmod_eq_of_le <;> simp <;> omega
    have hused : (q.ninq + 1).toNatClampNeg = q.used + 1 := by
      show (q.ninq + 1).toInt.toNat = q.ninq.toInt.toNat + 1
      omega
    refine ⟨⟨?_, ?_, hi.size, hi.size2, ?_⟩, Or.inl ⟨rfl, hroom, hused, rfl, rfl, ?_⟩⟩
    · rw [Int32.le_iff_toInt_le, hsum]
      show 0 ≤ q.ninq.toInt + 1
      omega
    · show (q.ninq + 1).toNatClampNeg ≤ q.cap
      rw [hused]
      exact hroom
    · apply Nat.max_le.mpr ⟨hi.kept, ?_⟩
      exact Nat.le_trans (Nat.mul_le_mul_left _ hroom) hi.size
    · show (q.inq.write q.used wfd).range 0 (q.ninq + 1).toNatClampNeg = _
      rw [hused]
      exact Block.range_write q.inq q.used wfd

/-- What the locked part of `_work_get_connection` does. -/
structure Queues.Fetched (q q' : Queues) (n : Int32) : Prop where
  n : n.toNatClampNeg = q.used
  used : q'.used = 0
  max : q'.max = q.max
  batch : q'.inq2.range 0 q.used = q.inq.range 0 q.used
  kept : q'.inq2.Kept ↔ q.inq2.Kept ∧ 4 * q.used ≤ q.cap

theorem workGetConnection_spec {q q' : Queues} {n : Int32} (hi : q.Inv)
    (h : q.workGetConnection = (n, q')) : q'.Inv ∧ q.Fetched q' n := by
  unfold Queues.workGetConnection at h
  split at h
  next hpos =>
    cases h
    have hused : 0 < q.used := by
      have hlt := Int32.lt_iff_toInt_lt.mp hpos
      show 0 < q.ninq.toInt.toNat
      exact Int.pos_iff_toNat_pos.mp hlt
    have hsize := hi.size2 (Nat.lt_of_lt_of_le hused hi.used)
    refine ⟨⟨Int32.le_refl 0, Nat.zero_le _, hi.size, hi.size2, ?_⟩, rfl, rfl, rfl, ?_, ?_⟩
    · apply Nat.max_le.mpr ⟨hi.kept, ?_⟩
      exact Nat.le_trans (Nat.mul_le_mul_left _ hi.used) hi.size
    · exact Block.range_copy q.inq2 q.inq q.used
    · show Nat.max q.inq2.reach (SIZEOF_WORKFD * q.used) ≤ q.inq2.size ↔ _
      have hfit : SIZEOF_WORKFD * q.used ≤ q.inq2.size ↔ 4 * q.used ≤ q.cap := by
        rw [hsize]
        simp only [SIZEOF_WORKFD, SIZEOF_WORKFD_PTR]
        omega
      rw [Nat.max_le, hfit]
      exact Iff.rfl
  next hpos =>
    cases h
    have hzero : q.used = 0 := by
      show q.ninq.toInt.toNat = 0
      have hle := Int32.le_iff_toInt_le.mp (Int32.not_lt.mp hpos)
      exact Int.toNat_of_nonpos hle
    refine ⟨hi, rfl, hzero, rfl, ?_, ?_⟩
    · rw [hzero, Block.range_self, Block.range_self]
    · rw [hzero]
      exact (and_iff_left (Nat.zero_le _)).symm

/-! ## The queue as a list -/

/-- The worker of `Worker` whose queue these are. -/
structure Queues.Abs (q : Queues) (wi : Work) : Prop where
  inq : wi.inq = q.inq.range 0 q.used
  max : wi.max = q.cap

theorem Block.length_range (b : Block) (n : Nat) : (b.range 0 n).length = n := by
  simp [Block.range]

/-- On the list the two functions do what they do on the slots. -/
theorem add_refines {q : Queues} {wi : Work} (hi : q.Inv) (ha : q.Abs wi) (wfd : WorkFd) :
    (q.workAddConnection wfd).1 = (workAddConnection wfd wi).1 ∧
      (q.workAddConnection wfd).2.Abs (workAddConnection wfd wi).2 := by
  cases hadd : q.workAddConnection wfd with
  | mk r q' =>
    have hlen : wi.inq.length = q.used := by rw [ha.inq, Block.length_range]
    rw [workAddConnection, hlen, ha.max]
    obtain ⟨_, ⟨hr, hroom, hput⟩ | ⟨hr, hfull, hsame⟩⟩ := workAddConnection_spec hi hadd
    · rw [if_neg (by omega)]
      refine ⟨hr, ?_, ?_⟩
      · show wi.inq ++ [wfd] = q'.inq.range 0 q'.used
        rw [hput.waiting, ha.inq]
      · show q.cap = q'.max.toNatClampNeg
        rw [hput.max]
        rfl
    · rw [if_pos (by omega), hsame]
      exact ⟨hr, ha⟩

theorem get_refines {q : Queues} {wi : Work} (hi : q.Inv) (ha : q.Abs wi) (as : List TakeAnswers) :
    q.workGetConnection.2.Abs { wi with inq := [] } ∧
      workGetConnection as wi =
        workTakeClients as (q.workGetConnection.2.inq2.range 0 q.workGetConnection.1.toNatClampNeg)
          { wi with inq := [] } := by
  cases hget : q.workGetConnection with
  | mk n q' =>
    obtain ⟨_, hfetch⟩ := workGetConnection_spec hi hget
    refine ⟨⟨?_, ?_⟩, ?_⟩
    · rw [hfetch.used, Block.range_self]
    · show wi.max = q'.max.toNatClampNeg
      rw [hfetch.max]
      exact ha.max
    · show workGetConnection as wi = workTakeClients as (q'.inq2.range 0 n.toNatClampNeg) _
      rw [hfetch.n, hfetch.batch, ← ha.inq]
      rfl

/-! ## The law of the hand-over -/

/-- A client taken with its own address and port. -/
def Taken.Of : Taken → WorkFd → Prop
  | .attached clifd cliaddr cliport, wfd =>
    clifd = wfd.fd ∧ cliaddr = wfd.addr ∧ cliport = wfd.port
  | .closed fd, wfd => fd = wfd.fd

/-- The clients added, in order: those taken, each once and as itself, those of
the batch, those waiting. -/
def HandOver.Accounted (st : HandOver) : Prop :=
  ∃ served, List.Forall₂ Taken.Of st.taken served ∧ st.added = served ++ (st.batch ++ st.waiting)

/-- No write went beyond a block, and the worker runs. -/
structure HandOver.Sound (st : HandOver) : Prop where
  inq : st.q.inq.Kept
  inq2 : st.q.inq2.Kept
  runs : st.aborted = false

/-- At most a quarter of `wi->max` clients wait when the worker fetches them,
and a client it takes has a positive descriptor. -/
def HandOverFits (st : HandOver) : HandOverInput → Prop
  | .add _ => True
  | .get => 4 * st.q.used ≤ st.q.cap
  | .take _ => 0 < (st.q.inq2.slots st.i).fd

instance (st : HandOver) (i : HandOverInput) : Decidable (HandOverFits st i) :=
  match i with
  | .add _ => .isTrue trivial
  | .get => inferInstanceAs (Decidable (_ ≤ _))
  | .take _ => inferInstanceAs (Decidable (_ < _))

structure HandOver.Inv (st : HandOver) : Prop where
  q : st.q.Inv
  accounted : st.Accounted

theorem takeWorkFd_of (a : TakeAnswers) (wfd : WorkFd) : (takeWorkFd a wfd).Of wfd := by
  unfold takeWorkFd
  split
  · exact ⟨rfl, rfl, rfl⟩
  · exact rfl

theorem handOver_step {st st' : HandOver} {i : HandOverInput} (hi : st.Inv)
    (h : handOverStep st i = some st') : st'.Inv ∧ (st'.Sound ↔ st.Sound ∧ HandOverFits st i) := by
  obtain ⟨served, hserved, hadded⟩ := hi.accounted
  cases i with
  | add wfd =>
    simp only [handOverStep] at h
    split at h
    · cases h
    next hruns =>
      cases hadd : st.q.workAddConnection wfd with
      | mk r q' =>
        rw [hadd] at h
        cases h
        obtain ⟨hq, ⟨hr, _, hput⟩ | ⟨hr, _, hsame⟩⟩ := workAddConnection_spec hi.q hadd
        · refine ⟨⟨hq, served, hserved, ?_⟩, ?_⟩
          · show (if r = 0 then st.added ++ [wfd] else st.added) =
              served ++ (q'.inq2.range st.i st.n ++ q'.inq.range 0 q'.used)
            rw [if_pos hr, hadded, hput.waiting, hput.inq2]
            simp only [List.append_assoc]
            rfl
          · refine ⟨fun hs => ⟨⟨hi.q.kept, ?_, hs.runs⟩, trivial⟩, fun hs => ⟨hq.kept, ?_, hs.1.runs⟩⟩
            · have hkept := hs.inq2
              rwa [show q'.inq2 = st.q.inq2 from hput.inq2] at hkept
            · show q'.inq2.Kept
              rw [hput.inq2]
              exact hs.1.inq2
        · have hno : ¬ r = 0 := by omega
          rw [if_neg hno, hsame]
          exact ⟨hi, (and_iff_left trivial).symm⟩
  | get =>
    simp only [handOverStep] at h
    split at h
    · cases h
    next hdone =>
      cases hget : st.q.workGetConnection with
      | mk n q' =>
        rw [hget] at h
        cases h
        obtain ⟨hq, hfetch⟩ := workGetConnection_spec hi.q hget
        have hbatch : st.batch = [] :=
          Block.range_past _ (Nat.not_lt.mp fun hlt => hdone (Or.inr hlt))
        refine ⟨⟨hq, served, hserved, ?_⟩, ?_⟩
        · show st.added = served ++ (q'.inq2.range 0 n.toNatClampNeg ++ q'.inq.range 0 q'.used)
          rw [hadded, hbatch, hfetch.n, hfetch.used, hfetch.batch, Block.range_self, List.append_nil]
          rfl
        · refine ⟨fun hs => ?_, fun hs => ⟨hq.kept, hfetch.kept.mpr ⟨hs.1.inq2, hs.2⟩, hs.1.runs⟩⟩
          obtain ⟨hkept, hfit⟩ := hfetch.kept.mp hs.inq2
          exact ⟨⟨hi.q.kept, hkept, hs.runs⟩, hfit⟩
  | take a =>
    simp only [handOverStep] at h
    split at h
    · cases h
    next hloop =>
      have hlt : st.i < st.n := Nat.not_le.mp fun hle => hloop (Or.inr hle)
      split at h
      next hfd =>
        -- the assertion ends the process
        cases h
        refine ⟨⟨hi.q, served, hserved, hadded⟩, fun hs => ?_, fun hs => ?_⟩
        · cases hs.runs
        · exact absurd hfd (Nat.ne_of_gt hs.2)
      next hfd =>
        cases h
        refine ⟨⟨hi.q, served ++ [st.q.inq2.slots st.i], ?_, ?_⟩, ?_⟩
        · exact List.rel_append hserved (.cons (takeWorkFd_of a _) .nil)
        · rw [hadded, HandOver.batch, Block.range_cons _ hlt]
          simp only [List.append_assoc, List.cons_append, List.nil_append]
          rfl
        · exact ⟨fun hs => ⟨⟨hs.inq, hs.inq2, hs.runs⟩, Nat.pos_of_ne_zero hfd⟩,
            fun hs => ⟨hs.1.inq, hs.1.inq2, hs.1.runs⟩⟩

theorem handOver_init {gmax : UInt32} {nwork : Int32} {q : Queues}
    (h : workInitQueues gmax nwork = some q) : (handOver q).init.Inv ∧ (handOver q).init.Sound := by
  obtain ⟨hq, hused, hkept⟩ := workInitQueues_inv h
  refine ⟨⟨hq, [], .nil, ?_⟩, ⟨hq.kept, hkept, rfl⟩⟩
  show [] = [] ++ (q.inq2.range 0 0 ++ q.inq.range 0 q.used)
  rw [hused, Block.range_self, Block.range_self]
  rfl

/-- **The hand-over.** After every run the clients added are those taken, each
once, in order and as itself, and those still on their way; and the run wrote
beyond no block exactly when every step of it fits. -/
theorem handOver_run {gmax : UInt32} {nwork : Int32} {q : Queues}
    (hq : workInitQueues gmax nwork = some q) (is : List HandOverInput) (st : HandOver)
    (h : (handOver q).run (handOver q).init is = some st) :
    st.Sound ∧ st.Accounted ↔ (handOver q).Meets HandOverFits (handOver q).init is := by
  obtain ⟨hinv, hsound⟩ := handOver_init hq
  have hst : st.Inv := Machine.run_inv' (M := handOver q)
    (fun _ _ _ hi hs => (handOver_step hi hs).1) hinv h
  have hiff := Machine.run_iff (M := handOver q) (P := HandOver.Sound) (C := HandOverFits)
    (fun _ _ _ hi hs => (handOver_step hi hs).1) (fun _ _ _ hi hs => (handOver_step hi hs).2)
    is hinv h
  rw [and_iff_left hst.accounted, hiff, and_iff_right hsound]

/-- The queues of one of four workers, with the limit of `proxy_main2`. -/
def defaultQueues : Queues := (workInitQueues 50000 4).get (by decide)

theorem defaultQueues_init : workInitQueues 50000 4 = some defaultQueues :=
  (Option.some_get _).symm

/-- Two clients taken together, and a third one on its way. -/
def clientsHanded : List HandOverInput :=
  [.add { fd := 5 }, .add { fd := 6 }, .get, .take {}, .add { fd := 7 }, .take {}]

theorem handOver_threeClients : ∃ st,
    (handOver defaultQueues).run (handOver defaultQueues).init clientsHanded = some st ∧
      st.Sound ∧ st.Accounted := by
  have hrun : ((handOver defaultQueues).run (handOver defaultQueues).init clientsHanded).isSome := by
    decide
  obtain ⟨st, hst⟩ := Option.isSome_iff_exists.mp hrun
  have hfits : (handOver defaultQueues).Meets HandOverFits (handOver defaultQueues).init clientsHanded := by
    decide
  exact ⟨st, hst, (handOver_run defaultQueues_init clientsHanded st hst).mpr hfits⟩

/-- While there is room, clients are added. -/
theorem handOver_adds (q : Queues) : ∀ (wfds : List WorkFd) (st : HandOver), st.q.Inv → st.aborted = false →
    st.q.used + wfds.length ≤ st.q.cap →
    ∃ st', (handOver q).run st (wfds.map .add) = some st' ∧ st'.q.Inv ∧ st'.aborted = false ∧
      st'.i = st.i ∧ st'.n = st.n ∧ st'.q.inq2 = st.q.inq2 ∧ st'.q.used = st.q.used + wfds.length := by
  intro wfds
  induction wfds with
  | nil =>
    intro st hi hruns _
    exact ⟨st, rfl, hi, hruns, rfl, rfl, rfl, rfl⟩
  | cons wfd wfds ih =>
    intro st hi hruns hroom
    rw [List.length_cons] at hroom
    cases hadd : st.q.workAddConnection wfd with
    | mk r q' =>
      obtain ⟨hq, ⟨hr, _, hput⟩ | ⟨_, hfull, _⟩⟩ := workAddConnection_spec hi hadd
      · have hcap : q'.cap = st.q.cap := congrArg Int32.toNatClampNeg hput.max
        have hstep : handOverStep st (.add wfd) =
            some { st with q := q', added := st.added ++ [wfd] } := by
          simp only [handOverStep, hruns, hadd, hr]
          rfl
        obtain ⟨st', hrun, hi', hruns', h1, h2, h3, h4⟩ :=
          ih { st with q := q', added := st.added ++ [wfd] } hq hruns (by
            show q'.used + wfds.length ≤ q'.cap
            rw [hput.used, hcap]
            omega)
        refine ⟨st', Machine.run_cons.mpr ⟨_, hstep, hrun⟩, hi', hruns', h1, h2, h3.trans hput.inq2, ?_⟩
        rw [h4, List.length_cons]
        show q'.used + wfds.length = _
        rw [hput.used]
        omega
      · omega

/-- Clients with the descriptors from 5 on. -/
def manyClients : List WorkFd := (List.range 3126).map fun k => { fd := k + 5 }

/-- When 3126 clients wait, the worker writes 100032 bytes into the 100008 of `inq2`. -/
theorem inq2_overrun : ∃ st, (handOver defaultQueues).run (handOver defaultQueues).init
      (manyClients.map .add ++ [.get]) = some st ∧
    st.q.inq2.size = 100008 ∧ st.q.inq2.reach = 100032 ∧ ¬ st.Sound := by
  have hlen : manyClients.length = 3126 := by
    rw [manyClients, List.length_map, List.length_range]
  obtain ⟨hq, hempty, _⟩ := workInitQueues_inv defaultQueues_init
  have hroom : (handOver defaultQueues).init.q.used + manyClients.length ≤
      (handOver defaultQueues).init.q.cap := by
    have hcap : (handOver defaultQueues).init.q.cap = 12501 := by decide
    have hused : (handOver defaultQueues).init.q.used = 0 := hempty
    omega
  obtain ⟨st, hrun, hi, hruns, h1, h2, h3, h4⟩ :=
    handOver_adds defaultQueues manyClients (handOver defaultQueues).init hq rfl hroom
  have hused : st.q.ninq.toNatClampNeg = 3126 := by
    have hzero : (handOver defaultQueues).init.q.used = 0 := hempty
    rw [hlen, hzero] at h4
    exact h4
  have hpos : 0 < st.q.ninq := by
    rw [Int32.lt_iff_toInt_lt]
    show 0 < st.q.ninq.toInt
    have hto : st.q.ninq.toInt.toNat = st.q.ninq.toNatClampNeg := rfl
    omega
  have hdone : ¬ (st.aborted = true ∨ st.i < st.n) := by
    rw [hruns, h1, h2]
    decide
  obtain ⟨st', hget, hinq2⟩ : ∃ st', handOverStep st .get = some st' ∧
      st'.q.inq2 = st.q.inq2.copy st.q.inq 3126 := by
    rw [handOverStep, if_neg hdone, Queues.workGetConnection, if_pos hpos, hused]
    exact ⟨_, rfl, rfl⟩
  have hsize : st'.q.inq2.size = 100008 := by
    rw [hinq2, h3]
    show defaultQueues.inq2.size = 100008
    decide
  have hreach : st'.q.inq2.reach = 100032 := by
    rw [hinq2, h3]
    show Nat.max defaultQueues.inq2.reach (SIZEOF_WORKFD * 3126) = 100032
    decide
  refine ⟨st', ?_, hsize, hreach, fun hs => ?_⟩
  · rw [Machine.run_append, hrun]
    exact Machine.run_cons.mpr ⟨st', hget, rfl⟩
  · have hkept : st'.q.inq2.reach ≤ st'.q.inq2.size := hs.inq2
    omega

end WafProxy
