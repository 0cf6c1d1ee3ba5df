import Mathlib.Logic.Function.Basic
import WafProxy.Lib.CString
import WafProxy.Lib.LinkedList

/-
  The memory pool — mempool.c

  A pool hands out units of one size. Units come in caches of `incsize`; the
  units not handed out are on `node_list`, over all caches, and a cache whose
  units are all free is released by the `put` that frees the last of them when
  there are enough others.

  A reference to a node is the cache it was cut from and its place there; a
  reference to a cache stands for its two blocks, the header and the units. When
  the second block is refused, the header is not given back: it is `leaked`. A
  field of a structure in memory is a function of the reference. `none` is an
  assertion that fails, a null pointer read or a header written outside of its
  block.

  Correspondence (C ↔ Lean):
    `_op_alloc_cache`   ↔ `opAllocCache` (a turn of its loop: `addNode`)
    `_op_free_cache`    ↔ `opFreeCache` (a turn of its loop: `dropNode`)
    `_op_put_node`      ↔ `opPutNode`
    `mempool_alloc`     ↔ `mempoolAlloc`
    `mempool_get`       ↔ `mempoolGet`
    `mempool_put1`      ↔ `mempoolPut1`
    `mempool_put`       ↔ `mempoolPut`
-/

namespace WafProxy
open Lib

/-! ## Data -/

/-- A `_op_cache_t *`, with the block of units that belongs to it. -/
abbrev CacheRef := Nat

/-- The node at `cache->pool + i * nodesize`. -/
abbrev NodeRef := CacheRef × Nat

/-- `_op_cache_t` without its list pointers. -/
structure Cache where
  magic : UInt32
  capacity : UInt32
  nused : UInt32

/-- `_op_node_t` without its list pointers. -/
structure PoolNode where
  cache : CacheRef
  /-- The pool it belongs to. -/
  pool : Nat
  magic : UInt32
  isUsed : Bool

/-- `mempool_t` and the memory of its caches. -/
structure Mempool where
  /-- Its own address. -/
  self : Nat
  magic : UInt32
  memsize : UInt16
  incsize : UInt16
  nodesize : UInt16
  needLock : Bool
  /-- `cache_list`, and the list pointers of the caches. -/
  cacheList : Links CacheRef
  /-- `node_list`, and the list pointers of the nodes. -/
  nodeList : Links NodeRef
  nalloced : UInt32
  nfreed : UInt32
  cache : CacheRef → Cache
  node : NodeRef → PoolNode
  /-- The caches that `malloc` has given and that are not freed. -/
  live : CacheRef → Bool
  /-- The headers that got no units; nothing points to them. -/
  leaked : List CacheRef

/-- How the two calls of `malloc` in `_op_alloc_cache` end; the first gives the
header of `c`. -/
inductive Malloc where
  | noCache
  | noPool (c : CacheRef)
  | both (c : CacheRef)

def memPOOL_INC_SIZE : Int := 1000

/-- `_OP_ALIGN`, on 64 bits. -/
def opAlign (n : Nat) : Nat := (n + 7) / 8 * 8

/-- `sizeof(_op_node_t)`, on 64 bits. -/
def sizeofNode : Nat := 40

/-! ## Caches -/

/-- A turn of the loop in `_op_alloc_cache`. -/
def addNode (c : CacheRef) (op : Mempool) (i : Nat) : Option Mempool :=
  if i * op.nodesize.toNat + sizeofNode ≤ op.nodesize.toNat * op.incsize.toNat then
    some { op with
      node := Function.update op.node (c, i)
        { cache := c, pool := op.self, magic := op.magic, isUsed := false }
      nodeList := op.nodeList.push (c, i) }
  else none

/-- `_op_alloc_cache` behind its loop. -/
def addCache (op : Mempool) (c : CacheRef) : Mempool :=
  { op with
    cache := Function.update op.cache c
      { magic := op.magic, capacity := op.incsize.toUInt32, nused := 0 }
    nalloced := op.nalloced + op.incsize.toUInt32
    nfreed := op.nfreed + op.incsize.toUInt32
    cacheList := op.cacheList.push c
    live := Function.update op.live c true }

/-- `_op_alloc_cache`, and whether it returns 0. -/
def opAllocCache (op : Mempool) : Malloc → Option (Bool × Mempool)
  | .noCache => some (false, op)
  -- `return -1` without `free(cache)`
  | .noPool c => some (false, { op with leaked := c :: op.leaked })
  | .both c =>
    -- the size is an `int`; no block is as large as a negative one asks for
    if toInt32 (op.nodesize.toNat * op.incsize.toNat : Nat) < 0 then
      some (false, { op with leaked := c :: op.leaked })
    else
      ((List.range op.incsize.toNat).foldlM (addNode c) op).map fun op => (true, addCache op c)

/-- A turn of the loop in `_op_free_cache`. -/
def dropNode (c : CacheRef) (op : Mempool) (i : Nat) : Option Mempool :=
  if (op.node (c, i)).isUsed then none
  else (op.nodeList.unlink (c, i)).map fun nodes => { op with nodeList := nodes }

/-- `_op_free_cache` behind its loop. -/
def dropCache (op : Mempool) (c : CacheRef) : Mempool :=
  { op with
    nalloced := op.nalloced - op.incsize.toUInt32
    nfreed := op.nfreed - op.incsize.toUInt32
    live := Function.update op.live c false }

def opFreeCache (op : Mempool) (c : CacheRef) : Option Mempool :=
  if (op.cache c).nused ≠ 0 ∨ op.magic ≠ (op.cache c).magic then none
  else
    (op.cacheList.unlink c).bind fun caches =>
      ((List.range op.incsize.toNat).foldlM (dropNode c)
        { op with cacheList := caches.clear c }).map fun op => dropCache op c

/-! ## Units -/

/-- `_op_put_node` before it looks at the cache. -/
def freeNode (op : Mempool) (u : NodeRef) : Mempool :=
  let c := (op.node u).cache
  { op with
    nodeList := op.nodeList.push u
    node := Function.update op.node u { op.node u with isUsed := false }
    nfreed := op.nfreed + 1
    cache := Function.update op.cache c { op.cache c with nused := (op.cache c).nused - 1 } }

def opPutNode (op : Mempool) (u : NodeRef) : Option Mempool :=
  let c := (op.node u).cache
  if op.magic ≠ (op.node u).magic ∨ op.magic ≠ (op.cache c).magic ∨ (op.node u).isUsed = false then
    none
  else
    let op := freeNode op u
    if (op.cache c).nused = 0 ∧ 2 * op.incsize.toUInt32 < op.nfreed then opFreeCache op c else some op

/-- `mempool_get` hands out the first node of the list. -/
def takeNode (op : Mempool) (u : NodeRef) : Mempool :=
  let c := (op.node u).cache
  { op with
    nodeList := (op.nodeList.pop u).clear u
    node := Function.update op.node u { op.node u with isUsed := true }
    cache := Function.update op.cache c { op.cache c with nused := (op.cache c).nused + 1 }
    nfreed := op.nfreed - 1 }

/-- `mempool_get` behind its test for free units. -/
def takeFirst (op : Mempool) : Option (Option NodeRef × Mempool) :=
  match op.nodeList.head with
  | none => none
  | some u => some (some u, takeNode op u)

/-- `mempool_get`, with the unit it returns. -/
def mempoolGet (op : Mempool) (m : Malloc) : Option (Option NodeRef × Mempool) :=
  match if op.nfreed = 0 then opAllocCache op m else some (true, op) with
  | none => none
  | some (false, op) => some (none, op)
  | some (true, op) => takeFirst op

/-- `mempool_put1` for the unit behind the node `u`. -/
def mempoolPut1 (op : Mempool) (u : NodeRef) : Option Mempool := opPutNode op u

/-- `mempool_put`; it finds the pool through the node. -/
def mempoolPut (op : Mempool) (u : NodeRef) : Option Mempool :=
  if (op.node u).pool = op.self then opPutNode op u else none

/-! ## The pool -/

/-- `mempool_alloc` before its first cache. -/
def emptyPool (self : Nat) (now : UInt32) (memsize : Nat) (incsize : Int) : Mempool where
  self := self
  magic := now
  memsize := UInt16.ofNat (opAlign memsize)
  incsize := UInt16.ofInt incsize
  nodesize := UInt16.ofNat ((UInt16.ofNat (opAlign memsize)).toNat + opAlign sizeofNode)
  needLock := false
  cacheList := Links.empty
  nodeList := Links.empty
  nalloced := 0
  nfreed := 0
  cache := fun _ => { magic := 0, capacity := 0, nused := 0 }
  node := fun _ => { cache := 0, pool := 0, magic := 0, isUsed := false }
  live := fun _ => false
  leaked := []

/-- `mempool_alloc` from its first cache on. -/
def withFirstCache (op : Mempool) (locked : Bool) (m : Malloc) : Option (Option Mempool) :=
  match opAllocCache op m with
  | none => none
  | some (false, _) => some none
  | some (true, op) => some (some { op with needLock := locked })

/-- `mempool_alloc` when its own structure is at `self`, or does not fit. -/
def mempoolAlloc (self : Option Nat) (now : UInt32) (memsize : Nat) (incsize : Int) (locked : Bool)
    (m : Malloc) : Option (Option Mempool) :=
  if memsize < 1 then some none
  else
    match self with
    | none => some none
    | some self =>
      let incsize := if incsize < 1 then memPOOL_INC_SIZE else incsize
      withFirstCache (emptyPool self now memsize incsize) locked m

end WafProxy
