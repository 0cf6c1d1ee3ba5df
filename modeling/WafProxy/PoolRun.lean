import Mathlib.Data.List.ProdSigma
import Mathlib.Data.List.Perm.Subperm
import Mathlib.Tactic.SplitIfs
import WafProxy.Lib.Machine
import WafProxy.Pool

/-
  The memory pool over a whole run

  1. `WellFormed` — the free units are exactly what is linked from `node_list`,
     every back pointer included, and the counters count.
  2. `PoolInv` — with what else every call relies on: the headers of the units,
     and which of them are handed out.
  3. `opAllocCache_spec`, `opFreeCache_spec`, `opPutNode_spec`, `mempoolGet_spec`
     — one lemma for each function of mempool.c.
  4. `mempool_run` — every run of calls keeps the pool well formed, and no unit
     is handed out twice.

  The counters of the pool are 32 bits wide: with 2 ^ 32 units they have gone
  round (`nalloced_wraps`).
-/

namespace WafProxy
open Lib

/-! ## What is well formed -/

namespace Mempool

/-- A unit of the caches `cs`. -/
def IsUnit (op : Mempool) (cs : List CacheRef) (u : NodeRef) : Prop :=
  u.1 ∈ cs ∧ u.2 < op.incsize.toNat

/-- The number of used units of `c`. -/
def usedOf (op : Mempool) (c : CacheRef) : Nat :=
  (List.range op.incsize.toNat).countP fun i => (op.node (c, i)).isUsed

end Mempool

/-- The free list is `ks`, the cache list `cs`. -/
structure WellFormed (op : Mempool) (ks : List NodeRef) (cs : List CacheRef) : Prop where
  nodes : op.nodeList.IsList ks
  caches : op.cacheList.IsList cs
  free : ∀ u, u ∈ ks ↔ op.IsUnit cs u ∧ (op.node u).isUsed = false
  nfreed : op.nfreed.toNat = ks.length % 2 ^ 32
  nalloced : op.nalloced.toNat = cs.length * op.incsize.toNat % 2 ^ 32
  nused : ∀ c ∈ cs, (op.cache c).nused.toNat = op.usedOf c

/-- What every call keeps; the units handed out are `out`. -/
structure PoolInv (op : Mempool) (out : List NodeRef) (ks : List NodeRef) (cs : List CacheRef) : Prop
    extends WellFormed op ks cs where
  inc_pos : 0 < op.incsize.toNat
  room : sizeofNode ≤ op.nodesize.toNat
  live : ∀ c, c ∈ cs ↔ op.live c = true
  header : ∀ u, op.IsUnit cs u →
    (op.node u).cache = u.1 ∧ (op.node u).pool = op.self ∧ (op.node u).magic = op.magic
  cacheMagic : ∀ c ∈ cs, (op.cache c).magic = op.magic
  out_iff : ∀ u, u ∈ out ↔ op.IsUnit cs u ∧ (op.node u).isUsed = true
  out_nodup : out.Nodup

/-! ## Counting the used units -/

theorem countP_flip {p q : Nat → Bool} {i : Nat} (hp : p i = false) (hq : q i = true)
    (hoff : ∀ j, j ≠ i → q j = p j) (n : Nat) :
    (List.range n).countP q = (List.range n).countP p + if i < n then 1 else 0 := by
  induction n with
  | zero => rfl
  | succ n ih =>
    rw [List.range_succ, List.countP_append, List.countP_append, ih, List.countP_singleton,
      List.countP_singleton]
    by_cases hn : n = i
    · subst hn
      simp [hp, hq]
    · rw [hoff n hn]
      split_ifs <;> omega

section UsedOf
variable {op : Mempool} {u : NodeRef} {x : PoolNode}

theorem usedOf_off {op' : Mempool} {c : CacheRef} (hinc : op'.incsize = op.incsize)
    (h : ∀ i, op'.node (c, i) = op.node (c, i)) : op'.usedOf c = op.usedOf c := by
  unfold Mempool.usedOf
  simp only [hinc, h]

/-- A unit more is used. -/
theorem usedOf_flip {op' : Mempool} (hinc : op'.incsize = op.incsize)
    (hu : u.2 < op.incsize.toNat) (hfree : (op.node u).isUsed = false)
    (hused : (op'.node u).isUsed = true) (hoff : ∀ v, v ≠ u → op'.node v = op.node v) :
    op'.usedOf u.1 = op.usedOf u.1 + 1 := by
  unfold Mempool.usedOf
  rw [hinc]
  have hflip := @countP_flip (fun i => (op.node (u.1, i)).isUsed)
    (fun i => (op'.node (u.1, i)).isUsed) u.2 hfree hused (by
      intro j hj
      have hne : (u.1, j) ≠ u := fun heq => hj (congrArg Prod.snd heq)
      simp only [hoff _ hne]) op.incsize.toNat
  rw [hflip, if_pos hu]

theorem usedOf_le (op : Mempool) (c : CacheRef) : op.usedOf c ≤ op.incsize.toNat := by
  have hle := List.countP_le_length (p := fun i => (op.node (c, i)).isUsed)
    (l := List.range op.incsize.toNat)
  rw [List.length_range] at hle
  exact hle

end UsedOf

/-! ## `_op_alloc_cache` -/

/-- The units of `c` that are cut so far, the last of them first. -/
def unitsOf (c : CacheRef) (n : Nat) : List NodeRef := (List.range n).reverse.map (Prod.mk c)

theorem unitsOf_succ (c : CacheRef) (n : Nat) : unitsOf c (n + 1) = (c, n) :: unitsOf c n := by
  simp [unitsOf, List.range_succ]

theorem mem_unitsOf {c : CacheRef} {n : Nat} {u : NodeRef} : u ∈ unitsOf c n ↔ u.1 = c ∧ u.2 < n := by
  unfold unitsOf
  simp only [List.mem_map, List.mem_reverse, List.mem_range]
  constructor
  · intro h
    obtain ⟨i, hi, rfl⟩ := h
    exact ⟨rfl, hi⟩
  · intro h
    exact ⟨u.2, h.2, by rw [← h.1]⟩

theorem length_unitsOf (c : CacheRef) (n : Nat) : (unitsOf c n).length = n := by
  simp [unitsOf]

/-- A unit of a new cache. -/
def newNode (op : Mempool) (c : CacheRef) : PoolNode :=
  { cache := c, pool := op.self, magic := op.magic, isUsed := false }

/-- The loop of `_op_alloc_cache`. -/
theorem addNodes_spec {op : Mempool} {ks : List NodeRef} {c : CacheRef} (hlist : op.nodeList.IsList ks)
    (hfresh : ∀ u ∈ ks, u.1 ≠ c) (hroom : sizeofNode ≤ op.nodesize.toNat) (n : Nat)
    (hn : n ≤ op.incsize.toNat) : ∃ nodes node,
      (List.range n).foldlM (addNode c) op = some { op with nodeList := nodes, node := node } ∧
      nodes.IsList (unitsOf c n ++ ks) ∧ (∀ i < n, node (c, i) = newNode op c) ∧
      ∀ u, u.1 ≠ c → node u = op.node u := by
  induction n with
  | zero =>
    refine ⟨op.nodeList, op.node, rfl, hlist, ?_, fun _ _ => rfl⟩
    intro i hi
    omega
  | succ n ih =>
    obtain ⟨nodes, node, hfold, hnodes, hnew, hold⟩ := ih (by omega)
    have hin : n * op.nodesize.toNat + sizeofNode ≤ op.nodesize.toNat * op.incsize.toNat := by
      have hle := Nat.mul_le_mul_left op.nodesize.toNat hn
      rw [Nat.mul_succ, Nat.mul_comm op.nodesize.toNat n] at hle
      omega
    refine ⟨nodes.push (c, n), Function.update node (c, n) (newNode op c), ?_, ?_, ?_, ?_⟩
    · rw [List.range_succ, List.foldlM_append, hfold]
      show (addNode c { op with nodeList := nodes, node := node } n).bind some = _
      unfold addNode
      rw [if_pos hin]
      rfl
    · rw [unitsOf_succ]
      apply Links.isList_push hnodes
      intro hmem
      rcases List.mem_append.mp hmem with hmem | hmem
      · exact absurd (mem_unitsOf.mp hmem).2 (by simp)
      · exact hfresh _ hmem rfl
    · intro i hi
      by_cases heq : i = n
      · subst heq
        exact Function.update_self _ _ _
      · rw [Function.update_of_ne (by simp [heq])]
        exact hnew i (by omega)
    · intro u hu
      rw [Function.update_of_ne (by rintro rfl; exact hu rfl)]
      exact hold u hu

/-- The memory `malloc` may answer with is not in use. -/
def Malloc.Fresh (op : Mempool) : Malloc → Prop
  | .noCache => True
  | .noPool c | .both c => op.live c = false ∧ c ∉ op.leaked

instance (op : Mempool) (m : Malloc) : Decidable (m.Fresh op) :=
  match m with
  | .noCache => .isTrue trivial
  | .noPool c | .both c => inferInstanceAs (Decidable (op.live c = false ∧ c ∉ op.leaked))

/-- The header a refused cache leaves. -/
def Malloc.header : Malloc → List CacheRef
  | .noCache => []
  | .noPool c | .both c => [c]

/-- The pool behind a refused cache. -/
def Mempool.leak (op : Mempool) (m : Malloc) : Mempool := { op with leaked := m.header ++ op.leaked }

/-- The memory for another cache is there. -/
def Malloc.Serves (op : Mempool) (m : Malloc) : Prop :=
  (∃ c, m = .both c) ∧ ¬ toInt32 (op.nodesize.toNat * op.incsize.toNat : Nat) < 0

/-- What a call that gives a unit may do to the sizes and to the memory in use. -/
structure Grows (op : Mempool) (m : Malloc) (op' : Mempool) : Prop where
  incsize : op'.incsize = op.incsize
  nodesize : op'.nodesize = op.nodesize
  leaked : op'.leaked = op.leaked
  live : ∀ c, op'.live c = true → op.live c = true ∨ m = .both c

/-- The pool with the cache `c`, cut into free units, beside those of `op`. -/
structure Cut (op : Mempool) (c : CacheRef) (node : NodeRef → PoolNode) : Prop where
  cut : ∀ i < op.incsize.toNat, node (c, i) = newNode op c
  old : ∀ u, u.1 ≠ c → node u = op.node u

section
variable {op : Mempool} {out ks : List NodeRef} {cs : List CacheRef} {c : CacheRef}
  {node : NodeRef → PoolNode} {nodes : Links NodeRef}

theorem Cut.free (hcut : Cut op c node) (h : PoolInv op out ks cs) (hnew : c ∉ cs) (u : NodeRef) :
    u ∈ unitsOf c op.incsize.toNat ++ ks ↔
      (u.1 ∈ c :: cs ∧ u.2 < op.incsize.toNat) ∧ (node u).isUsed = false := by
  rw [List.mem_append, mem_unitsOf, h.free]
  unfold Mempool.IsUnit
  simp only [List.mem_cons]
  -- a unit of the new cache is free; the others are as they were
  by_cases hu : u.1 = c
  · obtain ⟨d, i⟩ := u
    obtain rfl : d = c := hu
    constructor
    · intro hmem
      rcases hmem with hmem | hmem
      · refine ⟨⟨Or.inl rfl, hmem.2⟩, ?_⟩
        rw [hcut.cut i hmem.2]
        rfl
      · exact absurd hmem.1.1 hnew
    · intro hmem
      exact Or.inl ⟨rfl, hmem.1.2⟩
  · simp only [hu, false_and, false_or, hcut.old u hu]

theorem Cut.nused (hcut : Cut op c node) (h : PoolInv op out ks cs) (hnew : c ∉ cs) {d : CacheRef}
    (hd : d ∈ c :: cs) : ((addCache { op with nodeList := nodes, node := node } c).cache d).nused.toNat =
      (addCache { op with nodeList := nodes, node := node } c).usedOf d := by
  by_cases heq : d = c
  · subst heq
    -- no unit of the new cache is used
    have hzero : ∀ i ∈ List.range op.incsize.toNat, (node (d, i)).isUsed = false := by
      intro i hi
      rw [hcut.cut i (List.mem_range.mp hi)]
      rfl
    show (Function.update op.cache d _ d).nused.toNat =
      (List.range op.incsize.toNat).countP fun i => (node (d, i)).isUsed
    rw [Function.update_self, List.countP_eq_zero.mpr (fun i hi => by simp [hzero i hi])]
    rfl
  · show (Function.update op.cache c _ d).nused.toNat = _
    rw [Function.update_of_ne heq, h.nused d ((List.mem_cons.mp hd).resolve_left heq)]
    symm
    apply usedOf_off
    · rfl
    · intro i
      exact hcut.old (d, i) heq

theorem Cut.header (hcut : Cut op c node) (h : PoolInv op out ks cs) {u : NodeRef}
    (hu : u.1 ∈ c :: cs ∧ u.2 < op.incsize.toNat) :
    (node u).cache = u.1 ∧ (node u).pool = op.self ∧ (node u).magic = op.magic := by
  obtain ⟨d, i⟩ := u
  by_cases hd : d = c
  · subst hd
    rw [hcut.cut i hu.2]
    exact ⟨rfl, rfl, rfl⟩
  · rw [hcut.old (d, i) hd]
    exact h.header (d, i) ⟨(List.mem_cons.mp hu.1).resolve_left hd, hu.2⟩

theorem Cut.out_iff (hcut : Cut op c node) (h : PoolInv op out ks cs) (hnew : c ∉ cs) (u : NodeRef) :
    u ∈ out ↔ (u.1 ∈ c :: cs ∧ u.2 < op.incsize.toNat) ∧ (node u).isUsed = true := by
  obtain ⟨d, i⟩ := u
  rw [h.out_iff]
  by_cases hd : d = c
  · subst hd
    constructor
    · intro hmem
      exact absurd hmem.1.1 hnew
    · intro hmem
      have hfree := hmem.2
      rw [hcut.cut i hmem.1.2] at hfree
      cases hfree
  · rw [hcut.old (d, i) hd]
    unfold Mempool.IsUnit
    simp [hd]

/-- What a new cache does to the pool. -/
theorem opAllocCache_inv (h : PoolInv op out ks cs) (hc : op.live c = false)
    (hfits : ¬ toInt32 (op.nodesize.toNat * op.incsize.toNat : Nat) < 0) :
    ∃ op', opAllocCache op (.both c) = some (true, op') ∧ Grows op (.both c) op' ∧
      PoolInv op' out (unitsOf c op.incsize.toNat ++ ks) (c :: cs) := by
  have hnew : c ∉ cs := fun hmem => by simp [(h.live c).mp hmem] at hc
  have hks : ∀ u ∈ ks, u.1 ≠ c := fun u hu heq => hnew (heq ▸ ((h.free u).mp hu).1.1)
  obtain ⟨nodes, node, hfold, hnodes, hnewNode, hold⟩ :=
    addNodes_spec h.nodes hks h.room op.incsize.toNat (Nat.le_refl _)
  have hcut : Cut op c node := ⟨hnewNode, hold⟩
  have hinc : op.incsize.toUInt32.toNat = op.incsize.toNat := UInt16.toNat_toUInt32 _
  refine ⟨addCache { op with nodeList := nodes, node := node } c, ?_, ⟨rfl, rfl, rfl, ?_⟩, ?_⟩
  · rw [opAllocCache, if_neg hfits, hfold]
    rfl
  · intro d hd
    have hlive : Function.update op.live c true d = true := hd
    by_cases heq : d = c
    · exact Or.inr (by rw [heq])
    · rw [Function.update_of_ne heq] at hlive
      exact Or.inl hlive
  constructor
  · constructor
    · exact hnodes
    · exact Links.isList_push h.caches hnew
    · exact hcut.free h hnew
    · show (op.nfreed + op.incsize.toUInt32).toNat = _
      rw [UInt32.toNat_add, hinc, h.nfreed, List.length_append, length_unitsOf]
      omega
    · show (op.nalloced + op.incsize.toUInt32).toNat = (c :: cs).length * op.incsize.toNat % 2 ^ 32
      rw [UInt32.toNat_add, hinc, h.nalloced, List.length_cons, Nat.succ_mul]
      omega
    · exact fun d hd => hcut.nused h hnew hd
  · exact h.inc_pos
  · exact h.room
  · intro d
    rw [List.mem_cons, h.live]
    show _ ↔ Function.update op.live c true d = true
    by_cases hd : d = c
    · simp [hd]
    · simp [hd]
  · exact fun u hu => hcut.header h hu
  · intro d hd
    show (Function.update op.cache c _ d).magic = op.magic
    by_cases heq : d = c
    · rw [heq, Function.update_self]
    · rw [Function.update_of_ne heq]
      exact h.cacheMagic d ((List.mem_cons.mp hd).resolve_left heq)
  · exact hcut.out_iff h hnew
  · exact h.out_nodup

end

theorem PoolInv.leak {op : Mempool} {out ks : List NodeRef} {cs : List CacheRef}
    (h : PoolInv op out ks cs) (m : Malloc) : PoolInv (op.leak m) out ks cs :=
  { h with
    nodes := h.nodes, caches := h.caches, free := h.free, nfreed := h.nfreed
    nalloced := h.nalloced, nused := h.nused }

/-- `_op_alloc_cache` fails and leaves a header, or links a new cache in. -/
theorem opAllocCache_spec {op : Mempool} {out ks : List NodeRef} {cs : List CacheRef} {m : Malloc}
    (h : PoolInv op out ks cs) (hm : m.Fresh op) :
    (¬ m.Serves op ∧ opAllocCache op m = some (false, op.leak m)) ∨
    ∃ c op', opAllocCache op m = some (true, op') ∧ Grows op m op' ∧
      PoolInv op' out (unitsOf c op.incsize.toNat ++ ks) (c :: cs) := by
  cases m with
  | noCache => exact Or.inl ⟨by simp [Malloc.Serves], rfl⟩
  | noPool c => exact Or.inl ⟨by simp [Malloc.Serves], rfl⟩
  | both c =>
    by_cases hfits : toInt32 (op.nodesize.toNat * op.incsize.toNat : Nat) < 0
    · left
      rw [opAllocCache, if_pos hfits]
      exact ⟨fun hserves => hserves.2 hfits, rfl⟩
    · obtain ⟨op', heq, hgrows, hinv⟩ := opAllocCache_inv h hm.1 hfits
      exact Or.inr ⟨c, op', heq, hgrows, hinv⟩

/-- A cache is only cut when its size is not negative. -/
theorem opAllocCache_fits {op op' : Mempool} {m : Malloc} (h : opAllocCache op m = some (true, op')) :
    ¬ toInt32 (op.nodesize.toNat * op.incsize.toNat : Nat) < 0 := by
  intro hneg
  cases m with
  | noCache => cases h
  | noPool c => cases h
  | both c =>
    rw [opAllocCache, if_pos hneg] at h
    cases h

/-! ## `_op_free_cache` -/

/-- The loop of `_op_free_cache`. -/
theorem dropNodes_spec {op : Mempool} {ks : List NodeRef} {c : CacheRef} (hlist : op.nodeList.IsList ks)
    (n : Nat) (hfree : ∀ i < n, (c, i) ∈ ks ∧ (op.node (c, i)).isUsed = false) :
    ∃ nodes ks', (List.range n).foldlM (dropNode c) op = some { op with nodeList := nodes } ∧
      nodes.IsList ks' ∧ ks'.length + n = ks.length ∧
      ∀ u, u ∈ ks' ↔ u ∈ ks ∧ ¬ (u.1 = c ∧ u.2 < n) := by
  induction n with
  | zero => exact ⟨op.nodeList, ks, rfl, hlist, rfl, by simp⟩
  | succ n ih =>
    obtain ⟨nodes, ks', hfold, hnodes, hlen, hmem⟩ := ih fun i hi => hfree i (by omega)
    obtain ⟨hin, hunused⟩ := hfree n (by omega)
    have hstill : (c, n) ∈ ks' := (hmem _).mpr ⟨hin, by simp⟩
    obtain ⟨nodes', hunlink, hnodes'⟩ := Links.isList_unlink hnodes hstill
    refine ⟨nodes', ks'.erase (c, n), ?_, hnodes', ?_, ?_⟩
    · rw [List.range_succ, List.foldlM_append, hfold]
      show (dropNode c { op with nodeList := nodes } n).bind some = _
      unfold dropNode
      rw [if_neg (by simp [hunused])]
      simp only [hunlink]
      rfl
    · have hpos := List.length_pos_of_mem hstill
      rw [List.length_erase_of_mem hstill]
      omega
    · intro u
      rw [hnodes.nodup.mem_erase_iff, hmem]
      obtain ⟨d, i⟩ := u
      simp only [ne_eq, Prod.mk.injEq]
      constructor
      · intro hu
        refine ⟨hu.2.1, fun hlt => ?_⟩
        have hi : i ≠ n := fun heq => hu.1 ⟨hlt.1, heq⟩
        exact hu.2.2 ⟨hlt.1, by omega⟩
      · intro hu
        exact ⟨fun heq => hu.2 ⟨heq.1, by omega⟩, hu.1, fun hlt => hu.2 ⟨hlt.1, by omega⟩⟩

/-- A cache that counts no used unit has none. -/
theorem PoolInv.unused {op : Mempool} {out ks : List NodeRef} {cs : List CacheRef} {c : CacheRef}
    (h : PoolInv op out ks cs) (hc : c ∈ cs) (hzero : (op.cache c).nused = 0) {i : Nat}
    (hi : i < op.incsize.toNat) : (op.node (c, i)).isUsed = false := by
  have hnone : op.usedOf c = 0 := by
    rw [← h.nused c hc, hzero]
    rfl
  have hnot := List.countP_eq_zero.mp hnone i (List.mem_range.mpr hi)
  simpa using hnot

/-- The units of the other caches. -/
theorem isUnit_erase {op : Mempool} {cs : List CacheRef} {c : CacheRef} {u : NodeRef} (hnodup : cs.Nodup) :
    u.1 ∈ cs.erase c ∧ u.2 < op.incsize.toNat ↔ op.IsUnit cs u ∧ u.1 ≠ c := by
  rw [hnodup.mem_erase_iff]
  unfold Mempool.IsUnit
  constructor
  · intro hu
    exact ⟨⟨hu.1.2, hu.2⟩, hu.1.1⟩
  · intro hu
    exact ⟨⟨hu.2, hu.1.1⟩, hu.1.2⟩

/-- What a call that takes a unit back may do to them. -/
structure Shrinks (op op' : Mempool) : Prop where
  incsize : op'.incsize = op.incsize
  nodesize : op'.nodesize = op.nodesize
  leaked : op'.leaked = op.leaked
  live : ∀ c, op'.live c = true → op.live c = true

/-- A cache without used units is linked out with all of its units. -/
theorem opFreeCache_spec {op : Mempool} {out ks : List NodeRef} {cs : List CacheRef} {c : CacheRef}
    (h : PoolInv op out ks cs) (hc : c ∈ cs) (hzero : (op.cache c).nused = 0) :
    ∃ op' ks', opFreeCache op c = some op' ∧ Shrinks op op' ∧ PoolInv op' out ks' (cs.erase c) := by
  have hunused : ∀ i < op.incsize.toNat, (op.node (c, i)).isUsed = false := fun i hi => h.unused hc hzero hi
  obtain ⟨caches, hunlink, hcaches⟩ := Links.isList_unlink h.caches hc
  have hgone : ∀ d, d ∈ cs.erase c ↔ d ≠ c ∧ d ∈ cs := fun d => h.caches.nodup.mem_erase_iff
  have hclear := Links.isList_clear hcaches fun hmem => ((hgone c).mp hmem).1 rfl
  obtain ⟨nodes, ks', hfold, hnodes, hlen, hmem⟩ :=
    @dropNodes_spec { op with cacheList := caches.clear c } ks c h.nodes op.incsize.toNat
      (fun i hi => ⟨(h.free (c, i)).mpr ⟨⟨hc, hi⟩, hunused i hi⟩, hunused i hi⟩)
  have hinc : op.incsize.toUInt32.toNat = op.incsize.toNat := UInt16.toNat_toUInt32 _
  have hlt : op.incsize.toNat < 2 ^ 16 := UInt16.toNat_lt _
  refine ⟨dropCache { op with cacheList := caches.clear c, nodeList := nodes } c, ks', ?_,
    ⟨rfl, rfl, rfl, fun d hd => ?_⟩, ?_⟩
  · unfold opFreeCache
    rw [if_neg (by simp [hzero, h.cacheMagic c hc]), hunlink, Option.bind_some, hfold]
    rfl
  · have hlive : Function.update op.live c false d = true := hd
    by_cases heq : d = c
    · rw [heq, Function.update_self] at hlive
      cases hlive
    · rwa [Function.update_of_ne heq] at hlive
  have hunit : ∀ u : NodeRef, u.1 ∈ cs.erase c ∧ u.2 < op.incsize.toNat ↔ op.IsUnit cs u ∧ u.1 ≠ c :=
    fun u => isUnit_erase h.caches.nodup
  constructor
  · constructor
    · exact hnodes
    · exact hclear
    · intro u
      rw [hmem, h.free]
      show _ ↔ (u.1 ∈ cs.erase c ∧ u.2 < op.incsize.toNat) ∧ _
      rw [hunit]
      constructor
      · intro hu
        exact ⟨⟨hu.1.1, fun heq => hu.2 ⟨heq, hu.1.1.2⟩⟩, hu.1.2⟩
      · intro hu
        exact ⟨⟨hu.1.1, hu.2⟩, fun hin => hu.1.2 hin.1⟩
    · show (op.nfreed - op.incsize.toUInt32).toNat = _
      rw [UInt32.toNat_sub, hinc, h.nfreed]
      omega
    · show (op.nalloced - op.incsize.toUInt32).toNat = (cs.erase c).length * op.incsize.toNat % 2 ^ 32
      have hpos := List.length_pos_of_mem hc
      have hmul : cs.length * op.incsize.toNat =
          (cs.erase c).length * op.incsize.toNat + op.incsize.toNat := by
        rw [List.length_erase_of_mem hc, ← Nat.succ_mul]
        congr 1
        omega
      rw [UInt32.toNat_sub, hinc, h.nalloced, hmul]
      omega
    · intro d hd
      exact (h.nused d ((hgone d).mp hd).2).trans (usedOf_off rfl fun _ => rfl)
  · exact h.inc_pos
  · exact h.room
  · intro d
    rw [hgone, h.live]
    show _ ↔ Function.update op.live c false d = true
    by_cases hd : d = c
    · simp [hd]
    · simp [hd]
  · intro u hu
    exact h.header u ((hunit u).mp hu).1
  · intro d hd
    exact h.cacheMagic d ((hgone d).mp hd).2
  · intro u
    rw [h.out_iff]
    show _ ↔ (u.1 ∈ cs.erase c ∧ u.2 < op.incsize.toNat) ∧ _
    rw [hunit]
    constructor
    · intro hu
      refine ⟨⟨hu.1, fun heq => ?_⟩, hu.2⟩
      have hfree := hunused u.2 hu.1.2
      rw [← heq] at hfree
      simp [hu.2] at hfree
    · intro hu
      exact ⟨hu.1.1, hu.2⟩
  · exact h.out_nodup

/-! ## Units -/

/-- Only `u` has changed, and only whether it is used. -/
theorem update_node {op : Mempool} {u v : NodeRef} {b : Bool} :
    Function.update op.node u { op.node u with isUsed := b } v =
      { op.node v with isUsed := if v = u then b else (op.node v).isUsed } := by
  by_cases hv : v = u
  · subst hv
    rw [Function.update_self, if_pos rfl]
  · rw [Function.update_of_ne hv, if_neg hv]

/-- From `op` to `op'` the unit `u` is marked, and `f` counts it in its cache. -/
structure Marks (op op' : Mempool) (u : NodeRef) (b : Bool) (f : UInt32 → UInt32) : Prop where
  node : ∀ v, op'.node v = { op.node v with isUsed := if v = u then b else (op.node v).isUsed }
  cache : ∀ c, op'.cache c =
    if c = u.1 then { op.cache c with nused := f (op.cache c).nused } else op.cache c
  incsize : op'.incsize = op.incsize
  self : op'.self = op.self
  magic : op'.magic = op.magic

section
variable {op op' : Mempool} {out ks : List NodeRef} {cs : List CacheRef} {u : NodeRef} {b : Bool}
  {f : UInt32 → UInt32}

theorem marks_cache (hc : (op.node u).cache = u.1) (c : CacheRef) :
    Function.update op.cache (op.node u).cache
        { op.cache (op.node u).cache with nused := f (op.cache (op.node u).cache).nused } c =
      if c = u.1 then { op.cache c with nused := f (op.cache c).nused } else op.cache c := by
  rw [hc, Function.update_apply]
  split
  · next heq => rw [heq]
  · rfl

theorem freeNode_marks (hc : (op.node u).cache = u.1) : Marks op (freeNode op u) u false (· - 1) :=
  ⟨fun _ => update_node, @marks_cache op u (· - 1) hc, rfl, rfl, rfl⟩

theorem takeNode_marks (hc : (op.node u).cache = u.1) : Marks op (takeNode op u) u true (· + 1) :=
  ⟨fun _ => update_node, @marks_cache op u (· + 1) hc, rfl, rfl, rfl⟩

namespace Marks
variable (hm : Marks op op' u b f)
include hm

theorem header (h : PoolInv op out ks cs) {v : NodeRef} (hv : op.IsUnit cs v) :
    (op'.node v).cache = v.1 ∧ (op'.node v).pool = op'.self ∧ (op'.node v).magic = op'.magic := by
  rw [hm.node, hm.self, hm.magic]
  exact h.header v hv

theorem cacheMagic (h : PoolInv op out ks cs) {c : CacheRef} (hmem : c ∈ cs) :
    (op'.cache c).magic = op'.magic := by
  rw [hm.cache, hm.magic]
  split
  · exact h.cacheMagic c hmem
  · exact h.cacheMagic c hmem

/-- The counters are right when that of the unit's cache is. -/
theorem nused (h : PoolInv op out ks cs) (hu : (f (op.cache u.1).nused).toNat = op'.usedOf u.1)
    {c : CacheRef} (hmem : c ∈ cs) : (op'.cache c).nused.toNat = op'.usedOf c := by
  rw [hm.cache]
  by_cases heq : c = u.1
  · subst heq
    rw [if_pos rfl]
    exact hu
  · rw [if_neg heq, h.nused c hmem]
    symm
    apply usedOf_off hm.incsize
    intro i
    have hne : (c, i) ≠ u := fun hcu => heq (congrArg Prod.fst hcu)
    simp [hm.node, hne]

end Marks

/-- A used unit goes back to the free list. -/
theorem freeNode_inv (h : PoolInv op out ks cs) (hu : u ∈ out) :
    PoolInv (freeNode op u) (out.erase u) (u :: ks) cs := by
  obtain ⟨hunit, hused⟩ := (h.out_iff u).mp hu
  have hmarks := freeNode_marks (h.header u hunit).1
  have hks : u ∉ ks := fun hmem => by simp [((h.free u).mp hmem).2] at hused
  constructor
  · constructor
    · exact Links.isList_push h.nodes hks
    · exact h.caches
    · intro v
      rw [List.mem_cons, h.free, hmarks.node]
      show _ ↔ op.IsUnit cs v ∧ _
      by_cases hv : v = u
      · subst hv
        simp [hunit]
      · simp [hv]
    · show (op.nfreed + 1).toNat = _
      rw [UInt32.toNat_add, h.nfreed, List.length_cons]
      show (_ + 1) % _ = _
      omega
    · exact h.nalloced
    · intro c hmem
      apply hmarks.nused h _ hmem
      have hflip := @usedOf_flip (freeNode op u) u op rfl hunit.2 (by simp [hmarks.node]) hused
        (fun v hv => by simp [hmarks.node, hv])
      have hle := usedOf_le op u.1
      have hlt : op.incsize.toNat < 2 ^ 16 := UInt16.toNat_lt _
      rw [UInt32.toNat_sub, h.nused _ hunit.1, hflip]
      show (2 ^ 32 - 1 + _) % _ = _
      omega
  · exact h.inc_pos
  · exact h.room
  · exact h.live
  · exact fun v hv => hmarks.header h hv
  · exact fun c hmem => hmarks.cacheMagic h hmem
  · intro v
    rw [h.out_nodup.mem_erase_iff, h.out_iff, hmarks.node]
    show _ ↔ op.IsUnit cs v ∧ _
    by_cases hv : v = u
    · simp [hv]
    · simp [hv]
  · exact h.out_nodup.erase u

end

/-- `_op_put_node` on a unit that is handed out. -/
theorem opPutNode_spec {op : Mempool} {out ks : List NodeRef} {cs : List CacheRef} {u : NodeRef}
    (h : PoolInv op out ks cs) (hu : u ∈ out) :
    ∃ op' ks' cs', opPutNode op u = some op' ∧ Shrinks op op' ∧ PoolInv op' (out.erase u) ks' cs' := by
  obtain ⟨hunit, hused⟩ := (h.out_iff u).mp hu
  obtain ⟨hc, -, hmagic⟩ := h.header u hunit
  have hinv := freeNode_inv h hu
  unfold opPutNode
  rw [hc, if_neg (by simp [hmagic, h.cacheMagic u.1 hunit.1, hused])]
  dsimp only
  by_cases hrelease : ((freeNode op u).cache u.1).nused = 0 ∧
      2 * (freeNode op u).incsize.toUInt32 < (freeNode op u).nfreed
  · rw [if_pos hrelease]
    obtain ⟨op', ks', heq, hshrinks, hinv'⟩ := opFreeCache_spec hinv hunit.1 hrelease.1
    exact ⟨op', ks', _, heq, ⟨hshrinks.incsize, hshrinks.nodesize, hshrinks.leaked, hshrinks.live⟩, hinv'⟩
  · rw [if_neg hrelease]
    exact ⟨_, _, _, rfl, ⟨rfl, rfl, rfl, fun _ hd => hd⟩, hinv⟩

/-- The first free unit is handed out. -/
theorem takeNode_inv {op : Mempool} {out ks : List NodeRef} {cs : List CacheRef} {u : NodeRef}
    (h : PoolInv op out (u :: ks) cs) : PoolInv (takeNode op u) (u :: out) ks cs := by
  obtain ⟨hunit, hfree⟩ := (h.free u).mp List.mem_cons_self
  have hmarks := takeNode_marks (h.header u hunit).1
  have hks : u ∉ ks := (List.nodup_cons.mp h.nodes.nodup).1
  have hout : u ∉ out := fun hmem => by simp [((h.out_iff u).mp hmem).2] at hfree
  constructor
  · constructor
    · exact Links.isList_clear (Links.isList_pop h.nodes) hks
    · exact h.caches
    · intro v
      have hv := h.free v
      rw [List.mem_cons] at hv
      rw [hmarks.node]
      show _ ↔ op.IsUnit cs v ∧ _
      by_cases heq : v = u
      · subst heq
        simp [hks]
      · simp only [heq, false_or, if_false] at hv ⊢
        exact hv
    · show (op.nfreed - 1).toNat = _
      have hlen := h.nfreed
      rw [List.length_cons] at hlen
      rw [UInt32.toNat_sub, hlen]
      show (2 ^ 32 - 1 + _) % _ = _
      omega
    · exact h.nalloced
    · intro c hmem
      apply hmarks.nused h _ hmem
      have hflip := @usedOf_flip op u (takeNode op u) rfl hunit.2 hfree (by simp [hmarks.node])
        (fun v hv => by simp [hmarks.node, hv])
      have hle := usedOf_le (takeNode op u) u.1
      have hlt : (takeNode op u).incsize.toNat < 2 ^ 16 := UInt16.toNat_lt _
      rw [UInt32.toNat_add, h.nused _ hunit.1, hflip]
      show (_ + 1) % _ = _
      omega
  · exact h.inc_pos
  · exact h.room
  · exact h.live
  · exact fun v hv => hmarks.header h hv
  · exact fun c hmem => hmarks.cacheMagic h hmem
  · intro v
    rw [List.mem_cons, h.out_iff, hmarks.node]
    show _ ↔ op.IsUnit cs v ∧ _
    by_cases hv : v = u
    · subst hv
      simp [hunit]
    · simp [hv]
  · exact List.nodup_cons.mpr ⟨hout, h.out_nodup⟩

/-- `mempool_get` fails, or hands out a unit that was free. -/
theorem mempoolGet_spec {op : Mempool} {out ks : List NodeRef} {cs : List CacheRef} {m : Malloc}
    (h : PoolInv op out ks cs) (hm : m.Fresh op) :
    (¬ m.Serves op ∧ mempoolGet op m = some (none, op.leak m)) ∨
    ∃ u op' ks' cs', mempoolGet op m = some (some u, op') ∧ Grows op m op' ∧ u ∉ out ∧
      PoolInv op' (u :: out) ks' cs' := by
  -- the pool with a free unit in front
  have htake : ∀ {op₁ ks₁ cs₁}, Grows op m op₁ → PoolInv op₁ out ks₁ cs₁ → ks₁ ≠ [] →
      ∃ u op' ks' cs', takeFirst op₁ = some (some u, op') ∧ Grows op m op' ∧ u ∉ out ∧
        PoolInv op' (u :: out) ks' cs' := by
    intro op₁ ks₁ cs₁ hgrows h₁ hne
    obtain ⟨u, ks₁, rfl⟩ := List.exists_cons_of_ne_nil hne
    have hhead : op₁.nodeList.head = some u := Links.chain_head h₁.nodes.chain
    have hinv := takeNode_inv h₁
    rw [takeFirst, hhead]
    exact ⟨u, _, ks₁, cs₁, rfl, ⟨hgrows.incsize, hgrows.nodesize, hgrows.leaked, hgrows.live⟩,
      (List.nodup_cons.mp hinv.out_nodup).1, hinv⟩
  unfold mempoolGet
  by_cases hzero : op.nfreed = 0
  · rw [if_pos hzero]
    rcases opAllocCache_spec h hm with ⟨hserves, heq⟩ | ⟨c, op₁, heq, hgrows, hinv⟩
    · left
      rw [heq]
      exact ⟨hserves, rfl⟩
    · right
      have hpos := h.inc_pos
      have htaken := htake hgrows hinv (by
        intro hnil
        have hlen := congrArg List.length hnil
        rw [List.length_append, length_unitsOf, List.length_nil] at hlen
        omega)
      rw [heq]
      exact htaken
  · right
    rw [if_neg hzero]
    apply htake ⟨rfl, rfl, rfl, fun c hc => Or.inl hc⟩ h
    intro hnil
    apply hzero
    apply UInt32.toNat_inj.mp
    rw [h.nfreed, hnil]
    rfl

/-! ## A new pool -/

theorem toNat_nodesize {memsize : Nat} (h : opAlign memsize + opAlign sizeofNode < 2 ^ 16) :
    (UInt16.ofNat ((UInt16.ofNat (opAlign memsize)).toNat + opAlign sizeofNode)).toNat =
      opAlign memsize + opAlign sizeofNode := by
  rw [UInt16.toNat_ofNat', UInt16.toNat_ofNat']
  omega

theorem toNat_incsize {incsize : Nat} (h : incsize < 2 ^ 16) :
    (UInt16.ofInt (incsize : Int)).toNat = incsize := by
  show (UInt16.ofNat ((incsize : Int) % 2 ^ 16).toNat).toNat = incsize
  rw [UInt16.toNat_ofNat']
  omega

/-- There is nothing in it yet. -/
theorem emptyPool_inv {self : Nat} {now : UInt32} {memsize incsize : Nat}
    (hsize : opAlign memsize + opAlign sizeofNode < 2 ^ 16) (hpos : 1 ≤ incsize)
    (hlt : incsize < 2 ^ 16) : PoolInv (emptyPool self now memsize incsize) [] [] [] := by
  have hroom : sizeofNode ≤ opAlign sizeofNode := by decide
  have hlive : ∀ c, (emptyPool self now memsize incsize).live c = false := fun _ => rfl
  constructor
  · constructor
    · exact Links.isList_empty
    · exact Links.isList_empty
    · simp [Mempool.IsUnit]
    · rfl
    · show 0 = 0 * _ % _
      rw [Nat.zero_mul, Nat.zero_mod]
    · simp
  · show 0 < (UInt16.ofInt (incsize : Int)).toNat
    rw [toNat_incsize hlt]
    omega
  · show sizeofNode ≤ (UInt16.ofNat _).toNat
    rw [toNat_nodesize hsize]
    omega
  · simp [hlive]
  · simp [Mempool.IsUnit]
  · simp
  · simp [Mempool.IsUnit]
  · exact List.nodup_nil

theorem PoolInv.lock {op : Mempool} {out ks : List NodeRef} {cs : List CacheRef}
    (h : PoolInv op out ks cs) (locked : Bool) : PoolInv { op with needLock := locked } out ks cs :=
  { h with
    nodes := h.nodes, caches := h.caches, free := h.free, nfreed := h.nfreed
    nalloced := h.nalloced, nused := h.nused }

/-- `mempool_alloc` fails, or builds a pool that is well formed. -/
theorem mempoolAlloc_spec {now : UInt32} {memsize incsize self : Nat} {locked : Bool} {m : Malloc}
    (hmem : 1 ≤ memsize) (hsize : opAlign memsize + opAlign sizeofNode < 2 ^ 16) (hpos : 1 ≤ incsize)
    (hlt : incsize < 2 ^ 16) :
    let created := mempoolAlloc (some self) now memsize incsize locked m
    (created = some none ∧ ¬ ((∃ c, m = .both c) ∧
      ¬ toInt32 ((opAlign memsize + opAlign sizeofNode) * incsize : Nat) < 0)) ∨
    ∃ op, created = some (some op) ∧ op.incsize.toNat = incsize ∧
      op.nodesize.toNat = opAlign memsize + opAlign sizeofNode ∧ op.leaked = [] ∧
      ¬ toInt32 (op.nodesize.toNat * op.incsize.toNat : Nat) < 0 ∧
      (∀ c, op.live c = true → m = .both c) ∧ ∃ ks cs, PoolInv op [] ks cs := by
  intro created
  have hone : (if (incsize : Int) < 1 then memPOOL_INC_SIZE else incsize) = incsize :=
    if_neg (by omega)
  have hcreated : created = withFirstCache (emptyPool self now memsize incsize) locked m := by
    show mempoolAlloc _ _ _ _ _ _ = _
    unfold mempoolAlloc
    simp only [hone, if_neg (show ¬ memsize < 1 by omega)]
  have hinc : (emptyPool self now memsize incsize).incsize.toNat = incsize := toNat_incsize hlt
  have hnode := toNat_nodesize hsize
  have hinv := @emptyPool_inv self now _ _ hsize hpos hlt
  have hfresh : m.Fresh (emptyPool self now memsize incsize) := by
    cases m with
    | noCache => trivial
    | noPool c => exact ⟨rfl, List.not_mem_nil⟩
    | both c => exact ⟨rfl, List.not_mem_nil⟩
  rcases opAllocCache_spec hinv hfresh with ⟨hserves, heq⟩ | ⟨c, op, heq, hgrows, hop⟩
  · left
    rw [hcreated, withFirstCache, heq]
    refine ⟨rfl, fun hfits => hserves ⟨hfits.1, ?_⟩⟩
    rw [hinc]
    show ¬ toInt32 ((UInt16.ofNat _).toNat * incsize : Nat) < 0
    rw [hnode]
    exact hfits.2
  · right
    rw [hcreated, withFirstCache, heq]
    refine ⟨_, rfl, ?_, ?_, hgrows.leaked, ?_, ?_, _, _, hop.lock locked⟩
    · exact (congrArg UInt16.toNat hgrows.incsize).trans hinc
    · exact (congrArg UInt16.toNat hgrows.nodesize).trans hnode
    · show ¬ toInt32 (op.nodesize.toNat * op.incsize.toNat : Nat) < 0
      rw [hgrows.incsize, hgrows.nodesize]
      exact opAllocCache_fits heq
    · intro d hd
      rcases hgrows.live d hd with hold | hnew
      · cases hold
      · exact hnew

/-! ## Runs -/

/-- A pool and the units its users hold. -/
structure PoolUse where
  pool : Mempool
  out : List NodeRef

inductive PoolCall where
  | get (m : Malloc)
  | put (u : NodeRef)
  | put1 (u : NodeRef)

/-- Only a unit that is held may be put back, and `malloc` gives memory that is
not in use. -/
def PoolCall.Allowed (use : PoolUse) : PoolCall → Prop
  | .get m => m.Fresh use.pool
  | .put u => u ∈ use.out
  | .put1 u => u ∈ use.out

instance (use : PoolUse) (call : PoolCall) : Decidable (call.Allowed use) :=
  match call with
  | .get m => inferInstanceAs (Decidable (m.Fresh use.pool))
  | .put u => inferInstanceAs (Decidable (u ∈ use.out))
  | .put1 u => inferInstanceAs (Decidable (u ∈ use.out))

def poolCall (use : PoolUse) : PoolCall → Option PoolUse
  | .get m => (mempoolGet use.pool m).map fun r => { pool := r.2, out := r.1.toList ++ use.out }
  | .put u => (mempoolPut use.pool u).map fun op => { pool := op, out := use.out.erase u }
  | .put1 u => (mempoolPut1 use.pool u).map fun op => { pool := op, out := use.out.erase u }

/-- The calls on the pool `op`; the state is `none` behind a call that went wrong. -/
def poolMachine (op : Mempool) : Machine (Option PoolUse) PoolCall where
  init := some { pool := op, out := [] }
  step s call :=
    match s with
    | none => some none
    | some use => if call.Allowed use then some (poolCall use call) else none

/-- No call has gone wrong, and the pool is as it should be. -/
def PoolKept (s : Option PoolUse) : Prop :=
  ∃ use ks cs, s = some use ∧ PoolInv use.pool use.out ks cs

/-- A call that is allowed goes well, and the sizes stay. -/
theorem poolCall_spec {use : PoolUse} {call : PoolCall} {ks : List NodeRef} {cs : List CacheRef}
    (h : PoolInv use.pool use.out ks cs) (hcall : call.Allowed use) :
    ∃ use' ks' cs', poolCall use call = some use' ∧
      (use'.pool.incsize = use.pool.incsize ∧ use'.pool.nodesize = use.pool.nodesize) ∧
      PoolInv use'.pool use'.out ks' cs' := by
  cases call with
  | get m =>
    rcases mempoolGet_spec h hcall with ⟨-, heq⟩ | ⟨u, op', ks', cs', heq, hgrows, -, hinv⟩
    · exact ⟨{ use with pool := use.pool.leak m }, ks, cs, by simp [poolCall, heq], ⟨rfl, rfl⟩, h.leak m⟩
    · exact ⟨{ pool := op', out := u :: use.out }, ks', cs', by simp [poolCall, heq],
        ⟨hgrows.incsize, hgrows.nodesize⟩, hinv⟩
  | put u =>
    obtain ⟨op', ks', cs', heq, hshrinks, hinv⟩ := opPutNode_spec h hcall
    have hself := (h.header u ((h.out_iff u).mp hcall).1).2.1
    refine ⟨{ pool := op', out := use.out.erase u }, ks', cs', ?_, ⟨hshrinks.incsize, hshrinks.nodesize⟩, hinv⟩
    simp [poolCall, mempoolPut, hself, heq]
  | put1 u =>
    obtain ⟨op', ks', cs', heq, hshrinks, hinv⟩ := opPutNode_spec h hcall
    exact ⟨{ pool := op', out := use.out.erase u }, ks', cs', by simp [poolCall, mempoolPut1, heq],
      ⟨hshrinks.incsize, hshrinks.nodesize⟩, hinv⟩

theorem poolCall_kept {use : PoolUse} {call : PoolCall} {ks : List NodeRef} {cs : List CacheRef}
    (h : PoolInv use.pool use.out ks cs) (hcall : call.Allowed use) : PoolKept (poolCall use call) := by
  obtain ⟨use', ks', cs', heq, -, hinv⟩ := poolCall_spec h hcall
  exact ⟨use', ks', cs', heq, hinv⟩

theorem poolStep_kept {op : Mempool} (s : Option PoolUse) (call : PoolCall) (s' : Option PoolUse)
    (h : PoolKept s) (hstep : (poolMachine op).step s call = some s') : PoolKept s' := by
  obtain ⟨use, ks, cs, rfl, hinv⟩ := h
  have heq : (if call.Allowed use then some (poolCall use call) else none) = some s' := hstep
  by_cases hcall : call.Allowed use
  · rw [if_pos hcall] at heq
    cases heq
    exact poolCall_kept hinv hcall
  · rw [if_neg hcall] at heq
    cases heq

/-- **The pool over every run.** No call goes wrong, the free list and the
counters are what they should be after each, and a unit that `mempool_get`
returns is not held by anyone and belongs to a cache that is not released. -/
theorem mempool_run (self : Option Nat) (now : UInt32) (memsize incsize : Nat) (locked : Bool)
    (m : Malloc) (op : Mempool) (hinc : 1 ≤ incsize ∧ incsize ≤ 65535)
    (hsize : opAlign memsize + opAlign sizeofNode < 2 ^ 16)
    (hop : mempoolAlloc self now memsize incsize locked m = some (some op))
    (calls : List PoolCall) (s : Option PoolUse)
    (hrun : (poolMachine op).run (poolMachine op).init calls = some s) :
    ∃ use, s = some use ∧ (∃ ks cs, WellFormed use.pool ks cs) ∧
      ∀ m : Malloc, m.Fresh use.pool → ∃ r, mempoolGet use.pool m = some r ∧
        ∀ u, r.1 = some u → u ∉ use.out ∧ r.2.live u.1 = true := by
  have hmem : 1 ≤ memsize := by
    apply Decidable.byContradiction
    intro hzero
    unfold mempoolAlloc at hop
    rw [if_pos (by omega)] at hop
    cases hop
  obtain ⟨self, rfl⟩ : ∃ a, self = some a := by
    cases self with
    | none =>
      unfold mempoolAlloc at hop
      rw [if_neg (by omega)] at hop
      cases hop
    | some a => exact ⟨a, rfl⟩
  have hinit : PoolKept (poolMachine op).init := by
    rcases @mempoolAlloc_spec now memsize incsize self locked m hmem hsize hinc.1 (by omega) with
      ⟨hnone, -⟩ | ⟨op', heq, -, -, -, -, -, ks, cs, hinv⟩
    · rw [hop] at hnone
      cases hnone
    · rw [hop] at heq
      cases heq
      exact ⟨{ pool := op, out := [] }, ks, cs, rfl, hinv⟩
  obtain ⟨use, ks, cs, rfl, hinv⟩ := Machine.run_inv' poolStep_kept hinit hrun
  refine ⟨use, rfl, ⟨ks, cs, hinv.toWellFormed⟩, ?_⟩
  intro m hm
  rcases mempoolGet_spec hinv hm with ⟨-, heq⟩ | ⟨u, op', ks', cs', heq, -, hout, hinv'⟩
  · exact ⟨_, heq, fun u hu => by cases hu⟩
  · refine ⟨_, heq, ?_⟩
    intro v hv
    cases hv
    have hunit := (hinv'.out_iff u).mp List.mem_cons_self
    exact ⟨hout, (hinv'.live u.1).mp hunit.1.1⟩

/-- A pool with two units to a cache. -/
def pairPool : Mempool :=
  ((mempoolAlloc (some 7) 0 8 2 false (.both 0)).join).getD (emptyPool 7 0 8 2)

/-- Six units are taken from three caches and a seventh is refused, with a header
left; then all are put back, and the last cache goes. -/
def pairCalls : List PoolCall :=
  [.get .noCache, .get .noCache, .get (.both 1), .get .noCache, .get (.both 2), .get .noCache, .get (.noPool 3),
    .put (0, 1), .put1 (0, 0), .put (1, 1), .put1 (1, 0), .put (2, 1), .put1 (2, 0)]

def pairUse : Option PoolUse :=
  some (((poolMachine pairPool).run (poolMachine pairPool).init pairCalls).join.getD
    { pool := pairPool, out := [] })

theorem some_join {α : Type} {x : Option (Option α)} (a : α) (h : x.join.isSome = true) :
    x = some (some (x.join.getD a)) := by
  match x, h with
  | some (some _), _ => rfl

theorem mempool_run_pair :
    ∃ use, pairUse = some use ∧ (∃ ks cs, WellFormed use.pool ks cs) ∧
      ∀ m : Malloc, m.Fresh use.pool → ∃ r, mempoolGet use.pool m = some r ∧
        ∀ u, r.1 = some u → u ∉ use.out ∧ r.2.live u.1 = true :=
  mempool_run (some 7) 0 8 2 false (.both 0) pairPool (by decide) (by decide)
    (some_join _ (by decide +kernel)) pairCalls pairUse (some_join _ (by decide +kernel))

/-! ## 2 ^ 32 units -/

/-- The units that are held are units of the pool. -/
theorem length_out_le {op : Mempool} {out ks : List NodeRef} {cs : List CacheRef}
    (h : PoolInv op out ks cs) : out.length ≤ cs.length * op.incsize.toNat := by
  have hsub : out ⊆ cs ×ˢ List.range op.incsize.toNat := by
    intro u hu
    have hunit := ((h.out_iff u).mp hu).1
    exact List.mem_product.mpr ⟨hunit.1, List.mem_range.mpr hunit.2⟩
  have hle := (List.subperm_of_subset h.out_nodup hsub).length_le
  rw [List.length_product, List.length_range] at hle
  exact hle

/-- Unit after unit is taken, and there is memory for each. -/
def takeCalls (n : Nat) : List PoolCall := (List.range n).map fun i => .get (.both (i + 1))

theorem takeCalls_run {op : Mempool} {ks : List NodeRef} {cs : List CacheRef} (h : PoolInv op [] ks cs)
    (hlive : ∀ c, op.live c = true → c = 0) (hleaked : op.leaked = [])
    (hfits : ¬ toInt32 (op.nodesize.toNat * op.incsize.toNat : Nat) < 0) (n : Nat) :
    ∃ use ks cs, (poolMachine op).run (poolMachine op).init (takeCalls n) = some (some use) ∧
      PoolInv use.pool use.out ks cs ∧ use.out.length = n ∧
      use.pool.incsize = op.incsize ∧ use.pool.nodesize = op.nodesize ∧ use.pool.leaked = [] ∧
      ∀ c, use.pool.live c = true → c ≤ n := by
  induction n with
  | zero =>
    refine ⟨{ pool := op, out := [] }, ks, cs, rfl, h, rfl, rfl, rfl, hleaked, ?_⟩
    intro c hc
    exact Nat.le_of_eq (hlive c hc)
  | succ n ih =>
    obtain ⟨use, ks, cs, hrun, hinv, hlen, hinc, hnode, hnone, hbound⟩ := ih
    have hfresh : (Malloc.both (n + 1)).Fresh use.pool := by
      refine ⟨Bool.eq_false_iff.mpr fun hc => Nat.not_succ_le_self n (hbound _ hc), ?_⟩
      rw [hnone]
      exact List.not_mem_nil
    have hsplit : takeCalls (n + 1) = takeCalls n ++ [.get (.both (n + 1))] := by
      simp [takeCalls, List.range_succ]
    rcases mempoolGet_spec hinv hfresh with ⟨hserves, -⟩ | ⟨u, op', ks', cs', heq, hgrows, -, hinv'⟩
    · exfalso
      apply hserves
      refine ⟨⟨n + 1, rfl⟩, ?_⟩
      rw [hinc, hnode]
      exact hfits
    · refine ⟨{ pool := op', out := u :: use.out }, ks', cs', ?_, hinv', ?_, ?_, ?_, ?_, ?_⟩
      · have hallowed : (PoolCall.get (.both (n + 1))).Allowed use := hfresh
        have hstep : (poolMachine op).step (some use) (.get (.both (n + 1))) =
            some (some { pool := op', out := u :: use.out }) := by
          show (if _ then _ else none) = _
          rw [if_pos hallowed]
          simp [poolCall, heq]
        rw [hsplit, Machine.run_append, hrun, Option.bind_some, Machine.run, hstep]
        rfl
      · rw [List.length_cons, hlen]
      · exact hgrows.incsize.trans hinc
      · exact hgrows.nodesize.trans hnode
      · exact hgrows.leaked.trans hnone
      · intro c hc
        rcases hgrows.live c hc with hold | hnew
        · exact Nat.le_succ_of_le (hbound c hold)
        · cases hnew
          exact Nat.le_refl _

/-- With 2 ^ 32 units of 8 bytes taken from a pool, `nalloced` has gone round. -/
theorem nalloced_wraps : ∃ op use,
    mempoolAlloc (some 7) 0 8 65535 false (.both 0) = some (some op) ∧
    (poolMachine op).run (poolMachine op).init (takeCalls (2 ^ 32)) = some (some use) ∧
    ∀ cs, use.pool.cacheList.IsList cs →
      use.pool.nalloced.toNat ≠ cs.length * use.pool.incsize.toNat := by
  rcases @mempoolAlloc_spec 0 8 65535 7 false (.both 0) (by decide) (by decide) (by decide) (by decide)
    with ⟨-, hfails⟩ | ⟨op, heq, hinc, hnode, hleaked, hfits, hlive, ks, cs, hinv⟩
  · exact absurd ⟨⟨0, rfl⟩, by decide⟩ hfails
  · have hzero : ∀ c, op.live c = true → c = 0 := by
      intro c hc
      cases hlive c hc
      rfl
    obtain ⟨use, ks', cs', hrun, hinv', hlen, -⟩ :=
      takeCalls_run hinv hzero hleaked hfits (2 ^ 32)
    refine ⟨op, use, heq, hrun, ?_⟩
    intro ds hds
    have hds' : ds = cs' := Links.chain_unique hds.chain hinv'.caches.chain
    have hle := length_out_le hinv'
    have hlt : use.pool.nalloced.toNat < 2 ^ 32 := UInt32.toNat_lt _
    rw [hds']
    omega

end WafProxy
