import Mathlib.Order.CompletePartialOrder
import Mathlib.Order.Interval.Set.Disjoint
import WafProxy.PoolRun

/-
  The memory of the units — mempool.c

  A unit is handed out as the memory behind its header. The sizes from which its
  address is computed are fields of 16 bits: `memsize` rounded up, that and the
  header (`nodesize`), and the number of units in a cache (`incsize`).

  What is proved:
    1. `units_apart` — in a pool with the right unit size the units handed out lie
       apart from each other, each inside the block of a cache.
    2. `pool_units` — so they do in every run.
    3. `sizes_iff` — the pool keeps to this and refuses what its fields cannot
       hold exactly if they can hold the sizes, or if what is left of them asks
       `malloc` for a negative size.
-/

namespace WafProxy
open Lib

/-! ## Where a unit lies -/

/-- The block of a cache that `malloc` has put at `base c`. -/
def blockBytes (op : Mempool) (base : CacheRef → Nat) (c : CacheRef) : Set Nat :=
  Set.Ico (base c) (base c + op.nodesize.toNat * op.incsize.toNat)

/-- `memsize` bytes from the address on that `mempool_get` returns. -/
def unitBytes (op : Mempool) (base : CacheRef → Nat) (memsize : Nat) (u : NodeRef) : Set Nat :=
  Set.Ico (base u.1 + u.2 * op.nodesize.toNat + opAlign sizeofNode)
    (base u.1 + u.2 * op.nodesize.toNat + opAlign sizeofNode + memsize)

/-- Blocks that are in use are apart. -/
def BlocksApart (op : Mempool) (base : CacheRef → Nat) : Prop :=
  ∀ c d, op.live c = true → op.live d = true → c ≠ d → Disjoint (blockBytes op base c) (blockBytes op base d)

/-- What the users of the units `out` rely on. -/
structure UnitsApart (use : PoolUse) (base : CacheRef → Nat) (memsize : Nat) : Prop where
  inside : ∀ u ∈ use.out, use.pool.live u.1 = true ∧
    unitBytes use.pool base memsize u ⊆ blockBytes use.pool base u.1
  apart : use.out.Pairwise fun u v => Disjoint (unitBytes use.pool base memsize u)
    (unitBytes use.pool base memsize v)

theorem opAlign_le (n : Nat) : n ≤ opAlign n := by
  unfold opAlign
  omega

section
variable {op : Mempool} {base : CacheRef → Nat} {memsize : Nat}

/-- A unit lies in its part of the block. -/
theorem unitBytes_subset (hsize : op.nodesize.toNat = opAlign memsize + opAlign sizeofNode) {u : NodeRef}
    (hu : u.2 < op.incsize.toNat) : unitBytes op base memsize u ⊆ blockBytes op base u.1 := by
  have hle := opAlign_le memsize
  have hend := Nat.mul_le_mul_right op.nodesize.toNat (Nat.succ_le_of_lt hu)
  rw [Nat.succ_mul, Nat.mul_comm op.incsize.toNat] at hend
  exact Set.Ico_subset_Ico (by omega) (by omega)

/-- Two parts of one block do not meet. -/
theorem unitBytes_disjoint (hsize : op.nodesize.toNat = opAlign memsize + opAlign sizeofNode) {c : CacheRef}
    {i j : Nat} (h : i < j) : Disjoint (unitBytes op base memsize (c, i)) (unitBytes op base memsize (c, j)) := by
  have hle := opAlign_le memsize
  have hend := Nat.mul_le_mul_right op.nodesize.toNat (Nat.succ_le_of_lt h)
  rw [Nat.succ_mul] at hend
  unfold unitBytes
  rw [Set.Ico_disjoint_Ico]
  dsimp only
  omega

/-- **The units that are handed out lie apart**, each in the block of a cache. -/
theorem units_apart {out ks : List NodeRef} {cs : List CacheRef} (h : PoolInv op out ks cs)
    (hsize : op.nodesize.toNat = opAlign memsize + opAlign sizeofNode) (hbase : BlocksApart op base) :
    UnitsApart { pool := op, out := out } base memsize := by
  have hunit : ∀ u ∈ out, op.live u.1 = true ∧ u.2 < op.incsize.toNat := by
    intro u hu
    obtain ⟨hcache, hlt⟩ := ((h.out_iff u).mp hu).1
    exact ⟨(h.live u.1).mp hcache, hlt⟩
  constructor
  · intro u hu
    exact ⟨(hunit u hu).1, unitBytes_subset hsize (hunit u hu).2⟩
  · apply h.out_nodup.imp_of_mem
    intro u v hu hv hne
    obtain ⟨c, i⟩ := u
    obtain ⟨d, j⟩ := v
    by_cases hcd : c = d
    · subst hcd
      rcases Nat.lt_trichotomy i j with hlt | heq | hgt
      · exact unitBytes_disjoint hsize hlt
      · exact absurd (congrArg (Prod.mk c) heq) hne
      · exact (unitBytes_disjoint hsize hgt).symm
    · exact (hbase c d (hunit _ hu).1 (hunit _ hv).1 hcd).mono (unitBytes_subset hsize (hunit _ hu).2)
        (unitBytes_subset hsize (hunit _ hv).2)

end

/-! ## Runs -/

/-- The pool is as it should be and has the sizes it was made with. -/
def SizesKept (op : Mempool) (s : Option PoolUse) : Prop :=
  ∃ use ks cs, s = some use ∧ (use.pool.incsize = op.incsize ∧ use.pool.nodesize = op.nodesize) ∧
    PoolInv use.pool use.out ks cs

theorem poolStep_sizes {op : Mempool} (s : Option PoolUse) (call : PoolCall) (s' : Option PoolUse)
    (h : SizesKept op s) (hstep : (poolMachine op).step s call = some s') : SizesKept op s' := by
  obtain ⟨use, ks, cs, rfl, hsizes, hinv⟩ := h
  have heq : (if call.Allowed use then some (poolCall use call) else none) = some s' := hstep
  by_cases hcall : call.Allowed use
  · rw [if_pos hcall] at heq
    obtain ⟨use', ks', cs', hcall', hkept, hinv'⟩ := poolCall_spec hinv hcall
    refine ⟨use', ks', cs', (Option.some.inj heq).symm.trans hcall', ?_, hinv'⟩
    exact ⟨hkept.1.trans hsizes.1, hkept.2.trans hsizes.2⟩
  · rw [if_neg hcall] at heq
    cases heq

/-- A unit with its header. -/
def unitSize (memsize : Nat) : Nat := opAlign memsize + opAlign sizeofNode

/-- The units of a cache that are asked for. -/
def cacheUnits (incsize : Int) : Int := if incsize < 1 then memPOOL_INC_SIZE else incsize

/-- The fields of 16 bits can hold the sizes. -/
def Representable (memsize : Nat) (incsize : Int) : Prop := unitSize memsize < 2 ^ 16 ∧ cacheUnits incsize < 2 ^ 16

theorem cacheUnits_pos (incsize : Int) : 0 < cacheUnits incsize := by
  unfold cacheUnits memPOOL_INC_SIZE
  split <;> omega

section
variable {self : Option Nat} {now : UInt32} {memsize : Nat} {incsize : Int} {locked : Bool} {m : Malloc}
  {op : Mempool}

/-- **The units in every run** of a pool whose fields hold its sizes. -/
theorem pool_units (hfits : Representable memsize incsize)
    (hop : mempoolAlloc self now memsize incsize locked m = some (some op)) (calls : List PoolCall)
    (s : Option PoolUse) (hrun : (poolMachine op).run (poolMachine op).init calls = some s) :
    ∃ use, s = some use ∧ ∀ base, BlocksApart use.pool base → UnitsApart use base memsize := by
  have hmem : 1 ≤ memsize := by
    apply Decidable.byContradiction
    intro hzero
    unfold mempoolAlloc at hop
    rw [if_pos (by omega)] at hop
    cases hop
  obtain ⟨self, rfl⟩ : ∃ a, self = some a := by
    cases self with
    | none =>
      unfold mempoolAlloc at hop
      rw [if_neg (by omega)] at hop
      cases hop
    | some a => exact ⟨a, rfl⟩
  have hpos := cacheUnits_pos incsize
  obtain ⟨n, hn⟩ := Int.eq_ofNat_of_zero_le (Int.le_of_lt hpos)
  have hlt := hfits.2
  rw [hn] at hpos hlt
  -- an increment below 1 stands for another one
  have hsame : mempoolAlloc (some self) now memsize incsize locked m =
    mempoolAlloc (some self) now memsize n locked m := by
    have hone : (if (n : Int) < 1 then memPOOL_INC_SIZE else (n : Int)) = n := if_neg (by omega)
    unfold mempoolAlloc
    dsimp only
    rw [hone, ← hn, cacheUnits]
  rw [hsame] at hop
  rcases @mempoolAlloc_spec now memsize n self locked m hmem hfits.1 (by omega) (by omega) with
    ⟨hnone, -⟩ | ⟨op', heq, -, hsize, -, -, -, ks, cs, hinv⟩
  · rw [hop] at hnone
    cases hnone
  · rw [hop] at heq
    cases heq
    have hinit : SizesKept op (poolMachine op).init := ⟨{ pool := op, out := [] }, ks, cs, rfl, ⟨rfl, rfl⟩, hinv⟩
    obtain ⟨use, ks', cs', rfl, hsizes, hinv'⟩ := Machine.run_inv' poolStep_sizes hinit hrun
    refine ⟨use, rfl, fun base hbase => ?_⟩
    exact units_apart hinv' ((congrArg UInt16.toNat hsizes.2).trans hsize) hbase

end

/-! ## Which sizes -/

/-- Two units of a pool never share memory, whatever the pool has been used for; and sizes that the fields of the
pool cannot hold are refused. -/
structure SizesRight (memsize : Nat) (incsize : Int) : Prop where
  units : ∀ self now locked m op, mempoolAlloc self now memsize incsize locked m = some (some op) →
    ∀ calls s, (poolMachine op).run (poolMachine op).init calls = some s →
      ∃ use, s = some use ∧ ∀ base, BlocksApart use.pool base → UnitsApart use base memsize
  refused : ¬ Representable memsize incsize → ∀ self now locked m,
    mempoolAlloc self now memsize incsize locked m = some none

/-- The size of a cache, computed from what the fields hold of the sizes, is negative as an `int`. -/
def TooLarge (memsize : Nat) (incsize : Int) : Prop :=
  2 ^ 31 ≤ unitSize memsize % 2 ^ 16 * (cacheUnits incsize % 2 ^ 16).toNat

theorem emptyPool_sizes (self : Nat) (now : UInt32) (memsize : Nat) (incsize : Int) :
    (emptyPool self now memsize incsize).nodesize.toNat = unitSize memsize % 2 ^ 16 ∧
      (emptyPool self now memsize incsize).incsize.toNat = (incsize % 2 ^ 16).toNat := by
  constructor
  · show (UInt16.ofNat ((UInt16.ofNat (opAlign memsize)).toNat + opAlign sizeofNode)).toNat = _
    rw [UInt16.toNat_ofNat', UInt16.toNat_ofNat', unitSize]
    omega
  · show (UInt16.ofNat (incsize % 2 ^ 16).toNat).toNat = _
    rw [UInt16.toNat_ofNat']
    omega

theorem toInt32_neg {n : Nat} (h : n < 2 ^ 32) : toInt32 n < 0 ↔ 2 ^ 31 ≤ n := by
  unfold toInt32
  rw [Int.bmod_def]
  split <;> omega

section
variable {now : UInt32} {memsize : Nat} {incsize : Int} {locked : Bool}

theorem mempoolAlloc_eq (hmem : 1 ≤ memsize) (self : Nat) (m : Malloc) :
    mempoolAlloc (some self) now memsize incsize locked m =
      withFirstCache (emptyPool self now memsize (cacheUnits incsize)) locked m := by
  unfold mempoolAlloc
  rw [if_neg (by omega)]
  rfl

/-- Whether the size of the first cache is negative. -/
theorem firstCache_neg (self : Nat) :
    toInt32 ((emptyPool self now memsize (cacheUnits incsize)).nodesize.toNat *
        (emptyPool self now memsize (cacheUnits incsize)).incsize.toNat : Nat) < 0 ↔ TooLarge memsize incsize := by
  obtain ⟨hnode, hinc⟩ := emptyPool_sizes self now memsize (cacheUnits incsize)
  have hlt : unitSize memsize % 2 ^ 16 * (cacheUnits incsize % 2 ^ 16).toNat < 2 ^ 32 :=
    Nat.lt_of_le_of_lt (Nat.mul_le_mul (show _ ≤ 65535 by omega) (show _ ≤ 65535 by omega)) (by decide)
  rw [hnode, hinc, toInt32_neg hlt, TooLarge]

theorem alloc_refused (hmem : 1 ≤ memsize) (hlarge : TooLarge memsize incsize) (self : Option Nat) (m : Malloc) :
    mempoolAlloc self now memsize incsize locked m = some none := by
  cases self with
  | none =>
    unfold mempoolAlloc
    rw [if_neg (by omega)]
  | some self =>
    rw [mempoolAlloc_eq hmem, withFirstCache]
    cases m with
    | noCache => rfl
    | noPool c => rfl
    | both c => rw [opAllocCache, if_pos ((firstCache_neg self).mpr hlarge)]

/-- With memory for a cache nothing is refused. -/
theorem alloc_served (hmem : 1 ≤ memsize) (hsmall : ¬ TooLarge memsize incsize) (self : Nat) (c : CacheRef) :
    mempoolAlloc (some self) now memsize incsize locked (.both c) ≠ some none := by
  rw [mempoolAlloc_eq hmem, withFirstCache, opAllocCache, if_neg (fun h => hsmall ((firstCache_neg self).mp h))]
  cases (List.range (emptyPool self now memsize (cacheUnits incsize)).incsize.toNat).foldlM (addNode c)
      (emptyPool self now memsize (cacheUnits incsize)) with
  | none => exact fun h => by cases h
  | some op => exact fun h => by cases h

end

/-- **The sizes of a pool** are right exactly if its fields can hold them, or if what they hold of them makes the
size of a cache negative, so that `malloc` refuses. -/
theorem sizes_iff {memsize : Nat} {incsize : Int} (hmem : 1 ≤ memsize) :
    SizesRight memsize incsize ↔ Representable memsize incsize ∨ TooLarge memsize incsize := by
  constructor
  · intro h
    by_cases hfits : Representable memsize incsize
    · exact Or.inl hfits
    · right
      by_contra hsmall
      exact @alloc_served 0 _ _ false hmem hsmall 0 0 (h.refused hfits (some 0) 0 false (.both 0))
  · intro h
    by_cases hlarge : TooLarge memsize incsize
    · constructor
      · intro self now locked m op hop
        rw [alloc_refused hmem hlarge] at hop
        cases hop
      · exact fun _ self now locked m => alloc_refused hmem hlarge self m
    · have hfits := h.resolve_right hlarge
      constructor
      · exact fun self now locked m op hop => pool_units hfits hop
      · exact fun hnot => absurd hfits hnot

/-- The pool of packets: units of `MAX_PKTLEN` bytes, `MAX_PKT_PRE` of them to a cache. -/
theorem sizes_packets : 1 ≤ 4096 ∧ SizesRight 4096 10000 := by
  refine ⟨by decide, (sizes_iff (by decide)).mpr (Or.inl ⟨by decide, by decide⟩)⟩

/-- A pool of 65536 bytes to a unit is made, and its units have no memory behind their headers. -/
theorem sizes_truncated : ∃ op, mempoolAlloc (some 0) 0 65536 1 false (.both 0) = some (some op) ∧
    op.nodesize = 40 ∧ ¬ SizesRight 65536 1 := by
  have hsome : (mempoolAlloc (some 0) 0 65536 1 false (.both 0)).join.isSome = true := by decide +kernel
  obtain ⟨op, hop⟩ := Option.isSome_iff_exists.mp hsome
  have hjoin : mempoolAlloc (some 0) 0 65536 1 false (.both 0) = some (some op) := Option.join_eq_some_iff.mp hop
  refine ⟨op, hjoin, ?_, ?_⟩
  · have hsize : (mempoolAlloc (some 0) 0 65536 1 false (.both 0)).join.map Mempool.nodesize = some 40 := by
      decide +kernel
    rw [hop] at hsize
    exact Option.some.inj hsize
  · intro h
    have hrefused := h.refused (fun hfits => absurd hfits.1 (by decide)) (some 0) 0 false (.both 0)
    rw [hjoin] at hrefused
    cases hrefused

end WafProxy
