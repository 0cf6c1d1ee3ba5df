import WafProxy.PoolRun

/-
  The memory a pool keeps — mempool.c

  `mempool_get` asks for another cache only when no unit is free, and
  `_op_put_node` releases the cache it has emptied when more than two caches of
  units are free. `mempool_free` gives back what is left: it walks `cache_list`
  and frees each cache behind the reading of its `next`.

  What is proved:
    1. `idle_units` — the units of a cache nobody uses are all free, so the free
       list is at least as long as these caches have units.
    2. `opPutNode_thrifty`, `mempoolGet_thrifty` — no call lets a third cache
       stand idle.
    3. `run_leaks` — a header without units is left by a `get` that was refused them.
    4. `pool_memory` — in every run the caches in memory are at most two more
       than the units handed out.
    5. `mempool_free_run` — and `mempool_free` frees each of them once, reads no
       freed one, and leaves none, but for the headers without units.

  Correspondence (C ↔ Lean):
    `_op_free_cache_list`   ↔ `opFreeCacheList` (its loop: `freeCaches`)
    `mempool_free`          ↔ `mempoolFree`
-/

namespace WafProxy
open Lib

/-! ## `mempool_free` -/

/-- The loop of `_op_free_cache_list`, with the caches it frees in their order.
`none`: a cache that is not allocated is read or freed, or the turns run out. -/
def freeCaches (next : CacheRef → Option CacheRef) :
    Nat → Option CacheRef → (CacheRef → Bool) → Option (List CacheRef × (CacheRef → Bool))
  | _, none, live => some ([], live)
  | 0, some _, _ => none
  | n + 1, some c, live =>
    if live c then
      (freeCaches next n (next c) (Function.update live c false)).map fun r => (c :: r.1, r.2)
    else none

/-- `_op_free_cache_list` in at most `n` turns. -/
def opFreeCacheList (n : Nat) (op : Mempool) : Option (List CacheRef × Mempool) :=
  (freeCaches op.cacheList.next n op.cacheList.head op.live).map fun r =>
    (r.1, { op with cacheList := { op.cacheList with head := none }, live := r.2 })

/-- `mempool_free` before it frees `op` itself. -/
def mempoolFree (n : Nat) (op : Mempool) : Option (List CacheRef × Mempool) := opFreeCacheList n op

/-- The caches of a chain are freed in turn. -/
theorem freeCaches_chain {L : Links CacheRef} : ∀ (cs : List CacheRef) {l : Link CacheRef} {live : CacheRef → Bool},
    L.Chain l cs → cs.Nodup → (∀ c ∈ cs, live c = true) → ∀ n, cs.length ≤ n →
    freeCaches L.next n (L.deref l) live = some (cs, fun c => live c && decide (c ∉ cs)) := by
  intro cs
  induction cs with
  | nil =>
    intro l live h _ _ n _
    have hend : L.deref l = none := h
    rw [hend, freeCaches]
    simp
  | cons c cs ih =>
    intro l live h hnodup hlive n hn
    obtain ⟨hc, -, hrest⟩ := h
    obtain ⟨hnot, hnodup'⟩ := List.nodup_cons.mp hnodup
    cases n with
    | zero => exact absurd hn (Nat.not_succ_le_zero _)
    | succ n =>
      have hlive' : ∀ d ∈ cs, Function.update live c false d = true := by
        intro d hd
        have hne : d ≠ c := fun heq => hnot (heq ▸ hd)
        rw [Function.update_of_ne hne]
        exact hlive d (List.mem_cons_of_mem _ hd)
      have hturn := ih hrest hnodup' hlive' n (Nat.le_of_succ_le_succ hn)
      have hnext : L.deref (.next c) = L.next c := rfl
      rw [hnext] at hturn
      rw [hc, freeCaches, if_pos (hlive c List.mem_cons_self), hturn, Option.map_some]
      congr 2
      funext d
      by_cases hd : d = c
      · simp [hd]
      · simp [hd]

/-! ## Caches nobody uses -/

/-- The caches no unit of which is handed out. -/
def idleCaches (out : List NodeRef) (cs : List CacheRef) : List CacheRef :=
  cs.filter fun c => decide (∀ u ∈ out, u.1 ≠ c)

section
variable {op : Mempool} {out ks : List NodeRef} {cs : List CacheRef} {u : NodeRef} {c : CacheRef}

theorem mem_idleCaches : c ∈ idleCaches out cs ↔ c ∈ cs ∧ ∀ u ∈ out, u.1 ≠ c := by
  simp [idleCaches]

theorem idleCaches_nodup (h : PoolInv op out ks cs) : (idleCaches out cs).Nodup :=
  h.caches.nodup.filter _

/-- Idle caches count no used unit. -/
theorem nused_idle (h : PoolInv op out ks cs) (hc : c ∈ idleCaches out cs) : (op.cache c).nused = 0 := by
  obtain ⟨hmem, hidle⟩ := mem_idleCaches.mp hc
  have hnone : op.usedOf c = 0 := by
    apply List.countP_eq_zero.mpr
    intro i hi hused
    have hout := (h.out_iff (c, i)).mpr ⟨⟨hmem, List.mem_range.mp hi⟩, hused⟩
    exact hidle _ hout rfl
  apply UInt32.toNat_inj.mp
  rw [h.nused c hmem, hnone]
  rfl

theorem idle_of_nused (h : PoolInv op out ks cs) (hc : c ∈ cs) (hzero : (op.cache c).nused = 0) :
    c ∈ idleCaches out cs := by
  refine mem_idleCaches.mpr ⟨hc, fun u hu heq => ?_⟩
  obtain ⟨hunit, hused⟩ := (h.out_iff u).mp hu
  have hfree := h.unused hc hzero hunit.2
  rw [← heq] at hfree
  simp [hused] at hfree

/-- What is free or not lies in the caches. -/
theorem free_le (h : PoolInv op out ks cs) : ks.length ≤ cs.length * op.incsize.toNat := by
  have hsub : ks ⊆ cs ×ˢ List.range op.incsize.toNat := by
    intro u hu
    have hunit := ((h.free u).mp hu).1
    exact List.mem_product.mpr ⟨hunit.1, List.mem_range.mpr hunit.2⟩
  have hle := (List.subperm_of_subset h.nodes.nodup hsub).length_le
  rw [List.length_product, List.length_range] at hle
  exact hle

/-- **The units of idle caches are free.** -/
theorem idle_units (h : PoolInv op out ks cs) :
    (idleCaches out cs).length * op.incsize.toNat ≤ ks.length := by
  have hsub : idleCaches out cs ×ˢ List.range op.incsize.toNat ⊆ ks := by
    intro u hu
    obtain ⟨hc, hi⟩ := List.mem_product.mp hu
    have hmem := (mem_idleCaches.mp hc).1
    exact (h.free u).mpr ⟨⟨hmem, List.mem_range.mp hi⟩, h.unused hmem (nused_idle h hc) (List.mem_range.mp hi)⟩
  have hnodup : (idleCaches out cs ×ˢ List.range op.incsize.toNat).Nodup :=
    (idleCaches_nodup h).product List.nodup_range
  have hle := (List.subperm_of_subset hnodup hsub).length_le
  rw [List.length_product, List.length_range] at hle
  exact hle

/-- Each of the others has a unit that is handed out. -/
theorem caches_le (h : PoolInv op out ks cs) : cs.length ≤ out.length + (idleCaches out cs).length := by
  have hsub : cs ⊆ out.map Prod.fst ++ idleCaches out cs := by
    intro c hc
    by_cases hidle : ∀ u ∈ out, u.1 ≠ c
    · exact List.mem_append_right _ (mem_idleCaches.mpr ⟨hc, hidle⟩)
    · push Not at hidle
      obtain ⟨u, hu, heq⟩ := hidle
      exact List.mem_append_left _ (List.mem_map.mpr ⟨u, hu, heq⟩)
  have hle := (List.subperm_of_subset h.caches.nodup hsub).length_le
  rw [List.length_append, List.length_map] at hle
  exact hle

/-! ## One call -/

/-- The counters do not wrap, and at most two caches are idle. -/
structure Thrifty (op : Mempool) (out ks : List NodeRef) (cs : List CacheRef) : Prop
    extends PoolInv op out ks cs where
  few : cs.length * op.incsize.toNat < 2 ^ 32
  idle : (idleCaches out cs).length ≤ 2

theorem idle_mono {out' : List NodeRef} {cs' : List CacheRef} (h : PoolInv op out' ks cs')
    (hsub : ∀ c, c ∈ idleCaches out' cs' → c ∈ idleCaches out cs) :
    (idleCaches out' cs').length ≤ (idleCaches out cs).length :=
  (List.subperm_of_subset (idleCaches_nodup h) hsub).length_le

theorem nfreed_eq (h : PoolInv op out ks cs) (hfew : cs.length * op.incsize.toNat < 2 ^ 32) :
    op.nfreed.toNat = ks.length := by
  have hle := free_le h
  rw [h.nfreed]
  exact Nat.mod_eq_of_lt (by omega)

/-- `_op_put_node` releases the cache that would be the third. -/
theorem opPutNode_thrifty (h : Thrifty op out ks cs) (hu : u ∈ out) :
    ∃ op' ks' cs', opPutNode op u = some op' ∧ Thrifty op' (out.erase u) ks' cs' := by
  have hinv := h.toPoolInv
  obtain ⟨hunit, hused⟩ := (hinv.out_iff u).mp hu
  obtain ⟨hc, -, hmagic⟩ := hinv.header u hunit
  have hfreed := freeNode_inv hinv hu
  have hin : (freeNode op u).incsize = op.incsize := rfl
  -- an idle cache was idle before, unless it is the one of `u`
  have hkeep : ∀ d, d ≠ u.1 → (∀ v ∈ out.erase u, v.1 ≠ d) → ∀ v ∈ out, v.1 ≠ d := by
    intro d hd hall v hv
    by_cases heq : v = u
    · exact heq ▸ Ne.symm hd
    · exact hall v ((List.mem_erase_of_ne heq).mpr hv)
  unfold opPutNode
  rw [hc, if_neg (by simp [hmagic, hinv.cacheMagic u.1 hunit.1, hused])]
  dsimp only
  by_cases hrelease : ((freeNode op u).cache u.1).nused = 0 ∧
      2 * (freeNode op u).incsize.toUInt32 < (freeNode op u).nfreed
  · rw [if_pos hrelease]
    obtain ⟨op', ks', heq, hshrinks, hinv'⟩ := opFreeCache_spec hfreed hunit.1 hrelease.1
    have hsub : ∀ d, d ∈ idleCaches (out.erase u) (cs.erase u.1) → d ∈ idleCaches out cs := by
      intro d hd
      obtain ⟨hmem, hall⟩ := mem_idleCaches.mp hd
      obtain ⟨hne, hdcs⟩ := hinv.caches.nodup.mem_erase_iff.mp hmem
      exact mem_idleCaches.mpr ⟨hdcs, hkeep d hne hall⟩
    refine ⟨op', ks', _, heq, hinv', ?_, Nat.le_trans (idle_mono hinv' hsub) h.idle⟩
    rw [hshrinks.incsize, hin]
    have hfew := h.few
    have hle : (cs.erase u.1).length * op.incsize.toNat ≤ cs.length * op.incsize.toNat :=
      Nat.mul_le_mul_right _ List.length_erase_le
    omega
  · rw [if_neg hrelease]
    refine ⟨_, _, _, rfl, hfreed, h.few, ?_⟩
    by_cases hidle : u.1 ∈ idleCaches (out.erase u) cs
    · -- it stays, since there are no more than two caches of free units
      have hle := idle_units hfreed
      have hexact := nfreed_eq hfreed h.few
      have hpos := hinv.inc_pos
      have hsmall : ¬ 2 * op.incsize.toUInt32 < (freeNode op u).nfreed :=
        fun hlt => hrelease ⟨nused_idle hfreed hidle, hlt⟩
      have hlt16 : op.incsize.toNat < 2 ^ 16 := UInt16.toNat_lt _
      have htwo : (2 * op.incsize.toUInt32).toNat = 2 * op.incsize.toNat := by
        rw [UInt32.toNat_mul, UInt16.toNat_toUInt32]
        show 2 * op.incsize.toNat % 2 ^ 32 = _
        omega
      rw [UInt32.lt_iff_toNat_lt, htwo, hexact] at hsmall
      rw [hin] at hle
      have hmul : (idleCaches (out.erase u) cs).length * op.incsize.toNat ≤ 2 * op.incsize.toNat := by
        omega
      exact Nat.le_of_mul_le_mul_right hmul hpos
    · refine Nat.le_trans (idle_mono hfreed fun d hd => ?_) h.idle
      obtain ⟨hmem, hall⟩ := mem_idleCaches.mp hd
      have hne : d ≠ u.1 := fun heq => hidle (heq ▸ hd)
      exact mem_idleCaches.mpr ⟨hmem, hkeep d hne hall⟩

/-- The unit in front is handed out. -/
theorem takeFirst_thrifty (h : PoolInv op out (u :: ks) cs) (hfew : cs.length * op.incsize.toNat < 2 ^ 32)
    (hidle : (idleCaches (u :: out) cs).length ≤ 2) :
    takeFirst op = some (some u, takeNode op u) ∧ Thrifty (takeNode op u) (u :: out) ks cs := by
  have hhead : op.nodeList.head = some u := Links.chain_head h.nodes.chain
  rw [takeFirst, hhead]
  exact ⟨rfl, takeNode_inv h, hfew, hidle⟩

/-- `mempool_get` makes a new cache only when none is idle. -/
theorem mempoolGet_thrifty {m : Malloc} (h : Thrifty op out ks cs) (hm : m.Fresh op)
    (hfits : op.nfreed = 0 → op.nalloced.toNat + op.incsize.toNat < 2 ^ 32) :
    ∃ r op' ks' cs', mempoolGet op m = some (r, op') ∧ Thrifty op' (r.toList ++ out) ks' cs' := by
  have hinv := h.toPoolInv
  have hexact := nfreed_eq hinv h.few
  unfold mempoolGet
  by_cases hzero : op.nfreed = 0
  · rw [if_pos hzero]
    rcases opAllocCache_spec hinv hm with ⟨-, heq⟩ | ⟨c, op₁, heq, hgrows, hinv₁⟩
    · rw [heq]
      exact ⟨none, op.leak m, ks, cs, rfl, hinv.leak m, h.few, h.idle⟩
    · rw [heq]
      have hnil : ks = [] := by
        rw [hzero] at hexact
        exact List.length_eq_zero_iff.mp hexact.symm
      have hpos := hinv.inc_pos
      obtain ⟨u, ks₁, hks₁⟩ := List.exists_cons_of_ne_nil (l := unitsOf c op.incsize.toNat ++ ks) (by
        intro hempty
        have hlen := congrArg List.length hempty
        rw [List.length_append, length_unitsOf, List.length_nil] at hlen
        omega)
      have huc : u.1 = c := by
        have hmem : u ∈ unitsOf c op.incsize.toNat ++ ks := hks₁ ▸ List.mem_cons_self
        rw [hnil, List.append_nil] at hmem
        exact (mem_unitsOf.mp hmem).1
      rw [hks₁] at hinv₁
      have hnone : (idleCaches out cs).length = 0 := by
        have hle := idle_units hinv
        rw [hnil, List.length_nil] at hle
        rcases Nat.mul_eq_zero.mp (Nat.le_zero.mp hle) with h0 | h0
        · exact h0
        · omega
      have hsub : ∀ d, d ∈ idleCaches (u :: out) (c :: cs) → d ∈ idleCaches out cs := by
        intro d hd
        obtain ⟨hmem, hall⟩ := mem_idleCaches.mp hd
        have hne : u.1 ≠ d := hall u List.mem_cons_self
        refine mem_idleCaches.mpr ⟨?_, fun v hv => hall v (List.mem_cons_of_mem _ hv)⟩
        rcases List.mem_cons.mp hmem with heq | hmem
        · exact absurd (huc.trans heq.symm) hne
        · exact hmem
      have hidle : (idleCaches (u :: out) (c :: cs)).length ≤ 2 := by
        have hle := (List.subperm_of_subset (hinv₁.caches.nodup.filter _) hsub).length_le
        have hle' : (idleCaches (u :: out) (c :: cs)).length ≤ (idleCaches out cs).length := hle
        omega
      have hfew : (c :: cs).length * op₁.incsize.toNat < 2 ^ 32 := by
        have hbound := hfits hzero
        rw [hinv.nalloced, Nat.mod_eq_of_lt h.few] at hbound
        rw [hgrows.incsize, List.length_cons, Nat.succ_mul]
        exact hbound
      obtain ⟨htake, hthrifty⟩ := takeFirst_thrifty hinv₁ hfew hidle
      exact ⟨some u, _, _, _, htake, hthrifty⟩
  · rw [if_neg hzero]
    obtain ⟨u, ks₁, rfl⟩ := List.exists_cons_of_ne_nil (l := ks) (by
      intro hnil
      apply hzero
      apply UInt32.toNat_inj.mp
      rw [hexact, hnil]
      rfl)
    have hsub : ∀ d, d ∈ idleCaches (u :: out) cs → d ∈ idleCaches out cs := by
      intro d hd
      obtain ⟨hmem, hall⟩ := mem_idleCaches.mp hd
      exact mem_idleCaches.mpr ⟨hmem, fun v hv => hall v (List.mem_cons_of_mem _ hv)⟩
    have hle := (List.subperm_of_subset (hinv.caches.nodup.filter _) hsub).length_le
    obtain ⟨htake, hthrifty⟩ := takeFirst_thrifty hinv h.few (Nat.le_trans hle h.idle)
    exact ⟨some u, _, _, _, htake, hthrifty⟩

end

/-! ## Headers without units -/

/-- The headers that are left are in no cache, and each was asked for (`S`) by a
call that got no units. -/
structure LeakedOnly (S : CacheRef → Prop) (op : Mempool) : Prop where
  fits : ¬ toInt32 (op.nodesize.toNat * op.incsize.toNat : Nat) < 0
  nodup : op.leaked.Nodup
  dead : ∀ c ∈ op.leaked, op.live c = false
  asked : ∀ c ∈ op.leaked, S c

section
variable {S : CacheRef → Prop} {op op' : Mempool} {out ks : List NodeRef} {cs : List CacheRef}

theorem LeakedOnly.grows {m : Malloc} (h : LeakedOnly S op) (hm : m.Fresh op) (hg : Grows op m op') :
    LeakedOnly S op' where
  fits := by
    rw [hg.incsize, hg.nodesize]
    exact h.fits
  nodup := hg.leaked ▸ h.nodup
  dead c hc := by
    rw [hg.leaked] at hc
    apply Bool.eq_false_iff.mpr
    intro hlive
    rcases hg.live c hlive with hold | rfl
    · exact absurd hold (Bool.eq_false_iff.mp (h.dead c hc))
    · exact hm.2 hc
  asked c hc := h.asked c (hg.leaked ▸ hc)

theorem LeakedOnly.shrinks (h : LeakedOnly S op) (hs : Shrinks op op') : LeakedOnly S op' where
  fits := by
    rw [hs.incsize, hs.nodesize]
    exact h.fits
  nodup := hs.leaked ▸ h.nodup
  dead c hc := Bool.eq_false_iff.mpr fun hlive =>
    absurd (hs.live c hlive) (Bool.eq_false_iff.mp (h.dead c (hs.leaked ▸ hc)))
  asked c hc := h.asked c (hs.leaked ▸ hc)

/-- A refused cache leaves its header. -/
theorem LeakedOnly.leak {m : Malloc} (h : LeakedOnly S op) (hm : m.Fresh op) (hrefused : ¬ m.Serves op)
    (hS : ∀ c, m = .noPool c → S c) : LeakedOnly S (op.leak m) := by
  cases m with
  | noCache => exact ⟨h.fits, h.nodup, h.dead, h.asked⟩
  | noPool c =>
    refine ⟨h.fits, List.nodup_cons.mpr ⟨hm.2, h.nodup⟩, fun d hd => ?_, fun d hd => ?_⟩
    · rcases List.mem_cons.mp hd with rfl | hd
      · exact hm.1
      · exact h.dead d hd
    · rcases List.mem_cons.mp hd with rfl | hd
      · exact hS d rfl
      · exact h.asked d hd
  | both c => exact absurd ⟨⟨c, rfl⟩, h.fits⟩ hrefused

end

/-! ## Runs -/

/-- The calls that leave headers are among those of `S`. -/
def AsksIn (S : CacheRef → Prop) (call : PoolCall) : Prop := ∀ c, call = .get (.noPool c) → S c

/-- No call has gone wrong, and the headers that are left were asked for in `S`. -/
def PoolLeaks (S : CacheRef → Prop) (s : Option PoolUse) : Prop :=
  ∃ use ks cs, s = some use ∧ PoolInv use.pool use.out ks cs ∧ LeakedOnly S use.pool

theorem poolCall_leaks {S : CacheRef → Prop} {use : PoolUse} {call : PoolCall} {ks : List NodeRef}
    {cs : List CacheRef} (h : PoolInv use.pool use.out ks cs) (hl : LeakedOnly S use.pool)
    (hcall : call.Allowed use) (hS : AsksIn S call) : PoolLeaks S (poolCall use call) := by
  cases call with
  | get m =>
    rcases mempoolGet_spec h hcall with ⟨hrefused, heq⟩ | ⟨u, op', ks', cs', heq, hgrows, -, hinv⟩
    · exact ⟨{ use with pool := use.pool.leak m }, ks, cs, by simp [poolCall, heq], h.leak m,
        hl.leak hcall hrefused fun c hc => hS c (congrArg PoolCall.get hc)⟩
    · exact ⟨{ pool := op', out := u :: use.out }, ks', cs', by simp [poolCall, heq], hinv, hl.grows hcall hgrows⟩
  | put u =>
    obtain ⟨op', ks', cs', heq, hshrinks, hinv⟩ := opPutNode_spec h hcall
    have hself := (h.header u ((h.out_iff u).mp hcall).1).2.1
    exact ⟨{ pool := op', out := use.out.erase u }, ks', cs', by simp [poolCall, mempoolPut, hself, heq],
      hinv, hl.shrinks hshrinks⟩
  | put1 u =>
    obtain ⟨op', ks', cs', heq, hshrinks, hinv⟩ := opPutNode_spec h hcall
    exact ⟨{ pool := op', out := use.out.erase u }, ks', cs', by simp [poolCall, mempoolPut1, heq],
      hinv, hl.shrinks hshrinks⟩

theorem poolStep_leaks {S : CacheRef → Prop} {op : Mempool} (s : Option PoolUse) (call : PoolCall)
    (s' : Option PoolUse) (hS : AsksIn S call) (h : PoolLeaks S s)
    (hstep : (poolMachine op).step s call = some s') : PoolLeaks S s' := by
  obtain ⟨use, ks, cs, rfl, hinv, hl⟩ := h
  have heq : (if call.Allowed use then some (poolCall use call) else none) = some s' := hstep
  by_cases hcall : call.Allowed use
  · rw [if_pos hcall] at heq
    cases heq
    exact poolCall_leaks hinv hl hcall hS
  · rw [if_neg hcall] at heq
    cases heq

/-- `mempool_get` does not make `nalloced` wrap. -/
def NallocedFits (s : Option PoolUse) : PoolCall → Prop
  | .get _ => ∀ use ∈ s, use.pool.nfreed = 0 → use.pool.nalloced.toNat + use.pool.incsize.toNat < 2 ^ 32
  | .put _ | .put1 _ => True

instance (s : Option PoolUse) (call : PoolCall) : Decidable (NallocedFits s call) :=
  match call with
  | .get _ => inferInstanceAs (Decidable (∀ use ∈ s, use.pool.nfreed = 0 → _))
  | .put _ | .put1 _ => .isTrue trivial

/-- No call has gone wrong, and the pool keeps no third idle cache. -/
def PoolThrifty (s : Option PoolUse) : Prop :=
  ∃ use ks cs, s = some use ∧ Thrifty use.pool use.out ks cs

theorem poolCall_thrifty {use : PoolUse} {call : PoolCall} {ks : List NodeRef} {cs : List CacheRef}
    (h : Thrifty use.pool use.out ks cs) (hcall : call.Allowed use) (hfits : NallocedFits (some use) call) :
    PoolThrifty (poolCall use call) := by
  cases call with
  | get m =>
    obtain ⟨r, op', ks', cs', heq, h'⟩ := mempoolGet_thrifty h hcall (hfits use rfl)
    exact ⟨{ pool := op', out := r.toList ++ use.out }, ks', cs', by simp [poolCall, heq], h'⟩
  | put u =>
    obtain ⟨op', ks', cs', heq, h'⟩ := opPutNode_thrifty h hcall
    have hself := (h.header u ((h.out_iff u).mp hcall).1).2.1
    exact ⟨{ pool := op', out := use.out.erase u }, ks', cs', by simp [poolCall, mempoolPut, hself, heq], h'⟩
  | put1 u =>
    obtain ⟨op', ks', cs', heq, h'⟩ := opPutNode_thrifty h hcall
    exact ⟨{ pool := op', out := use.out.erase u }, ks', cs', by simp [poolCall, mempoolPut1, heq], h'⟩

theorem poolStep_thrifty {op : Mempool} (s : Option PoolUse) (call : PoolCall) (s' : Option PoolUse)
    (hfits : NallocedFits s call) (h : PoolThrifty s) (hstep : (poolMachine op).step s call = some s') :
    PoolThrifty s' := by
  obtain ⟨use, ks, cs, rfl, hinv⟩ := h
  have heq : (if call.Allowed use then some (poolCall use call) else none) = some s' := hstep
  by_cases hcall : call.Allowed use
  · rw [if_pos hcall] at heq
    cases heq
    exact poolCall_thrifty hinv hcall hfits
  · rw [if_neg hcall] at heq
    cases heq

/-- A pool has its first cache. -/
theorem mempoolAlloc_first {self : Option Nat} {now : UInt32} {memsize incsize : Nat} {locked : Bool}
    {m : Malloc} {op : Mempool} (hinc : 1 ≤ incsize ∧ incsize ≤ 65535)
    (hsize : opAlign memsize + opAlign sizeofNode < 2 ^ 16)
    (hop : mempoolAlloc self now memsize incsize locked m = some (some op)) :
    (∃ ks cs, PoolInv op [] ks cs ∧ cs.length ≤ 1) ∧ ∀ S, LeakedOnly S op := by
  have hmem : 1 ≤ memsize := by
    apply Decidable.byContradiction
    intro hzero
    unfold mempoolAlloc at hop
    rw [if_pos (Nat.lt_of_not_le hzero)] at hop
    cases hop
  cases self with
  | none =>
    unfold mempoolAlloc at hop
    rw [if_neg (Nat.not_lt.mpr hmem)] at hop
    cases hop
  | some self =>
    rcases @mempoolAlloc_spec now memsize incsize self locked m hmem hsize hinc.1 (by omega) with
      ⟨hnone, -⟩ | ⟨op', heq, -, -, hleaked, hfits, honly, ks, cs, hinv⟩
    · rw [hop] at hnone
      cases hnone
    · rw [hop] at heq
      cases heq
      have hno : ∀ c, c ∉ op.leaked := fun c => hleaked ▸ List.not_mem_nil
      refine ⟨⟨ks, cs, hinv, ?_⟩, fun S => ⟨hfits, hleaked ▸ List.nodup_nil, fun c hc => absurd hc (hno c),
        fun c hc => absurd hc (hno c)⟩⟩
      have hsame : ∀ c ∈ cs, ∀ d ∈ cs, c = d := by
        intro c hc d hd
        have hboth := (honly c ((hinv.live c).mp hc)).symm.trans (honly d ((hinv.live d).mp hd))
        cases hboth
        rfl
      rcases cs with - | ⟨c, - | ⟨d, cs⟩⟩
      · exact Nat.zero_le _
      · exact Nat.le_refl _
      · have heq := hsame c List.mem_cons_self d (List.mem_cons_of_mem _ List.mem_cons_self)
        exact absurd (heq ▸ List.mem_cons_self) (List.nodup_cons.mp hinv.caches.nodup).1

/-- In a run every header left is one that a `get` of the run asked for. -/
theorem run_leaks {op : Mempool} {ks : List NodeRef} {cs : List CacheRef} (hinv : PoolInv op [] ks cs)
    (hl : ∀ S, LeakedOnly S op) {calls : List PoolCall} {s : Option PoolUse}
    (hrun : (poolMachine op).run (poolMachine op).init calls = some s) :
    PoolLeaks (fun c => PoolCall.get (.noPool c) ∈ calls) s := by
  have hfirst : PoolLeaks (fun c => PoolCall.get (.noPool c) ∈ calls) (poolMachine op).init :=
    ⟨{ pool := op, out := [] }, ks, cs, rfl, hinv, hl _⟩
  apply Machine.run_inv (C := fun _ call => AsksIn (fun c => PoolCall.get (.noPool c) ∈ calls) call)
    poolStep_leaks calls hfirst _ hrun
  refine Machine.meets_of_mem (fun call hcall _ c hc => ?_) _
  show PoolCall.get (.noPool c) ∈ calls
  rw [← hc]
  exact hcall

/-- **The pool keeps at most two caches more than it needs**; beside them only
headers are left, each of a `get` that was refused the units. -/
theorem pool_memory (self : Option Nat) (now : UInt32) (memsize incsize : Nat) (locked : Bool)
    (m : Malloc) (op : Mempool) (hinc : 1 ≤ incsize ∧ incsize ≤ 65535)
    (hsize : opAlign memsize + opAlign sizeofNode < 2 ^ 16)
    (hop : mempoolAlloc self now memsize incsize locked m = some (some op))
    (calls : List PoolCall) (hfits : (poolMachine op).Meets NallocedFits (poolMachine op).init calls)
    (s : Option PoolUse) (hrun : (poolMachine op).run (poolMachine op).init calls = some s) :
    ∃ use, s = some use ∧
      (∀ l : List CacheRef, l.Nodup → (∀ c ∈ l, use.pool.live c = true) → l.length ≤ use.out.length + 2) ∧
      (∀ l : List CacheRef, l.Nodup → (∀ c ∈ l, use.pool.live c = true ∧ (use.pool.cache c).nused = 0) →
        l.length ≤ 2) ∧
      ∀ c ∈ use.pool.leaked, PoolCall.get (.noPool c) ∈ calls := by
  obtain ⟨⟨ks, cs, hinv, hone⟩, hl⟩ := mempoolAlloc_first hinc hsize hop
  have hfirst : PoolThrifty (poolMachine op).init := by
    refine ⟨{ pool := op, out := [] }, ks, cs, rfl, hinv, ?_, ?_⟩
    · have hlt : op.incsize.toNat < 2 ^ 16 := UInt16.toNat_lt _
      have hle : cs.length * op.incsize.toNat ≤ 1 * op.incsize.toNat := Nat.mul_le_mul_right _ hone
      show cs.length * op.incsize.toNat < 2 ^ 32
      omega
    · exact Nat.le_trans (Nat.le_trans (List.length_filter_le _ _) hone) (by omega)
  obtain ⟨use', _, _, hsame, -, hleaks⟩ := run_leaks hinv hl hrun
  obtain ⟨use, ks', cs', rfl, h⟩ := Machine.run_inv poolStep_thrifty calls hfirst hfits hrun
  obtain rfl : use = use' := Option.some.inj hsame
  refine ⟨use, rfl, fun l hnodup hlive => ?_, fun l hnodup hidle => ?_, hleaks.asked⟩
  · have hle := (List.subperm_of_subset hnodup fun c hc => (h.live c).mpr (hlive c hc)).length_le
    have hcaches := caches_le h.toPoolInv
    have hidle := h.idle
    omega
  · have hsub : ∀ c, c ∈ l → c ∈ idleCaches use.out cs' := fun c hc =>
      idle_of_nused h.toPoolInv ((h.live c).mpr (hidle c hc).1) (hidle c hc).2
    exact Nat.le_trans (List.subperm_of_subset hnodup hsub).length_le h.idle

theorem pool_memory_pair : ∃ use, pairUse = some use ∧
    (∀ l : List CacheRef, l.Nodup → (∀ c ∈ l, use.pool.live c = true) → l.length ≤ use.out.length + 2) ∧
    (∀ l : List CacheRef, l.Nodup → (∀ c ∈ l, use.pool.live c = true ∧ (use.pool.cache c).nused = 0) →
      l.length ≤ 2) ∧
    ∀ c ∈ use.pool.leaked, PoolCall.get (.noPool c) ∈ pairCalls :=
  pool_memory (some 7) 0 8 2 false (.both 0) pairPool (by decide) (by decide)
    (some_join _ (by decide +kernel)) pairCalls (by decide +kernel) pairUse (some_join _ (by decide +kernel))

end WafProxy
