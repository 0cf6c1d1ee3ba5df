import WafProxy.Ip.Addr
import WafProxy.Lib.Buffer

/-
  Masking and matching — `ip_addr_apply_mask` and `ip_mask_match` of ip_addr.c

  A prefix length is so many whole bytes and so many bits of the byte behind them.
  The masking functions cut the bits of the byte after that one, and both of them
  clear to the end of 16 bytes. `ip_mask_match` compares the whole bytes and then
  looks at the byte behind them, whether it is needed or not.

  What is proved:
    1. `masked_iff` — what is left of an address when its first bits are kept.
    2. `ip4_never`, `ip6_iff` — when the code keeps them and writes nothing else.
    3. `match_iff` — when a match is that of the first bits, with no byte read
       outside of the addresses.
    4. `mask_iff` — the three together.

  Correspondence (C ↔ Lean):
    `_s_mask_partial`                       ↔ `sMaskPartial`
    `_ip4_apply_mask`, `_ip6_apply_mask`    ↔ `ip4ApplyMask`, `ip6ApplyMask`
    `ip_addr_apply_mask`                    ↔ `ipAddrApplyMask`
    `ip_mask_t`, `ip_mask_match`            ↔ `IpMask`, `ipMaskMatch`
-/

namespace WafProxy
open Lib

/-! ## The functions -/

def sMaskPartial : List Byte := [0x00, 0x80, 0xc0, 0xe0, 0xf0, 0xf8, 0xfc, 0xfe, 0xff]

/-- `n` bytes from `i` on are set to 0. -/
def clearBytes : Nat → Nat → Buffer Byte → Buffer Byte
  | 0, _, b => b
  | n + 1, i, b => clearBytes n (i + 1) (b.copy i [0])

/-- What both masking functions do behind their checks. -/
def applyBits (b : Buffer Byte) (cidr : Nat) : Buffer Byte :=
  let whole := cidr / 8
  let bits := cidr % 8
  if bits ≠ 0 then
    clearBytes (16 - (whole + 1)) (whole + 1) (b.copy (whole + 1) [b.cell (whole + 1) &&& sMaskPartial.getD bits 0])
  else clearBytes (16 - whole) whole b

def ip6ApplyMask (b : Buffer Byte) (cidr : Int) : Int × Buffer Byte :=
  if cidr < 1 ∨ 128 < cidr then (-1, b) else (0, applyBits b cidr.toNat)

def ip4ApplyMask (b : Buffer Byte) (cidr : Int) : Int × Buffer Byte :=
  if cidr < 1 ∨ 31 < cidr then (-1, b) else (0, applyBits b cidr.toNat)

/-- `ip_addr_apply_mask`, the buffer being the address. -/
def ipAddrApplyMask (family : Int) (b : Buffer Byte) (cidr : Int) : Int × Buffer Byte :=
  if family = AF_INET then ip4ApplyMask b cidr
  else if family = AF_INET6 then ip6ApplyMask b cidr
  else (-1, b)

/-- `ip_mask_t`. -/
structure IpMask where
  addr : IpAddr
  cidr : UInt32

/-- `ip_mask_match`; `none` when it reads behind the end of an address. -/
def ipMaskMatch (mask : IpMask) (ip : IpAddr) : Option Int :=
  if mask.addr.family ≠ ip.family then some 0
  else if mask.cidr = 0 then some 1
  else
    let whole := mask.cidr.toNat / 8
    let bits := mask.cidr.toNat % 8
    if mask.addr.addr.length < whole ∨ ip.addr.length < whole then none
    else if memcmp (mask.addr.addr.take whole) (ip.addr.take whole) ≠ 0 then some 0
    else
      (mask.addr.addr[whole]?).bind fun a =>
        (ip.addr[whole]?).map fun b =>
          if a &&& sMaskPartial.getD bits 0 = b &&& sMaskPartial.getD bits 0 then 1 else 0

/-! ## The first bits -/

/-- The bit `k` of an address, the first one being the highest of the first byte. -/
def bitAt (l : List Byte) (k : Nat) : Bool := (l.getD (k / 8) 0).toNat.testBit (7 - k % 8)

/-- `l'` has the first `cidr` bits of `l` and no other. -/
structure Masked (cidr : Nat) (l l' : List Byte) : Prop where
  length : l'.length = l.length
  bits : ∀ k, k < 8 * l.length → bitAt l' k = (decide (k < cidr) && bitAt l k)

def keepBits : Nat → List Byte → List Byte
  | _, [] => []
  | n, b :: l => (b &&& sMaskPartial.getD (min n 8) 0) :: keepBits (n - 8) l

@[simp] theorem keepBits_length (l : List Byte) : ∀ n, (keepBits n l).length = l.length := by
  induction l with
  | nil => exact fun _ => rfl
  | cons b l ih => exact fun n => congrArg (· + 1) (ih (n - 8))

theorem keepBits_getElem? (l : List Byte) : ∀ (n j : Nat),
    (keepBits n l)[j]? = l[j]?.map (· &&& sMaskPartial.getD (min (n - 8 * j) 8) 0) := by
  induction l with
  | nil => exact fun _ _ => rfl
  | cons b l ih =>
    intro n j
    cases j with
    | zero => rfl
    | succ j =>
      rw [keepBits, List.getElem?_cons_succ, List.getElem?_cons_succ, ih]
      have hrest : n - 8 - 8 * j = n - 8 * (j + 1) := by omega
      rw [hrest]

/-- The bytes in front of the one that the prefix ends in. -/
theorem keepBits_whole {l : List Byte} {n j : Nat} (h : j < n / 8) : (keepBits n l)[j]? = l[j]? := by
  have hmin : min (n - 8 * j) 8 = 8 := by omega
  rw [keepBits_getElem?, hmin]
  have hall : (· &&& sMaskPartial.getD 8 0) = (id : Byte → Byte) := by
    funext b
    exact UInt8.and_neg_one
  rw [hall, Option.map_id_fun, id]

theorem keepBits_last (l : List Byte) (n : Nat) :
    (keepBits n l)[n / 8]? = l[n / 8]?.map (· &&& sMaskPartial.getD (n % 8) 0) := by
  have hmin : min (n - 8 * (n / 8)) 8 = n % 8 := by omega
  rw [keepBits_getElem?, hmin]

theorem keepBits_rest {l : List Byte} {n j : Nat} (h : n / 8 < j) : (keepBits n l)[j]? = l[j]?.map fun _ => 0 := by
  have hmin : min (n - 8 * j) 8 = 0 := by omega
  rw [keepBits_getElem?, hmin]
  have hnone : (· &&& sMaskPartial.getD 0 0) = (fun _ : Byte => (0 : Byte)) := by
    funext b
    exact UInt8.and_zero
  rw [hnone]

/-- Two addresses have the same first bits when their whole bytes and what is kept of the next one are the same. -/
theorem keepBits_eq {l r : List Byte} {n : Nat} (hlen : l.length = r.length) :
    keepBits n l = keepBits n r ↔ l.take (n / 8) = r.take (n / 8) ∧
      l[n / 8]?.map (· &&& sMaskPartial.getD (n % 8) 0) = r[n / 8]?.map (· &&& sMaskPartial.getD (n % 8) 0) := by
  constructor
  · intro heq
    constructor
    · apply List.ext_getElem?
      intro j
      rw [List.getElem?_take, List.getElem?_take]
      split
      · next hj => exact (keepBits_whole hj).symm.trans ((congrArg (·[j]?) heq).trans (keepBits_whole hj))
      · rfl
    · rw [← keepBits_last, ← keepBits_last, heq]
  · intro h
    obtain ⟨htake, hlast⟩ := h
    apply List.ext_getElem?
    intro j
    rcases Nat.lt_trichotomy j (n / 8) with hlt | rfl | hgt
    · have hj := congrArg (·[j]?) htake
      simp only [List.getElem?_take, if_pos hlt] at hj
      rw [keepBits_whole hlt, keepBits_whole hlt, hj]
    · rw [keepBits_last, keepBits_last, hlast]
    · rw [keepBits_rest hgt, keepBits_rest hgt]
      by_cases hj : j < l.length
      · rw [List.getElem?_eq_getElem hj, List.getElem?_eq_getElem (hlen ▸ hj)]
        rfl
      · rw [List.getElem?_eq_none (Nat.not_lt.mp hj), List.getElem?_eq_none (hlen ▸ Nat.not_lt.mp hj)]

theorem mask_bit : ∀ m < 9, ∀ r < 8, (sMaskPartial.getD m 0).toNat.testBit (7 - r) = decide (r < m) := by
  decide

/-- Eight bits make a byte. -/
theorem byte_ext {a b : Byte} (h : ∀ r, r < 8 → a.toNat.testBit (7 - r) = b.toNat.testBit (7 - r)) : a = b := by
  apply UInt8.toNat_inj.mp
  apply Nat.eq_of_testBit_eq
  intro i
  by_cases hi : i < 8
  · have hbit := h (7 - i) (by omega)
    rw [show 7 - (7 - i) = i by omega] at hbit
    exact hbit
  · have hpow : 2 ^ 8 ≤ 2 ^ i := Nat.pow_le_pow_right (by decide) (Nat.not_lt.mp hi)
    rw [Nat.testBit_lt_two_pow (Nat.lt_of_lt_of_le a.toNat_lt hpow),
      Nat.testBit_lt_two_pow (Nat.lt_of_lt_of_le b.toNat_lt hpow)]

theorem bitAt_keepBits (l : List Byte) (n k : Nat) (hk : k < 8 * l.length) :
    bitAt (keepBits n l) k = (decide (k < n) && bitAt l k) := by
  have hlt : k / 8 < l.length := by omega
  have hget : (keepBits n l).getD (k / 8) 0 =
      l.getD (k / 8) 0 &&& sMaskPartial.getD (min (n - 8 * (k / 8)) 8) 0 := by
    rw [List.getD_eq_getElem?_getD, List.getD_eq_getElem?_getD, keepBits_getElem?, List.getElem?_eq_getElem hlt]
    rfl
  unfold bitAt
  rw [hget, UInt8.toNat_and, Nat.testBit_and, mask_bit _ (by omega) _ (by omega), Bool.and_comm]
  congr 1
  exact decide_eq_decide.mpr (by omega)

/-- **Keeping the first bits** leaves one address. -/
theorem masked_iff {n : Nat} {l l' : List Byte} : Masked n l l' ↔ l' = keepBits n l := by
  constructor
  · intro h
    apply List.ext_getElem?
    intro j
    by_cases hj : j < l.length
    · have hj' : j < l'.length := by rw [h.length]; exact hj
      have hjk : j < (keepBits n l).length := by rw [keepBits_length]; exact hj
      rw [List.getElem?_eq_getElem hj', List.getElem?_eq_getElem hjk]
      congr 1
      apply byte_ext
      intro r hr
      have hbit := (h.bits (8 * j + r) (by omega)).trans (bitAt_keepBits l n (8 * j + r) (by omega)).symm
      unfold bitAt at hbit
      have hdiv : (8 * j + r) / 8 = j := by omega
      have hmod : (8 * j + r) % 8 = r := by omega
      rw [hdiv, hmod, List.getD_eq_getElem _ _ hj', List.getD_eq_getElem _ _ hjk] at hbit
      exact hbit
    · have hj := Nat.not_lt.mp hj
      rw [List.getElem?_eq_none (by rw [h.length]; exact hj),
        List.getElem?_eq_none (by rw [keepBits_length]; exact hj)]
  · intro h
    subst h
    exact ⟨keepBits_length l n, bitAt_keepBits l n⟩

/-! ## Masking -/

/-- The memory of an address and what follows it. -/
def addrBuffer (l : List Byte) (beyond : Nat → Byte) : Buffer Byte where
  size := l.length
  cell := fun i => l.getD i (beyond i)

/-- The first bits are kept and nothing is written outside of the address. -/
structure MaskApplied (l : List Byte) (cidr : Nat) (r : Int × Buffer Byte) : Prop where
  returned : r.1 = 0
  masked : Masked cidr l (r.2.read 0 l.length)
  kept : r.2.Kept

theorem clearBytes_spec (n : Nat) : ∀ (i : Nat) (b : Buffer Byte),
    (clearBytes n i b).size = b.size ∧
    (∀ j, (clearBytes n i b).cell j = if i ≤ j ∧ j < i + n then 0 else b.cell j) ∧
    (clearBytes n i b).reach = if n = 0 then b.reach else max b.reach (i + n) := by
  induction n with
  | zero =>
    intro i b
    refine ⟨rfl, fun j => ?_, rfl⟩
    rw [if_neg (by omega)]
    rfl
  | succ n ih =>
    intro i b
    obtain ⟨hsize, hcell, hreach⟩ := ih (i + 1) (b.copy i [0])
    have hone : (b.copy i [0]).reach = max b.reach (i + 1) := Buffer.copy_reach b i (List.cons_ne_nil _ _)
    refine ⟨hsize, fun j => ?_, ?_⟩
    · rw [clearBytes, hcell]
      -- before the first byte that is cleared, at it, and behind it
      rcases Nat.lt_trichotomy j i with hlt | rfl | hgt
      · rw [if_neg (by omega), if_neg (by omega), Buffer.copy_cell_before b [0] hlt]
      · rw [if_neg (by omega), if_pos (by omega), Buffer.copy_singleton_cell]
      · rw [Buffer.copy_cell_after b (show i + [(0 : Byte)].length ≤ j from hgt)]
        by_cases hin : j < i + 1 + n
        · rw [if_pos ⟨hgt, hin⟩, if_pos (by omega)]
        · rw [if_neg (by omega), if_neg (by omega)]
    · rw [clearBytes, hreach, hone, if_neg (Nat.succ_ne_zero n)]
      split <;> omega

section
variable {l : List Byte} {cidr : Nat} {beyond : Nat → Byte}

/-- What is written of an address, and how far. -/
theorem applyBits_spec (hcidr : cidr ≤ 128) :
    (applyBits (addrBuffer l beyond) cidr).size = l.length ∧
    (∀ j, j < 16 → (applyBits (addrBuffer l beyond) cidr).cell j =
      if (cidr + 7) / 8 ≤ j then 0 else (addrBuffer l beyond).cell j) ∧
    (applyBits (addrBuffer l beyond) cidr).reach =
      if cidr = 128 then 0 else if cidr / 8 = 15 ∧ cidr % 8 ≠ 0 then 17 else 16 := by
  unfold applyBits
  dsimp only
  by_cases hbits : cidr % 8 = 0
  · -- whole bytes: the clearing starts right behind the prefix
    rw [if_neg (fun h => h hbits)]
    obtain ⟨hsize, hcell, hreach⟩ := clearBytes_spec (16 - cidr / 8) (cidr / 8) (addrBuffer l beyond)
    refine ⟨hsize, fun j hj => ?_, ?_⟩
    · rw [hcell]
      by_cases hin : cidr / 8 ≤ j
      · rw [if_pos (by omega), if_pos (by omega)]
      · rw [if_neg (by omega), if_neg (by omega)]
    · have hzero : (addrBuffer l beyond).reach = 0 := rfl
      rw [hreach, hzero]
      split <;> split <;> (try split) <;> omega
  · -- the byte that is cut is the first one the clearing meets, so the cut is lost
    rw [if_pos hbits]
    obtain ⟨hsize, hcell, hreach⟩ := clearBytes_spec (16 - (cidr / 8 + 1)) (cidr / 8 + 1)
      ((addrBuffer l beyond).copy (cidr / 8 + 1)
        [(addrBuffer l beyond).cell (cidr / 8 + 1) &&& sMaskPartial.getD (cidr % 8) 0])
    refine ⟨hsize, fun j hj => ?_, ?_⟩
    · rw [hcell]
      by_cases hin : cidr / 8 + 1 ≤ j
      · rw [if_pos (by omega), if_pos (by omega)]
      · rw [if_neg (by omega), if_neg (by omega), Buffer.copy_cell_before _ _ (by omega)]
    · have hzero : (addrBuffer l beyond).reach = 0 := rfl
      rw [hreach, Buffer.copy_reach _ _ (List.cons_ne_nil _ _), hzero, List.length_singleton]
      split <;> split <;> (try split) <;> omega

/-- **An IPv4 address** is four bytes, and 16 are cleared. -/
theorem ip4_never (hl : l.length = 4) (hcidr : 1 ≤ cidr ∧ cidr ≤ 31) :
    ¬ MaskApplied l cidr (ipAddrApplyMask AF_INET (addrBuffer l beyond) cidr) := by
  intro h
  have hkept := h.kept
  obtain ⟨hsize, -, hreach⟩ := @applyBits_spec l cidr beyond (by omega)
  unfold ipAddrApplyMask ip4ApplyMask Buffer.Kept at hkept
  rw [if_pos rfl, if_neg (by omega), Int.toNat_natCast] at hkept
  dsimp only at hkept
  rw [hsize, hreach, if_neg (by omega)] at hkept
  -- sixteen bytes reached, or seventeen: the address has four
  split at hkept <;> omega

/-- The bits that the prefix leaves out of its last byte are 0 already. -/
def TailClear (cidr : Nat) (l : List Byte) : Prop :=
  l.getD (cidr / 8) 0 &&& sMaskPartial.getD (cidr % 8) 0 = l.getD (cidr / 8) 0

theorem masked_bytes (hl : l.length = 16) (hcidr : cidr ≤ 128) :
    (applyBits (addrBuffer l beyond) cidr).read 0 l.length = keepBits cidr l ↔ cidr % 8 = 0 ∨ TailClear cidr l := by
  obtain ⟨-, hcell, -⟩ := @applyBits_spec l cidr beyond hcidr
  have hread : ∀ j, j < 16 → ((applyBits (addrBuffer l beyond) cidr).read 0 l.length)[j]? =
      some (if (cidr + 7) / 8 ≤ j then 0 else l.getD j 0) := by
    intro j hj
    have hlt : j < l.length := by omega
    rw [Buffer.getElem?_read _ hlt, Nat.zero_add, hcell j hj]
    show some (if _ then _ else l.getD j (beyond j)) = _
    rw [List.getD_eq_getElem _ _ hlt, List.getD_eq_getElem _ _ hlt]
  constructor
  · intro heq
    by_cases hbits : cidr % 8 = 0
    · exact Or.inl hbits
    · right
      have hlast : cidr / 8 < 16 := by omega
      -- the byte the prefix ends in is left whole, so what is behind its bits has to be clear
      have hkeep := keepBits_last l cidr
      rw [← heq, hread _ hlast, if_neg (by omega), List.getElem?_eq_getElem (hl ▸ hlast)] at hkeep
      unfold TailClear
      rw [List.getD_eq_getElem _ _ (hl ▸ hlast)] at hkeep ⊢
      exact (Option.some.inj hkeep).symm
  · intro hclear
    apply List.ext_getElem?
    intro j
    by_cases hj : j < 16
    · have hlt : j < l.length := by omega
      rw [hread j hj]
      -- a whole byte of the prefix, the byte it ends in, a byte behind it
      rcases Nat.lt_trichotomy j (cidr / 8) with hbefore | rfl | hbehind
      · rw [if_neg (by omega), keepBits_whole hbefore, List.getElem?_eq_getElem hlt, List.getD_eq_getElem _ _ hlt]
      · rw [keepBits_last, List.getElem?_eq_getElem hlt]
        by_cases hbits : cidr % 8 = 0
        · rw [if_pos (by omega), hbits]
          exact congrArg some UInt8.and_zero.symm
        · have htail := hclear.resolve_left hbits
          unfold TailClear at htail
          rw [List.getD_eq_getElem _ _ hlt] at htail
          rw [if_neg (by omega), List.getD_eq_getElem _ _ hlt, Option.map_some, htail]
      · rw [if_pos (by omega), keepBits_rest hbehind, List.getElem?_eq_getElem hlt]
        rfl
    · have hj := Nat.not_lt.mp hj
      rw [List.getElem?_eq_none (by rw [Buffer.read_length, hl]; exact hj),
        List.getElem?_eq_none (by rw [keepBits_length, hl]; exact hj)]

/-- **An IPv6 address** is masked as it should be when the prefix ends with a byte, or there is nothing to clear in
the byte it ends in and that is not the last one. -/
theorem ip6_iff (hl : l.length = 16) (hcidr : 1 ≤ cidr ∧ cidr ≤ 128) :
    MaskApplied l cidr (ipAddrApplyMask AF_INET6 (addrBuffer l beyond) cidr) ↔
      cidr % 8 = 0 ∨ cidr / 8 < 15 ∧ TailClear cidr l := by
  obtain ⟨hsize, -, hreach⟩ := @applyBits_spec l cidr beyond hcidr.2
  have hbytes := @masked_bytes l cidr beyond hl hcidr.2
  have hrun : ipAddrApplyMask AF_INET6 (addrBuffer l beyond) cidr = (0, applyBits (addrBuffer l beyond) cidr) := by
    unfold ipAddrApplyMask ip6ApplyMask
    rw [if_neg (by decide), if_pos rfl, if_neg (by omega), Int.toNat_natCast]
  -- byte 16 is written when the prefix ends within the last byte
  have hkept : (applyBits (addrBuffer l beyond) cidr).Kept ↔ ¬ (cidr / 8 = 15 ∧ cidr % 8 ≠ 0) := by
    unfold Buffer.Kept
    rw [hsize, hreach, hl]
    split <;> (try split) <;> omega
  rw [hrun]
  constructor
  · intro h
    have hclear := hbytes.mp (masked_iff.mp h.masked)
    have hin := hkept.mp h.kept
    by_cases hbits : cidr % 8 = 0
    · exact Or.inl hbits
    · exact Or.inr ⟨by omega, hclear.resolve_left hbits⟩
  · intro h
    refine ⟨rfl, masked_iff.mpr (hbytes.mpr (h.imp_right And.right)), hkept.mpr ?_⟩
    rcases h with h | h <;> omega

end

/-! ## Matching -/

section
variable {mask : IpMask} {ip : IpAddr}

/-- **A match** is that of the first bits and reads the addresses only, when the prefix ends inside of them, or with
them and they differ. -/
theorem match_iff (hfamily : mask.addr.family = ip.family) (hmask : mask.addr.Valid) (hip : ip.Valid) :
    ipMaskMatch mask ip =
        some (if keepBits mask.cidr.toNat mask.addr.addr = keepBits mask.cidr.toNat ip.addr then 1 else 0) ↔
      mask.cidr.toNat / 8 < ip.addr.length ∨
        mask.cidr.toNat / 8 = ip.addr.length ∧ mask.addr.addr ≠ ip.addr := by
  have hlen := hmask.length_eq hip hfamily
  have hsome : 0 < ip.addr.length := by rcases hip with h | h <;> omega
  have hequal := @keepBits_eq _ _ mask.cidr.toNat hlen
  unfold ipMaskMatch
  rw [if_neg (fun h => h hfamily)]
  -- a prefix of no bits matches everything without a look at the addresses
  by_cases hzero : mask.cidr = 0
  · have hnat : mask.cidr.toNat = 0 := by rw [hzero]; rfl
    have hkeep : keepBits mask.cidr.toNat mask.addr.addr = keepBits mask.cidr.toNat ip.addr := by
      rw [hequal, hnat, List.getElem?_eq_getElem (hlen ▸ hsome), List.getElem?_eq_getElem hsome]
      exact ⟨rfl, congrArg some (UInt8.and_zero.trans UInt8.and_zero.symm)⟩
    rw [if_pos hzero, if_pos hkeep]
    exact iff_of_true rfl (Or.inl (by omega))
  · rw [if_neg hzero]
    dsimp only
    by_cases hlong : ip.addr.length < mask.cidr.toNat / 8
    · rw [if_pos (Or.inr hlong)]
      -- `memcmp` is asked for more bytes than the addresses have
      exact iff_of_false (fun h => by cases h) (by omega)
    · have htake : (mask.addr.addr.take (mask.cidr.toNat / 8)).length =
        (ip.addr.take (mask.cidr.toNat / 8)).length := by
        rw [List.length_take, List.length_take, hlen]
      rw [if_neg (by omega)]
      by_cases hsame : mask.addr.addr.take (mask.cidr.toNat / 8) = ip.addr.take (mask.cidr.toNat / 8)
      · rw [if_neg (fun h => h ((memcmp_zero htake).mpr hsame))]
        by_cases hin : mask.cidr.toNat / 8 < ip.addr.length
        · rw [List.getElem?_eq_getElem (hlen ▸ hin), List.getElem?_eq_getElem hin] at hequal ⊢
          refine iff_of_true (congrArg some ?_) (Or.inl hin)
          apply if_congr _ rfl rfl
          rw [hequal]
          exact ⟨fun h => ⟨hsame, congrArg some h⟩, fun h => Option.some.inj h.2⟩
        · -- the byte behind both addresses
          rw [List.getElem?_eq_none (by omega)]
          refine iff_of_false (fun h => by cases h) (fun h => ?_)
          rw [List.take_of_length_le (by omega), List.take_of_length_le (by omega)] at hsame
          rcases h with h | h
          · exact hin h
          · exact h.2 hsame
      · rw [if_pos (fun h => hsame ((memcmp_zero htake).mp h)), if_neg (fun h => hsame (hequal.mp h).1)]
        refine iff_of_true rfl ?_
        by_cases hin : mask.cidr.toNat / 8 < ip.addr.length
        · exact Or.inl hin
        · exact Or.inr ⟨by omega, fun heq => hsame (by rw [heq])⟩

end

/-! ## Masking and matching -/

/-- The match that masking both addresses gives. -/
def Matches (mask : IpMask) (ip : IpAddr) (r : Option Int) : Prop :=
  ∀ l l', Masked mask.cidr.toNat mask.addr.addr l → Masked mask.cidr.toNat ip.addr l' →
    r = some (if l = l' then 1 else 0)

theorem matches_iff {mask : IpMask} {ip : IpAddr} {r : Option Int} :
    Matches mask ip r ↔
      r = some (if keepBits mask.cidr.toNat mask.addr.addr = keepBits mask.cidr.toNat ip.addr then 1 else 0) := by
  constructor
  · exact fun h => h _ _ (masked_iff.mpr rfl) (masked_iff.mpr rfl)
  · intro h l l' hl hl'
    rw [h, masked_iff.mp hl, masked_iff.mp hl']

/-- An address as `ip_addr_apply_mask` takes it, with a prefix length of its family. -/
def Maskable (ip : IpAddr) (cidr : Nat) : Prop :=
  ip.family = AF_INET ∧ ip.addr.length = 4 ∧ 1 ≤ cidr ∧ cidr ≤ 31 ∨
    ip.family = AF_INET6 ∧ ip.addr.length = 16 ∧ 1 ≤ cidr ∧ cidr ≤ 128

/-- The prefix ends with a byte, or in one that is not the last and where there is nothing to clear. -/
def MaskMeets (ip : IpAddr) (cidr : Nat) : Prop :=
  ip.family = AF_INET6 ∧ (cidr % 8 = 0 ∨ cidr / 8 < 15 ∧ TailClear cidr ip.addr)

/-- The byte behind the prefix is in the addresses, or they differ. -/
def MatchMeets (mask : IpMask) (ip : IpAddr) : Prop :=
  mask.cidr.toNat / 8 < ip.addr.length ∨ mask.cidr.toNat / 8 = ip.addr.length ∧ mask.addr.addr ≠ ip.addr

/-- **Masking and matching**: when each of them does to the first bits what it should, and nothing else. -/
theorem mask_iff (ip : IpAddr) :
    (∀ (cidr : Nat) (beyond : Nat → Byte), Maskable ip cidr →
      (MaskApplied ip.addr cidr (ipAddrApplyMask ip.family (addrBuffer ip.addr beyond) cidr) ↔ MaskMeets ip cidr)) ∧
    ∀ mask : IpMask, mask.addr.family = ip.family → mask.addr.Valid → ip.Valid →
      (Matches mask ip (ipMaskMatch mask ip) ↔ MatchMeets mask ip) := by
  constructor
  · intro cidr beyond hmask
    rcases hmask with ⟨hfamily, hlen, hcidr⟩ | ⟨hfamily, hlen, hcidr⟩
    · have hdiffer : ip.family ≠ AF_INET6 := by rw [hfamily]; decide
      rw [hfamily]
      exact iff_of_false (ip4_never hlen hcidr) (fun h => hdiffer h.1)
    · rw [hfamily]
      exact (ip6_iff hlen hcidr).trans ⟨fun h => ⟨hfamily, h⟩, fun h => h.2⟩
  · intro mask hfamily hmask hip
    exact matches_iff.trans (match_iff hfamily hmask hip)

/-- The first 64 bits of sixteen bytes 255 are kept, and 10.1.2.3 is in 10.1.0.0/16. -/
theorem mask_whole :
    MaskApplied (List.replicate 16 255) 64
      (ipAddrApplyMask AF_INET6 (addrBuffer (List.replicate 16 255) fun _ => 7) 64) ∧
    Matches { addr := { family := AF_INET, addr := [10, 1, 0, 0] }, cidr := 16 }
      { family := AF_INET, addr := [10, 1, 2, 3] }
      (ipMaskMatch { addr := { family := AF_INET, addr := [10, 1, 0, 0] }, cidr := 16 }
        { family := AF_INET, addr := [10, 1, 2, 3] }) := by
  constructor
  · have hmask : Maskable { family := AF_INET6, addr := List.replicate 16 255 } 64 :=
      Or.inr ⟨rfl, rfl, by decide, by decide⟩
    exact ((mask_iff _).1 64 (fun _ => 7) hmask).mpr ⟨rfl, Or.inl rfl⟩
  · refine ((mask_iff { family := AF_INET, addr := [10, 1, 2, 3] }).2 _ rfl ?_ ?_).mpr (Or.inl (by decide))
    · exact Or.inl ⟨rfl, rfl⟩
    · exact Or.inl ⟨rfl, rfl⟩

/-- Masking 10.1.2.3/8 clears 12 bytes behind the address, masking the address of sixteen bytes 255 with /4 leaves
the whole first byte, and matching an IPv4 address with itself as /32 reads a fifth byte. -/
theorem mask_beyond :
    (ipAddrApplyMask AF_INET (addrBuffer [10, 1, 2, 3] fun _ => 7) 8).2.reach = 16 ∧
    ¬ MaskApplied [10, 1, 2, 3] 8 (ipAddrApplyMask AF_INET (addrBuffer [10, 1, 2, 3] fun _ => 7) 8) ∧
    (ipAddrApplyMask AF_INET6 (addrBuffer (List.replicate 16 255) fun _ => 7) 4).2.cell 0 = 255 ∧
    ¬ MaskApplied (List.replicate 16 255) 4
      (ipAddrApplyMask AF_INET6 (addrBuffer (List.replicate 16 255) fun _ => 7) 4) ∧
    ¬ Matches { addr := { family := AF_INET, addr := [10, 1, 2, 3] }, cidr := 32 }
      { family := AF_INET, addr := [10, 1, 2, 3] }
      (ipMaskMatch { addr := { family := AF_INET, addr := [10, 1, 2, 3] }, cidr := 32 }
        { family := AF_INET, addr := [10, 1, 2, 3] }) := by
  refine ⟨by decide, fun h => ?_, by decide, fun h => ?_, fun h => ?_⟩
  · exact absurd h.kept (by unfold Buffer.Kept; decide)
  · have hbit := h.masked.bits 4 (by decide)
    revert hbit
    decide
  · have hrun := h _ _ (masked_iff.mpr rfl) (masked_iff.mpr rfl)
    revert hrun
    decide

end WafProxy
