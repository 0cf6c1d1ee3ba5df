import WafProxy.Ip.Texts

/-
  Address ranges — `ip4_match_range` of ip_addr.c

  A range is one address, two with a dash between them, or a subnet `n/c` or
  `n/m`. The last address of a subnet is built by setting its host bits, but the
  number they are set in is in network order already: on a little-endian machine
  the bits of the first bytes of the address are set instead of those of the last.

  What is proved:
    1. `ip4MatchRange_subnet` — a subnet is matched from its own address on up to
       the one with the host bits set from the front (`filled`).
    2. `subnet_missed` — this is never the last address of the subnet.
    3. `range_iff` — for which addresses the answer is right, and that no range
       has it right for every address.

  Correspondence (C ↔ Lean):
    `ip4_mask_to_cidr`  ↔ `ip4MaskToCidr`
    `ip4_in_range`      ↔ `ip4InRange`
    `ip4_match_range`   ↔ `ip4MatchRange`
-/

namespace WafProxy
open Lib

/-! ## The functions -/

/-- The loop of `ip4_mask_to_cidr`, at most `n` turns. -/
def lowestBit (mask : UInt32) : Nat → Nat → Nat
  | 0, i => i
  | n + 1, i => if mask &&& (1 <<< UInt32.ofNat i) ≠ 0 then i else lowestBit mask n (i + 1)

def ip4MaskToCidr (mask : UInt32) : Int := 32 - lowestBit (ntohl mask) 32 0

def ip4InRange (ip begin stop : UInt32) : Bool := ntohl begin ≤ ntohl ip && ntohl ip ≤ ntohl stop

/-- The loop `while (cidr) end |= (1 << (--cidr))`. -/
def setBits : Nat → UInt32 → UInt32
  | 0, stop => stop
  | cidr + 1, stop => setBits cidr (stop ||| 1 <<< UInt32.ofNat cidr)

/-- `sizeof(range_copy)`. -/
def RANGE_COPY : Nat := 1024

/-- The subnet `value`/`cidr`. -/
def matchSubnet (ip value : UInt32) (cidr : Int) : Bool :=
  if cidr ≤ 0 ∨ 32 ≤ cidr then value = ip
  else
    let value := ntohl value
    if (value <<< UInt32.ofNat cidr.toNat) >>> UInt32.ofNat cidr.toNat ≠ 0 then value = ntohl ip
    else
      let host := 32 - cidr.toNat
      let begin := ntohl ((value >>> UInt32.ofNat host) <<< UInt32.ofNat host)
      ip4InRange ip begin (setBits host (ntohl value))

/-- Whether `ip4_match_range` returns 1; `none` for a range that `range_copy` does not hold with its NUL. -/
def ip4MatchRange (inet : Inet) (ip : UInt32) (range : List Byte) : Option Bool :=
  if RANGE_COPY - 1 ≤ range.length then none
  else
    some (match cutAt (ch '-') range with
      | none =>
        match cutAt (ch '/') range with
        | none => inet.ip4FromStr range = ip
        | some (front, back) =>
          -- a netmask has a dot in it
          let cidr := if ch '.' ∈ back then ip4MaskToCidr (inet.ip4FromStr back) else atoi back
          matchSubnet ip (inet.ip4FromStr front) cidr
      | some (front, back) =>
        let begin := if front = [] then 0 else inet.ip4FromStr front
        let stop := if back = [] then 0xffffffff else inet.ip4FromStr back
        ip4InRange ip begin stop)

/-! ## A subnet -/

/-- The first `h` bits set, from the low end of the first byte on. -/
def filled : Nat → List Byte → List Byte
  | _, [] => []
  | h, b :: bs => (b ||| UInt8.ofNat (2 ^ min h 8 - 1)) :: filled (h - 8) bs

theorem filled_length (l : List Byte) : ∀ h, (filled h l).length = l.length := by
  induction l with
  | nil => exact fun _ => rfl
  | cons b l ih => exact fun h => congrArg (· + 1) (ih (h - 8))

theorem setBits_toNat (n : Nat) : ∀ (x : UInt32), n < 32 → (setBits n x).toNat = x.toNat ||| (2 ^ n - 1) := by
  induction n with
  | zero =>
    intro x _
    rw [Nat.pow_zero, Nat.sub_self, Nat.or_zero]
    rfl
  | succ n ih =>
    intro x hlt
    have hn : n < 32 := Nat.lt_of_succ_lt hlt
    have hbit : (1 <<< UInt32.ofNat n : UInt32).toNat = 2 ^ n := by
      have hsize : n < UInt32.size := Nat.lt_trans hn (by decide)
      rw [UInt32.toNat_shiftLeft, UInt32.toNat_ofNat_of_lt' hsize, Nat.mod_eq_of_lt (by omega : n < 32)]
      have hlt : 2 ^ n < 2 ^ 32 := Nat.pow_lt_pow_right (by decide) (by omega)
      rw [UInt32.toNat_one, Nat.one_shiftLeft, Nat.mod_eq_of_lt hlt]
    have hor : 2 ^ n ||| (2 ^ n - 1) = 2 ^ (n + 1) - 1 := by
      have hpos := Nat.two_pow_pos n
      have hadd := @Nat.two_pow_add_eq_or_of_lt n (2 ^ n - 1) (by omega) 1
      rw [Nat.mul_one] at hadd
      rw [← hadd, Nat.pow_succ]
      omega
    rw [setBits, ih _ hn, UInt32.toNat_or, hbit, Nat.lor_assoc, hor]

/-- The low bits of a byte and of the bytes behind it. -/
theorem ones_mod (h : Nat) : (2 ^ h - 1) % 256 = 2 ^ min h 8 - 1 := by
  apply Nat.eq_of_testBit_eq
  intro i
  have hbits := @Nat.testBit_mod_two_pow (2 ^ h - 1) 8 i
  rw [Nat.testBit_two_pow_sub_one] at hbits
  rw [Nat.testBit_two_pow_sub_one]
  refine hbits.trans ?_
  rw [← Bool.decide_and]
  exact decide_eq_decide.mpr (by omega)

theorem ones_div (h : Nat) : (2 ^ h - 1) / 256 = 2 ^ (h - 8) - 1 := by
  apply Nat.eq_of_testBit_eq
  intro i
  have hbits := @Nat.testBit_div_two_pow 8 (2 ^ h - 1) i
  rw [Nat.testBit_two_pow_sub_one] at hbits
  rw [Nat.testBit_two_pow_sub_one]
  refine hbits.trans ?_
  exact decide_eq_decide.mpr (by omega)

/-- The bytes of the number with its low bits set. -/
theorem littleBytes_or_ones (w h n : Nat) :
    littleBytes w (n ||| (2 ^ h - 1)) = filled h (littleBytes w n) := by
  induction w generalizing h n with
  | zero => rfl
  | succ w ih =>
    have hmod : (n ||| (2 ^ h - 1)) % 256 = n % 256 ||| (2 ^ min h 8 - 1) := by
      rw [← ones_mod]
      exact @Nat.or_mod_two_pow n (2 ^ h - 1) 8
    have hdiv : (n ||| (2 ^ h - 1)) / 256 = n / 256 ||| (2 ^ (h - 8) - 1) := by
      rw [← ones_div, ← Nat.shiftRight_eq_div_pow _ 8, ← Nat.shiftRight_eq_div_pow _ 8,
        ← Nat.shiftRight_eq_div_pow _ 8, Nat.shiftRight_or_distrib]
    rw [littleBytes, littleBytes, filled, hmod, hdiv, ih, UInt8.ofNat_or]

section
variable {x : UInt32} {k : Nat}

theorem shiftRight_toNat (hk : k < 32) : (x >>> UInt32.ofNat k).toNat = x.toNat / 2 ^ k := by
  rw [UInt32.toNat_shiftRight, UInt32.toNat_ofNat_of_lt' (Nat.lt_trans hk (by decide)), Nat.mod_eq_of_lt hk,
    Nat.shiftRight_eq_div_pow]

theorem shiftLeft_toNat (hk : k < 32) : (x <<< UInt32.ofNat k).toNat = x.toNat * 2 ^ k % 2 ^ 32 := by
  rw [UInt32.toNat_shiftLeft, UInt32.toNat_ofNat_of_lt' (Nat.lt_trans hk (by decide)), Nat.mod_eq_of_lt hk,
    Nat.shiftLeft_eq]

/-- What is left of a number shifted up and down again. -/
theorem shift_up_down (hk : k < 32) :
    ((x <<< UInt32.ofNat k) >>> UInt32.ofNat k).toNat = x.toNat % 2 ^ (32 - k) := by
  have hpow : 2 ^ 32 = 2 ^ (32 - k) * 2 ^ k := by
    rw [← Nat.pow_add]
    congr 1
    omega
  rw [shiftRight_toNat hk, shiftLeft_toNat hk, hpow, Nat.mul_mod_mul_right,
    Nat.mul_div_cancel _ (Nat.two_pow_pos k)]

theorem shift_down_up (hk : k < 32) (h : x.toNat % 2 ^ k = 0) : (x >>> UInt32.ofNat k) <<< UInt32.ofNat k = x := by
  apply UInt32.toNat_inj.mp
  rw [shiftLeft_toNat hk, shiftRight_toNat hk, Nat.div_mul_cancel (Nat.dvd_of_mod_eq_zero h)]
  exact Nat.mod_eq_of_lt x.toNat_lt

end

/-- The number of an address. -/
def hostOrder (x : UInt32) : Nat := big (octets x)

section
variable {ip n : UInt32} {c : Nat}

/-- Every number of 32 bits is an address. -/
theorem hostOrder_exists {x : Nat} (h : x < 2 ^ 32) : ∃ ip, hostOrder ip = x := by
  refine ⟨ntohl (UInt32.ofNat x), ?_⟩
  rw [hostOrder, ← ntohl_toNat, ntohl_ntohl]
  exact UInt32.toNat_ofNat_of_lt' h

/-- **A subnet is matched** from its address on, up to the one with the bits set from the front. -/
theorem matchSubnet_eq (hc : 1 ≤ c ∧ c ≤ 31) (hhost : hostOrder n % 2 ^ (32 - c) = 0) :
    matchSubnet ip n c = true ↔ hostOrder n ≤ hostOrder ip ∧ hostOrder ip ≤ big (filled (32 - c) (octets n)) := by
  have hvalue : (ntohl n).toNat = hostOrder n := ntohl_toNat n
  have hzero : ((ntohl n <<< UInt32.ofNat c) >>> UInt32.ofNat c) = 0 := by
    apply UInt32.toNat_inj.mp
    rw [shift_up_down (by omega), hvalue, hhost]
    rfl
  have hbegin : (ntohl n >>> UInt32.ofNat (32 - c)) <<< UInt32.ofNat (32 - c) = ntohl n :=
    shift_down_up (by omega) (by rw [hvalue, hhost])
  have hstop : hostOrder (setBits (32 - c) n) = big (filled (32 - c) (octets n)) := by
    rw [hostOrder, octets, setBits_toNat _ _ (by omega), littleBytes_or_ones, octets]
  unfold matchSubnet
  rw [if_neg (by omega), Int.toNat_natCast]
  dsimp only
  rw [hzero, if_neg (fun h => h rfl), hbegin, ntohl_ntohl]
  unfold ip4InRange
  rw [Bool.and_eq_true, decide_eq_true_eq, decide_eq_true_eq, UInt32.le_iff_toNat_le, UInt32.le_iff_toNat_le,
    ntohl_toNat, ntohl_toNat, ntohl_toNat]
  rw [← hstop]
  rfl

end

/-! ## The text of a range -/

/-- How the length of a subnet is written: a number of bits, or a netmask. -/
inductive SubnetText (inet : Inet) (c : Nat) : List Byte → Prop where
  | bits : SubnetText inet c (unsignedText c)
  | mask (m : List Byte) (a : List Byte) (hm : inet.pton4 m = some a) (ha : big a = 2 ^ 32 - 2 ^ (32 - c)) :
      SubnetText inet c m

theorem lowestBit_mask : ∀ c < 32, 1 ≤ c → lowestBit (UInt32.ofNat (2 ^ 32 - 2 ^ (32 - c))) 32 0 = 32 - c := by
  decide +kernel

theorem atoi_bits : ∀ c < 32, atoi (unsignedText c) = c ∧ (unsignedText c).length ≤ 2 ∧
    ch '.' ∉ unsignedText c ∧ ch '-' ∉ unsignedText c := by
  decide +kernel

section
variable {inet : Inet} {ip : UInt32} {c : Nat} {n back a : List Byte}

theorem pton4_other {s : List Byte} {c : Byte} (h : inet.pton4 s = some a) (hdigit : isdigit c = false)
    (hdot : c ≠ ch '.') : c ∉ s := by
  intro hmem
  rcases (inet.pton4_text _ _ h).2.2 c hmem with hc | hc
  · rw [hdigit] at hc
    cases hc
  · exact hdot hc

theorem SubnetText.plain (h : SubnetText inet c back) (hc : c ≤ 31) :
    back.length < INET_ADDRSTRLEN ∧ ch '-' ∉ back := by
  cases h with
  | bits =>
    obtain ⟨-, hlen, -, hdash⟩ := atoi_bits c (by omega)
    exact ⟨Nat.lt_of_le_of_lt hlen (by decide), hdash⟩
  | mask _ a hm ha => exact ⟨(inet.pton4_text _ _ hm).1, pton4_other hm (by decide) (by decide)⟩

/-- The number of bits a text tells. -/
theorem SubnetText.cidr (h : SubnetText inet c back) (hc : 1 ≤ c ∧ c ≤ 31) :
    (if ch '.' ∈ back then ip4MaskToCidr (inet.ip4FromStr back) else atoi back) = c := by
  cases h with
  | bits =>
    obtain ⟨hatoi, -, hdot, -⟩ := atoi_bits c (by omega)
    rw [if_neg hdot, hatoi]
  | mask _ a hm ha =>
    have hsize := inet.pton4_size _ _ hm
    have hnumber : (ntohl (ofOctets a)).toNat = 2 ^ 32 - 2 ^ (32 - c) := by
      rw [ntohl_toNat, octets_ofOctets hsize, ha]
    have hmask : ntohl (ofOctets a) = UInt32.ofNat (2 ^ 32 - 2 ^ (32 - c)) := by
      rw [← hnumber, UInt32.ofNat_toNat]
    rw [if_pos (inet.pton4_text _ _ hm).2.1, Inet.ip4FromStr, hm, ip4MaskToCidr]
    dsimp only
    rw [hmask, lowestBit_mask c (by omega) hc.1]
    omega

/-- A subnet is found in its text. -/
theorem ip4MatchRange_subnet (hc : 1 ≤ c ∧ c ≤ 31) (hn : inet.pton4 n = some a) (hback : SubnetText inet c back)
    (hhost : big a % 2 ^ (32 - c) = 0) :
    ip4MatchRange inet ip (n ++ ch '/' :: back) = some true ↔
      big a ≤ hostOrder ip ∧ hostOrder ip ≤ big (filled (32 - c) a) := by
  obtain ⟨hlen, -⟩ := inet.pton4_text _ _ hn
  obtain ⟨hblen, hbdash⟩ := hback.plain hc.2
  have hsize := octets_ofOctets (inet.pton4_size _ _ hn)
  have hshort : ¬ RANGE_COPY - 1 ≤ (n ++ ch '/' :: back).length := by
    have hcopy : 2 * INET_ADDRSTRLEN ≤ RANGE_COPY - 1 := by decide
    rw [List.length_append, List.length_cons]
    omega
  have hdash : ch '-' ∉ n ++ ch '/' :: back := by
    intro hmem
    rcases List.mem_append.mp hmem with hmem | hmem
    · exact pton4_other hn (by decide) (by decide) hmem
    · rcases List.mem_cons.mp hmem with heq | hmem
      · exact absurd heq (by decide)
      · exact hbdash hmem
  have hslash : ch '/' ∉ n := pton4_other hn (by decide) (by decide)
  have hfront : inet.ip4FromStr n = ofOctets a := by rw [Inet.ip4FromStr, hn]
  unfold ip4MatchRange
  rw [if_neg hshort, cutAt_none hdash, cutAt_append hslash]
  dsimp only
  rw [hback.cidr hc, hfront, Option.some_inj, matchSubnet_eq hc (by rw [hostOrder, hsize, hhost]), hostOrder, hsize]

/-- **The last address of a subnet** is not the one up to which it is matched. -/
theorem subnet_missed {h : Nat} (hh : 1 ≤ h ∧ h ≤ 31) (ha : a.length = 4) (hhost : big a % 2 ^ h = 0) :
    big (filled h a) ≠ big a + (2 ^ h - 1) := by
  obtain ⟨a0, a1, a2, a3, rfl⟩ : ∃ a0 a1 a2 a3, a = [a0, a1, a2, a3] := by
    match a, ha with
    | [a0, a1, a2, a3], _ => exact ⟨a0, a1, a2, a3, rfl⟩
  have hlast : ∀ b0 b1 b2 b3 : Byte, big [b0, b1, b2, b3] % 256 = b3.toNat := by
    intro b0 b1 b2 b3
    have hb := b3.toNat_lt
    simp only [big, List.length_cons, List.length_nil]
    omega
  have hones := ones_mod h
  intro heq
  have hmod := congrArg (· % 256) heq
  simp only [filled] at hmod
  rw [hlast, Nat.add_mod, hlast, hones] at hmod
  by_cases hlow : h ≤ 24
  · -- the last byte keeps its bits
    have hzero : h - 8 - 8 - 8 = 0 := by omega
    have hpow : 2 ≤ 2 ^ min h 8 := Nat.le_self_pow (by omega) 2
    have hmax : 2 ^ min h 8 ≤ 2 ^ 8 := Nat.pow_le_pow_right (by decide) (Nat.min_le_right _ _)
    have hkept : a3 ||| UInt8.ofNat (2 ^ min (h - 8 - 8 - 8) 8 - 1) = a3 := by
      rw [hzero]
      exact UInt8.or_zero
    have hlt := a3.toNat_lt
    rw [hkept] at hmod
    omega
  · -- not all of its bits are set
    have hdvd : 256 ∣ big [a0, a1, a2, a3] :=
      Nat.dvd_trans (Nat.pow_dvd_pow 2 (by omega : 8 ≤ h)) (Nat.dvd_of_mod_eq_zero hhost)
    have hzero : a3.toNat = 0 := by
      rw [← hlast a0 a1 a2 a3]
      exact Nat.mod_eq_zero_of_dvd hdvd
    have hbyte : a3 = 0 := UInt8.toNat_inj.mp hzero
    have hbits : h - 8 - 8 - 8 ≤ 7 := by omega
    have hpow : 2 ^ min (h - 8 - 8 - 8) 8 ≤ 2 ^ 7 := Nat.pow_le_pow_right (by decide) (by omega)
    have hmin : min h 8 = 8 := by omega
    rw [hbyte, UInt8.zero_or, UInt8.toNat_ofNat', hmin] at hmod
    simp only [UInt8.toNat_zero] at hmod
    omega

/-- The address is in the subnet of `n` with `c` bits. -/
def SameSubnet (c : Nat) (n : List Byte) (ip : UInt32) : Prop := hostOrder ip / 2 ^ (32 - c) = big n / 2 ^ (32 - c)

/-- The addresses for which the answer is right: those in front of the subnet, those in it up to the address
with the host bits set in the first bytes, and those behind the subnet and that address. -/
def AnsweredRight (c : Nat) (n : List Byte) (ip : UInt32) : Prop :=
  hostOrder ip < big n ∨
    SameSubnet c n ip ∧ hostOrder ip ≤ big (filled (32 - c) n) ∨
    ¬ SameSubnet c n ip ∧ big (filled (32 - c) n) < hostOrder ip

/-- **When a subnet matches as it should**; and for no subnet this holds of every address. -/
theorem range_iff (hc : 1 ≤ c ∧ c ≤ 31) (hn : inet.pton4 n = some a) (hback : SubnetText inet c back)
    (hhost : big a % 2 ^ (32 - c) = 0) :
    (∀ ip, (ip4MatchRange inet ip (n ++ ch '/' :: back) = some true ↔ SameSubnet c a ip) ↔ AnsweredRight c a ip) ∧
      ∃ ip, ¬ AnsweredRight c a ip := by
  have hpos := Nat.two_pow_pos (32 - c)
  have hsplit := Nat.div_add_mod (big a) (2 ^ (32 - c))
  rw [hhost, Nat.add_zero, Nat.mul_comm] at hsplit
  constructor
  · intro ip
    -- below its own address there is nothing of the subnet
    have hbelow : hostOrder ip < big a → ¬ SameSubnet c a ip := by
      intro hlt hsame
      have hle := Nat.div_mul_le_self (hostOrder ip) (2 ^ (32 - c))
      unfold SameSubnet at hsame
      rw [hsame, hsplit] at hle
      omega
    rw [ip4MatchRange_subnet hc hn hback hhost]
    unfold AnsweredRight
    by_cases hlt : hostOrder ip < big a
    · exact iff_of_true (iff_of_false (by omega) (hbelow hlt)) (Or.inl hlt)
    · have hle := Nat.not_lt.mp hlt
      by_cases hsame : SameSubnet c a ip
      · by_cases hfilled : hostOrder ip ≤ big (filled (32 - c) a)
        · exact iff_of_true (iff_of_true ⟨hle, hfilled⟩ hsame) (Or.inr (Or.inl ⟨hsame, hfilled⟩))
        · refine iff_of_false (fun h => hfilled (h.mpr hsame).2) ?_
          intro h
          rcases h with h | h | h
          · exact hlt h
          · exact hfilled h.2
          · exact h.1 hsame
      · by_cases hfilled : hostOrder ip ≤ big (filled (32 - c) a)
        · refine iff_of_false (fun h => hsame (h.mp ⟨hle, hfilled⟩)) ?_
          intro h
          rcases h with h | h | h
          · exact hlt h
          · exact hsame h.1
          · exact absurd h.2 (Nat.not_lt.mpr hfilled)
        · exact iff_of_true (iff_of_false (fun h => hfilled h.2) hsame)
            (Or.inr (Or.inr ⟨hsame, Nat.not_le.mp hfilled⟩))
  · have hsize := inet.pton4_size _ _ hn
    have hmissed := subnet_missed (by omega) hsize hhost
    have hlast : (big a + (2 ^ (32 - c) - 1)) / 2 ^ (32 - c) = big a / 2 ^ (32 - c) := by
      rw [← hsplit, Nat.mul_comm, Nat.mul_add_div hpos, Nat.mul_div_cancel_left _ hpos,
        Nat.div_eq_of_lt (Nat.sub_lt hpos Nat.one_pos), Nat.add_zero]
    have hlt32 : big a + (2 ^ (32 - c) - 1) < 2 ^ 32 := by
      have hpow : 2 ^ 32 = 2 ^ c * 2 ^ (32 - c) := by
        rw [← Nat.pow_add]
        congr 1
        omega
      have hbig := big_lt a
      have h256 : 256 ^ 4 = 2 ^ 32 := by decide
      rw [hsize, h256, hpow, ← hsplit] at hbig
      have hquot := Nat.mul_le_mul_right (2 ^ (32 - c)) (Nat.succ_le_of_lt (Nat.lt_of_mul_lt_mul_right hbig))
      rw [Nat.succ_mul, hsplit, ← hpow] at hquot
      omega
    have hfilled32 : big (filled (32 - c) a) < 2 ^ 32 := by
      have hbig := big_lt (filled (32 - c) a)
      rw [filled_length, hsize] at hbig
      exact hbig
    rcases Nat.lt_or_gt_of_ne hmissed with hlt | hgt
    · -- the last address of the subnet is left out
      obtain ⟨ip, hip⟩ := hostOrder_exists hlt32
      refine ⟨ip, ?_⟩
      unfold AnsweredRight SameSubnet
      rw [hip]
      omega
    · -- an address behind the subnet is let in
      obtain ⟨ip, hip⟩ := hostOrder_exists hfilled32
      have hother : big (filled (32 - c) a) / 2 ^ (32 - c) ≠ big a / 2 ^ (32 - c) := by
        intro hsame
        have hend := @Nat.lt_div_mul_add (big (filled (32 - c) a)) _ hpos
        rw [hsame, hsplit] at hend
        omega
      refine ⟨ip, ?_⟩
      unfold AnsweredRight SameSubnet
      rw [hip]
      omega

end

/-- The subnet 10.0.0.0/8. -/
theorem range_ten : (1 ≤ 8 ∧ 8 ≤ 31) ∧ fullTexts.pton4 (str "10.0.0.0") = some [10, 0, 0, 0] ∧
    SubnetText fullTexts 8 (unsignedText 8) ∧ big [10, 0, 0, 0] % 2 ^ (32 - 8) = 0 ∧
    (∀ ip, (ip4MatchRange fullTexts ip (str "10.0.0.0" ++ ch '/' :: unsignedText 8) = some true ↔
        SameSubnet 8 [10, 0, 0, 0] ip) ↔ AnsweredRight 8 [10, 0, 0, 0] ip) ∧
      ∃ ip, ¬ AnsweredRight 8 [10, 0, 0, 0] ip := by
  have hten : fullTexts.pton4 (str "10.0.0.0") = some [10, 0, 0, 0] := by decide +kernel
  exact ⟨by decide, hten, .bits, by decide, range_iff (by decide) hten .bits (by decide)⟩

/-- 11.0.0.1 is matched by 10.0.0.0/8. -/
theorem range_beyond : ip4MatchRange fullTexts (ofOctets [11, 0, 0, 1]) (str "10.0.0.0/8") = some true ∧
    ¬ SameSubnet 8 [10, 0, 0, 0] (ofOctets [11, 0, 0, 1]) := by
  refine ⟨by decide +kernel, ?_⟩
  unfold SameSubnet
  decide +kernel

end WafProxy
