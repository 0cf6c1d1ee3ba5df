import WafProxy.Ip.Addr
import WafProxy.Lib.Comparison

/-
  Comparing addresses — `ip_addr_compare` and `ip_port_compare` of ip_addr.c

  Two IPv4 addresses compare as numbers, two IPv6 addresses as texts, and of two
  addresses of different families the IPv4 one is mapped to IPv6 first. When it is
  the first of the two, the code maps the other one instead, which fails: the
  result is then -1 whatever the addresses are.

  What is proved:
    1. `compare_same`, `compare_v6_v4`, `compare_v4_v6` — what each pair of families
       gives, against the number that an address is after mapping.
    2. `addrs_iff`, `ports_iff` — the sets on which the functions are orders.
    3. `order_iff` — both of them.

  Correspondence (C ↔ Lean):
    `ip_addr_compare`   ↔ `ipAddrCompare`
    `ip_port_compare`   ↔ `ipPortCompare`
-/

namespace WafProxy
open Lib

/-! ## The functions -/

/-- `ip_addr_compare` on two pointers, with what they point at. -/
def ipAddrCompare (mem : Nat → IpAddr) : Option Nat → Option Nat → Int
  | some _, none => 1
  | none, some _ => -1
  | none, none => 0
  | some p1, some p2 =>
    let ip1 := mem p1
    let ip2 := mem p2
    if p1 = p2 then 0
    else if ip1.family = ip2.family then
      if ip1.family = AF_INET then
        let lv := ntohl ip1.sAddr
        let rv := ntohl ip2.sAddr
        if lv = rv then 0 else if lv < rv then -1 else 1
      else memcmp ip1.addr ip2.addr
    else if ip1.family = AF_INET then
      -- the address that is mapped is `ip2`, as in the branch below
      match ipAddrV4ToV6 ip2 with
      | none => -1
      | some v6 => memcmp v6.addr ip2.addr
    else if ip2.family = AF_INET then
      match ipAddrV4ToV6 ip2 with
      | none => -1
      | some v6 => memcmp ip1.addr v6.addr
    else -1

def ipPortCompare (mem : Nat → IpPort) : Option Nat → Option Nat → Int
  | some _, none => 1
  | none, some _ => -1
  | none, none => 0
  | some p1, some p2 =>
    if p1 = p2 then 0
    else
      let ret := ipAddrCompare (fun p => (mem p).toIpAddr) (some p1) (some p2)
      if ret ≠ 0 then ret else ((ntohs (mem p1).port).toNat : Int) - (ntohs (mem p2).port).toNat

/-! ## Mapped addresses -/

/-- An address after mapping IPv4 to IPv6. -/
def IpAddr.mapped (ip : IpAddr) : IpAddr := (ipAddrV4ToV6 ip).getD ip

/-- The number a mapped address is. -/
def IpAddr.number (ip : IpAddr) : Nat := big ip.mapped.addr

theorem mapped_v4 {ip : IpAddr} (h : ip.family = AF_INET) (hlen : ip.addr.length = 4) :
    ip.mapped = { family := AF_INET6, addr := mappedFront ++ ip.addr } := by
  unfold IpAddr.mapped ipAddrV4ToV6
  rw [if_neg (fun hne => hne h), List.take_of_length_le (Nat.le_of_eq hlen)]
  rfl

theorem mapped_v6 {ip : IpAddr} (h : ip.family = AF_INET6) : ip.mapped = ip := by
  have hne : ip.family ≠ AF_INET := by rw [h]; decide
  unfold IpAddr.mapped ipAddrV4ToV6
  rw [if_pos hne]
  rfl

theorem mapped_family {ip : IpAddr} (h : ip.Valid) : ip.mapped.family = AF_INET6 := by
  rcases h with ⟨hfamily, hlen⟩ | ⟨hfamily, -⟩
  · rw [mapped_v4 hfamily hlen]
  · rw [mapped_v6 hfamily, hfamily]

theorem mapped_length {ip : IpAddr} (h : ip.Valid) : ip.mapped.addr.length = 16 := by
  rcases h with ⟨hfamily, hlen⟩ | ⟨hfamily, hlen⟩
  · rw [mapped_v4 hfamily hlen, List.length_append, hlen]
    rfl
  · rw [mapped_v6 hfamily, hlen]

/-- Mapped addresses are known by their number. -/
theorem number_eq {a b : IpAddr} (ha : a.Valid) (hb : b.Valid) : a.number = b.number ↔ a.mapped = b.mapped := by
  constructor
  · intro h
    have haddr := big_inj ((mapped_length ha).trans (mapped_length hb).symm) h
    have hfamily := (mapped_family ha).trans (mapped_family hb).symm
    calc a.mapped = ⟨a.mapped.family, a.mapped.addr⟩ := rfl
      _ = ⟨b.mapped.family, b.mapped.addr⟩ := by rw [haddr, hfamily]
  · intro h
    unfold IpAddr.number
    rw [h]

/-- Bytes of one length compare as numbers. -/
theorem compares_memcmp {l r : List Byte} (h : l.length = r.length) : Compares (memcmp l r) (big l) (big r) :=
  ⟨memcmp_neg h, memcmp_pos h⟩

/-- What stands in front of two texts does not matter. -/
theorem compares_front {x : Int} {l r : List Byte} (front : List Byte) (hlen : l.length = r.length)
    (h : Compares x (big l) (big r)) : Compares x (big (front ++ l)) (big (front ++ r)) := by
  rw [big_append, big_append, hlen]
  constructor
  · rw [h.neg]
    omega
  · rw [h.pos]
    omega

/-! ## Addresses -/

section
variable {mem : Nat → IpAddr} {p q : Nat}

/-- IPv4 addresses compare as numbers. -/
theorem compares_ntohl (x y : UInt32) :
    Compares (if ntohl x = ntohl y then 0 else if ntohl x < ntohl y then -1 else 1) (big (octets x))
      (big (octets y)) := by
  rw [← ntohl_toNat, ← ntohl_toNat]
  by_cases heq : ntohl x = ntohl y
  · rw [if_pos heq]
    exact Compares.same (congrArg UInt32.toNat heq)
  · have hne : (ntohl x).toNat ≠ (ntohl y).toNat := fun h => heq (UInt32.toNat_inj.mp h)
    rw [if_neg heq]
    by_cases hlt : ntohl x < ntohl y
    · have hnat := UInt32.lt_iff_toNat_lt.mp hlt
      rw [if_pos hlt]
      exact ⟨by omega, by omega⟩
    · have hnat : ¬ (ntohl x).toNat < (ntohl y).toNat := fun h => hlt (UInt32.lt_iff_toNat_lt.mpr h)
      rw [if_neg hlt]
      exact ⟨by omega, by omega⟩

theorem compare_same (hp : (mem p).Valid) (hq : (mem q).Valid) (h : (mem p).family = (mem q).family) :
    Compares (ipAddrCompare mem (some p) (some q)) (mem p).number (mem q).number := by
  have hlen := hp.length_eq hq h
  unfold ipAddrCompare
  dsimp only
  by_cases hpq : p = q
  · rw [if_pos hpq]
    exact Compares.same (by rw [hpq])
  · rw [if_neg hpq, if_pos h]
    unfold IpAddr.number
    rcases hp with ⟨hfamily, hlen4⟩ | ⟨hfamily, hlen6⟩
    · rw [if_pos hfamily, mapped_v4 hfamily hlen4, mapped_v4 (h.symm.trans hfamily) (hlen.symm.trans hlen4)]
      apply compares_front _ hlen
      have hcompares := compares_ntohl (mem p).sAddr (mem q).sAddr
      rw [IpAddr.octets_sAddr hlen4, IpAddr.octets_sAddr (hlen.symm.trans hlen4)] at hcompares
      exact hcompares
    · have hne : (mem p).family ≠ AF_INET := by rw [hfamily]; decide
      rw [if_neg hne, mapped_v6 hfamily, mapped_v6 (h.symm.trans hfamily)]
      exact compares_memcmp hlen

theorem compare_v6_v4 (hp : (mem p).Valid) (hq : (mem q).Valid) (h6 : (mem p).family = AF_INET6)
    (h4 : (mem q).family = AF_INET) :
    Compares (ipAddrCompare mem (some p) (some q)) (mem p).number (mem q).number := by
  have hdiffer : (mem p).family ≠ (mem q).family := by rw [h6, h4]; decide
  have hpq : p ≠ q := fun heq => hdiffer (by rw [heq])
  have hne : (mem p).family ≠ AF_INET := by rw [h6]; decide
  have hmapped : ipAddrV4ToV6 (mem q) = some (mem q).mapped := by
    unfold IpAddr.mapped ipAddrV4ToV6
    rw [if_neg (fun hn => hn h4)]
    rfl
  unfold ipAddrCompare
  dsimp only
  rw [if_neg hpq, if_neg hdiffer, if_neg hne, if_pos h4, hmapped]
  unfold IpAddr.number
  have hlen := (mapped_length hp).trans (mapped_length hq).symm
  rw [mapped_v6 h6] at hlen ⊢
  exact compares_memcmp hlen

/-- **An IPv4 address is less** than any IPv6 address. -/
theorem compare_v4_v6 (h4 : (mem p).family = AF_INET) (h6 : (mem q).family = AF_INET6) :
    ipAddrCompare mem (some p) (some q) = -1 := by
  have hdiffer : (mem p).family ≠ (mem q).family := by rw [h6, h4]; decide
  have hpq : p ≠ q := fun heq => hdiffer (by rw [heq])
  have hne : (mem q).family ≠ AF_INET := by rw [h6]; decide
  unfold ipAddrCompare ipAddrV4ToV6
  dsimp only
  rw [if_neg hpq, if_neg hdiffer, if_pos h4, if_pos hne]

/-- Both ways of comparing two addresses. -/
theorem compare_cases (hp : (mem p).Valid) (hq : (mem q).Valid) :
    (mem p).family = AF_INET ∧ (mem q).family = AF_INET6 ∨
      Compares (ipAddrCompare mem (some p) (some q)) (mem p).number (mem q).number := by
  -- of the four pairs of families only IPv4 against IPv6 goes wrong
  rcases hp.imp And.left And.left with hp' | hp' <;> rcases hq.imp And.left And.left with hq' | hq'
  · exact Or.inr (compare_same hp hq (hp'.trans hq'.symm))
  · exact Or.inl ⟨hp', hq'⟩
  · exact Or.inr (compare_v6_v4 hp hq hp' hq')
  · exact Or.inr (compare_same hp hq (hp'.trans hq'.symm))

end

/-- The order on the addresses of a set of objects that the comparison should be. -/
def AddrsOrdered (mem : Nat → IpAddr) (S : Set Nat) : Prop :=
  Orders S (fun p q => (mem p).mapped = (mem q).mapped) fun p q => ipAddrCompare mem (some p) (some q)

/-- Every IPv4 address comes before every IPv6 address. -/
def V4First (mem : Nat → IpAddr) (S : Set Nat) : Prop :=
  ∀ p ∈ S, ∀ q ∈ S, (mem p).family = AF_INET → (mem q).family = AF_INET6 → (mem p).number < (mem q).number

/-- **Addresses** are ordered when mapping puts IPv4 in front of IPv6. -/
theorem addrs_iff {mem : Nat → IpAddr} {S : Set Nat} (hvalid : ∀ p ∈ S, (mem p).Valid) :
    AddrsOrdered mem S ↔ V4First mem S := by
  constructor
  · intro h p hp q hq h4 h6
    have hback := compare_v6_v4 (hvalid q hq) (hvalid p hp) h6 h4
    have hsign := h.antisymm p hp q hq
    rw [compare_v4_v6 h4 h6] at hsign
    have hone : (ipAddrCompare mem (some q) (some p)).sign = 1 := by
      have hminus : (-1 : Int).sign = -1 := rfl
      omega
    exact hback.pos.mp (Int.sign_eq_one_iff_pos.mp hone)
  · intro h
    refine (Compares.orders ?_).congr fun p hp q hq => number_eq (hvalid p hp) (hvalid q hq)
    intro p hp q hq
    rcases compare_cases (hvalid p hp) (hvalid q hq) with ⟨h4, h6⟩ | hcompares
    · have hlt := h p hp q hq h4 h6
      rw [compare_v4_v6 h4 h6]
      exact Compares.of_neg (by omega) hlt
    · exact hcompares

/-! ## Addresses with ports -/

section
variable {mem : Nat → IpPort} {p q : Nat}

/-- The port in host order. -/
def IpPort.portNumber (ip : IpPort) : Nat := (ntohs ip.port).toNat

theorem portNumber_eq {a b : IpPort} : a.portNumber = b.portNumber ↔ a.port = b.port :=
  UInt16.toNat_inj.trans ntohs_inj

/-- An address with its port as a key. -/
def IpPort.key (ip : IpPort) : Lex (Nat × Nat) := toLex (ip.number, ip.portNumber)

theorem compares_sub (m n : Nat) : Compares ((m : Int) - n) m n := ⟨by omega, by omega⟩

/-- The address decides, and where it does not the port. -/
theorem ipPortCompare_distinct (h : p ≠ q) :
    ipPortCompare mem (some p) (some q) =
      if ipAddrCompare (fun p => (mem p).toIpAddr) (some p) (some q) ≠ 0 then
        ipAddrCompare (fun p => (mem p).toIpAddr) (some p) (some q)
      else ((mem p).portNumber : Int) - (mem q).portNumber := if_neg h

theorem portCompare_v4_v6 (h4 : (mem p).family = AF_INET) (h6 : (mem q).family = AF_INET6) :
    ipPortCompare mem (some p) (some q) = -1 := by
  have hdiffer : (mem p).family ≠ (mem q).family := by rw [h6, h4]; decide
  have haddr := @compare_v4_v6 (fun p => (mem p).toIpAddr) p q h4 h6
  rw [ipPortCompare_distinct (fun heq => hdiffer (by rw [heq])), haddr]
  rfl

theorem portCompares (h : Compares (ipAddrCompare (fun p => (mem p).toIpAddr) (some p) (some q))
    (mem p).number (mem q).number) : Compares (ipPortCompare mem (some p) (some q)) (mem p).key (mem q).key := by
  by_cases hpq : p = q
  · have hzero : ipPortCompare mem (some p) (some q) = 0 := if_pos hpq
    rw [hzero]
    exact Compares.same (by rw [hpq])
  · rw [ipPortCompare_distinct hpq]
    exact h.lex (compares_sub _ _)

end

/-- A total order on a set of addresses with ports that refines the one of the addresses by port. -/
structure PortsOrdered (mem : Nat → IpPort) (T : Set Nat) : Prop where
  order : Orders T (fun p q => (mem p).mapped = (mem q).mapped ∧ (mem p).port = (mem q).port)
    fun p q => ipPortCompare mem (some p) (some q)
  refines : ∀ p ∈ T, ∀ q ∈ T, ipAddrCompare (fun p => (mem p).toIpAddr) (some p) (some q) ≠ 0 →
    (ipPortCompare mem (some p) (some q)).sign =
      (ipAddrCompare (fun p => (mem p).toIpAddr) (some p) (some q)).sign
  ports : ∀ p ∈ T, ∀ q ∈ T, (mem p).mapped = (mem q).mapped →
    (ipPortCompare mem (some p) (some q)).sign = (((mem p).portNumber : Int) - (mem q).portNumber).sign

/-- Every IPv4 address comes before every IPv6 address, or is the same when mapped and has a lower port. -/
def PortsV4First (mem : Nat → IpPort) (T : Set Nat) : Prop :=
  ∀ p ∈ T, ∀ q ∈ T, (mem p).family = AF_INET → (mem q).family = AF_INET6 →
    (mem p).number < (mem q).number ∨ (mem p).number = (mem q).number ∧ (mem p).portNumber < (mem q).portNumber

/-- **Addresses with ports** are ordered when mapping puts IPv4 in front of IPv6, or the port does. -/
theorem ports_iff {mem : Nat → IpPort} {T : Set Nat} (hvalid : ∀ p ∈ T, (mem p).Valid) :
    PortsOrdered mem T ↔ PortsV4First mem T := by
  constructor
  · intro h p hp q hq h4 h6
    have hback := portCompares (@compare_v6_v4 (fun p => (mem p).toIpAddr) q p (hvalid q hq) (hvalid p hp) h6 h4)
    have hsign := h.order.antisymm p hp q hq
    rw [portCompare_v4_v6 h4 h6] at hsign
    have hone : (ipPortCompare mem (some q) (some p)).sign = 1 := by
      have hminus : (-1 : Int).sign = -1 := rfl
      omega
    exact Prod.Lex.toLex_lt_toLex.mp (hback.pos.mp (Int.sign_eq_one_iff_pos.mp hone))
  · intro h
    have hall : ∀ p ∈ T, ∀ q ∈ T, Compares (ipPortCompare mem (some p) (some q)) (mem p).key (mem q).key := by
      intro p hp q hq
      rcases @compare_cases (fun p => (mem p).toIpAddr) p q (hvalid p hp) (hvalid q hq) with ⟨h4, h6⟩ | hcompares
      · rw [portCompare_v4_v6 h4 h6]
        exact Compares.of_neg (by omega) (Prod.Lex.toLex_lt_toLex.mpr (h p hp q hq h4 h6))
      · exact portCompares hcompares
    refine ⟨?_, fun p hp q hq hne => ?_, fun p hp q hq hmapped => ?_⟩
    · refine (Compares.orders hall).congr fun p hp q hq => ?_
      unfold IpPort.key
      rw [toLex_inj, Prod.mk.injEq, number_eq (hvalid p hp) (hvalid q hq), portNumber_eq]
    · have hpq : p ≠ q := fun heq => hne (by rw [heq]; exact if_pos rfl)
      rw [ipPortCompare_distinct hpq, if_pos hne]
    · have hnumber := (number_eq (hvalid p hp) (hvalid q hq)).mpr hmapped
      have hport := (Compares.same hnumber).lex (compares_sub (mem p).portNumber (mem q).portNumber)
      exact (hall p hp q hq).sign_eq hport

/-- **The order of addresses**: the sets on which each of the two functions is one. -/
theorem order_iff (S : Set Nat) :
    (∀ mem : Nat → IpAddr, (∀ p ∈ S, (mem p).Valid) → (AddrsOrdered mem S ↔ V4First mem S)) ∧
    ∀ mem : Nat → IpPort, (∀ p ∈ S, (mem p).Valid) → (PortsOrdered mem S ↔ PortsV4First mem S) :=
  ⟨fun _ hvalid => addrs_iff hvalid, fun _ hvalid => ports_iff hvalid⟩

/-- 1.2.3.4 and 2001::, which is behind it. -/
def lowerV4 : Nat → IpPort
  | 0 => { family := AF_INET, addr := [1, 2, 3, 4], port := 80 }
  | _ => { family := AF_INET6, addr := [32, 1, 0, 0, 0, 0, 0, 0, 0, 0, 0, 0, 0, 0, 0, 0], port := 80 }

theorem lowerV4_valid (p : Nat) : (lowerV4 p).Valid := by
  cases p with
  | zero => exact Or.inl ⟨rfl, rfl⟩
  | succ p => exact Or.inr ⟨rfl, rfl⟩

/-- Mapped, 1.2.3.4 is the lower one. -/
theorem lowerV4_first : V4First (fun p => (lowerV4 p).toIpAddr) Set.univ := by
  have hne : AF_INET6 ≠ AF_INET := by decide
  intro p _ q _ h4 h6
  cases p with
  | succ p => exact absurd h4 hne
  | zero =>
    cases q with
    | zero => exact absurd h6.symm hne
    | succ q => exact (by decide : (lowerV4 0).number < (lowerV4 1).number)

/-- Both functions order 1.2.3.4 and 2001::. -/
theorem order_lowerV4 :
    AddrsOrdered (fun p => (lowerV4 p).toIpAddr) Set.univ ∧ PortsOrdered lowerV4 Set.univ := by
  have hvalid : ∀ p ∈ Set.univ, (lowerV4 p).Valid := fun p _ => lowerV4_valid p
  obtain ⟨haddrs, hports⟩ := order_iff Set.univ
  refine ⟨(haddrs _ hvalid).mpr lowerV4_first, (hports _ hvalid).mpr fun p hp q hq h4 h6 => ?_⟩
  exact Or.inl (lowerV4_first p hp q hq h4 h6)

/-- 1.2.3.4 and ::1, each less than the other. -/
def eitherLess : Nat → IpPort
  | 0 => { family := AF_INET, addr := [1, 2, 3, 4], port := 80 }
  | _ => { family := AF_INET6, addr := [0, 0, 0, 0, 0, 0, 0, 0, 0, 0, 0, 0, 0, 0, 0, 1], port := 80 }

/-- Neither function orders 1.2.3.4 and ::1. -/
theorem order_eitherLess :
    (∀ p, (eitherLess p).Valid) ∧
    ipAddrCompare (fun p => (eitherLess p).toIpAddr) (some 0) (some 1) < 0 ∧
    ipAddrCompare (fun p => (eitherLess p).toIpAddr) (some 1) (some 0) < 0 ∧
    ¬ AddrsOrdered (fun p => (eitherLess p).toIpAddr) Set.univ ∧ ¬ PortsOrdered eitherLess Set.univ := by
  refine ⟨fun p => ?_, by decide, by decide, fun h => ?_, fun h => ?_⟩
  · cases p
    · exact Or.inl ⟨rfl, rfl⟩
    · exact Or.inr ⟨rfl, rfl⟩
  · have hsign := h.antisymm 0 (Set.mem_univ 0) 1 (Set.mem_univ 1)
    revert hsign
    decide
  · have hsign := h.order.antisymm 0 (Set.mem_univ 0) 1 (Set.mem_univ 1)
    revert hsign
    decide

end WafProxy
