import WafProxy.Ip.Texts
import WafProxy.Lib.Decimal

/-
  Reading addresses with ports — `ip_port_from_str` of ip_addr.c

  A text is copied into a buffer of 512 bytes and cut at the first `:`, or at the
  first `]` when it begins with `[`. What stands in front goes to
  `ip_addr_from_str`, what stands behind to `atoi`. Between them is a loop over
  the port: behind `]` it stops at the first white space and wants digits up to
  there, and behind `:` it stops at the first byte that is no white space.

  What is proved:
    1. `addrPort_parses` — a text of an address and a port is read as these.
    2. `v4_meets`, `v6_meets` — a text that is cut is refused when it should be,
       unless it is one of those that get past the checks.
    3. `grammar_iff` — the texts on which the code accepts the grammar.

  Correspondence (C ↔ Lean):
    the loops over `ptr2`    ↔ `portLoop6`, `portLoop4`
    `ip_port_from_str`       ↔ `ipPortFromStr`
-/

namespace WafProxy
open Lib

/-! ## The functions -/

/-- The loop behind `]`. -/
def portLoop6 : List Byte → Bool
  | [] => true
  | b :: t => if isspace b then true else if !isdigit b then false else portLoop6 t

/-- The loop behind `:`. -/
def portLoop4 : List Byte → Bool
  | [] => true
  | b :: t => if !isspace b then true else if !isdigit b then false else portLoop4 t

/-- What is done behind both loops. -/
def storePort (ip : IpPort) (t : List Byte) : Int × IpPort :=
  let port := atoi t
  if port < 0 ∨ 65535 < port then (-1, ip) else (0, { ip with port := ntohs (UInt16.ofNat port.toNat) })

/-- `ip_port_from_str`; `none` when it reads behind the end of `buf`. -/
def ipPortFromStr (inet : Inet) (ip : IpPort) (s : List Byte) : Option (Int × IpPort) :=
  let buf := s.take 511
  if buf.head? = some (ch '[') then
    match cutAt (ch ']') buf with
    | none => some (-1, ip)
    | some (front, back) =>
      let r := inet.ipAddrFromStr ip.toIpAddr front.tail
      let ip := { ip with toIpAddr := r.2 }
      if r.1 ≠ 0 then some (-1, ip)
      -- `ptr1 += 2`; the bytes behind the text are 0
      else if 512 ≤ front.length + 2 then none
      else if !portLoop6 back.tail then some (-1, ip)
      else some (storePort ip back.tail)
  else
    match cutAt (ch ':') buf with
    | none => some (-1, ip)
    | some (front, back) =>
      let r := inet.ipAddrFromStr ip.toIpAddr front
      let ip := { ip with toIpAddr := r.2 }
      if r.1 ≠ 0 then some (-1, ip)
      else if !portLoop4 back then some (-1, ip)
      else some (storePort ip back)

/-! ## The grammar -/

/-- One or more decimal digits of a value of at most 65535, and white space and anything behind them, or nothing. -/
def PortText (t : List Byte) (n : Nat) : Prop :=
  ∃ digs tail, t = digs ++ tail ∧ digs ≠ [] ∧ (∀ c ∈ digs, isdigit c = true) ∧ digits 10 0 digs = n ∧ n ≤ 65535 ∧
    ∀ c ∈ tail.head?, isspace c = true

/-- An IPv4 address, `:` and a port, or an IPv6 address in brackets, `:` and a port. -/
def AddrPort (inet : Inet) (s : List Byte) (ip : IpAddr) (n : Nat) : Prop :=
  (∃ a t, s = a ++ ch ':' :: t ∧ ip.family = AF_INET ∧ inet.pton4 a = some ip.addr ∧ PortText t n) ∨
    ∃ a t, s = ch '[' :: a ++ ch ']' :: ch ':' :: t ∧ ip.family = AF_INET6 ∧ inet.pton6 a = some ip.addr ∧
      PortText t n

/-- The text is accepted if it is in the grammar and only then, and what it says is stored. -/
def MeetsGrammar (inet : Inet) (ip : IpPort) (s : List Byte) : Prop :=
  ∃ r, ipPortFromStr inet ip s = some r ∧ (r.1 = 0 ↔ ∃ addr n, AddrPort inet s addr n) ∧
    ∀ addr n, AddrPort inet s addr n → r.2 = { addr with port := ntohs (UInt16.ofNat n) }

/-! ## Ports -/

theorem isdigit_not_space {c : Byte} (h : isdigit c = true) : isspace c = false :=
  (isxdigit_plain (isdigit_isxdigit c h)).1

theorem isspace_not_digit {c : Byte} (h : isspace c = true) : isdigit c = false := by
  cases hd : isdigit c with
  | false => rfl
  | true => rw [isdigit_not_space hd] at h; cases h

/-- The loop behind `:` refuses a port that begins with white space. -/
theorem portLoop4_iff (t : List Byte) : portLoop4 t = true ↔ ∀ c ∈ t.head?, isspace c = false := by
  cases t with
  | nil => exact iff_of_true rfl (fun c hc => by cases hc)
  | cons b t =>
    rw [portLoop4]
    cases hb : isspace b with
    | false => exact iff_of_true (if_pos rfl) (fun c hc => by cases hc; exact hb)
    | true =>
      rw [if_neg (by decide), isspace_not_digit hb, if_pos (by decide)]
      exact iff_of_false Bool.false_ne_true (fun h => by rw [h b rfl] at hb; cases hb)

theorem portLoop6_digits {digs tail : List Byte} (hdigs : ∀ c ∈ digs, isdigit c = true)
    (htail : ∀ c ∈ tail.head?, isspace c = true) : portLoop6 (digs ++ tail) = true := by
  induction digs with
  | nil =>
    cases tail with
    | nil => rfl
    | cons c tail => exact if_pos (htail c rfl)
  | cons c digs ih =>
    have hc := hdigs c List.mem_cons_self
    rw [List.cons_append, portLoop6, isdigit_not_space hc, if_neg Bool.false_ne_true, hc]
    exact ih fun q hq => hdigs q (List.mem_cons_of_mem _ hq)

theorem atoi_digits {digs tail : List Byte} (hne : digs ≠ []) (hdigs : ∀ c ∈ digs, isdigit c = true)
    (htail : ∀ c ∈ tail.head?, isdigit c = false) (h : digits 10 0 digs ≤ 65535) :
    atoi (digs ++ tail) = digits 10 0 digs := by
  rw [atoi, strtol_digits hne hdigs htail, LONG_MAX, min_eq_left (by omega)]
  exact toInt32_small (by omega) (by omega)

/-- A port passes both loops and is its value. -/
theorem PortText.accepted {t : List Byte} {n : Nat} (h : PortText t n) :
    portLoop4 t = true ∧ portLoop6 t = true ∧ atoi t = n ∧ n ≤ 65535 := by
  obtain ⟨digs, tail, rfl, hne, hdigs, rfl, hn, htail⟩ := h
  refine ⟨(portLoop4_iff _).mpr fun c hc => ?_, portLoop6_digits hdigs htail,
    atoi_digits hne hdigs (fun c hc => isspace_not_digit (htail c hc)) hn, hn⟩
  rw [List.head?_append_of_ne_nil _ hne] at hc
  exact isdigit_not_space (hdigs c (List.mem_of_mem_head? hc))

theorem storePort_zero (ip : IpPort) (t : List Byte) : (storePort ip t).1 = 0 ↔ 0 ≤ atoi t ∧ atoi t ≤ 65535 := by
  unfold storePort
  dsimp only
  split
  · exact iff_of_false (fun h => absurd h (show ¬ (-1 : Int) = 0 by decide)) (by omega)
  · exact iff_of_true rfl (by omega)

theorem storePort_value {ip : IpPort} {t : List Byte} {n : Nat} (h : atoi t = n) (hn : n ≤ 65535) :
    storePort ip t = (0, { ip with port := ntohs (UInt16.ofNat n) }) := by
  unfold storePort
  dsimp only
  rw [h, if_neg (by omega), Int.toNat_natCast]

/-! ## Addresses in front of a port -/

section
variable {inet : Inet}

theorem v4Text_plain {a addr : List Byte} (h : inet.pton4 a = some addr) :
    a.any isspace = false ∧ ch ':' ∉ a ∧ a.length < 16 ∧ ∃ b rest, a = b :: rest ∧ b ≠ ch '[' := by
  obtain ⟨hlen, hdot, hchars⟩ := inet.pton4_text a addr h
  have hplain : ∀ c ∈ a, isspace c = false ∧ c ≠ ch ':' ∧ c ≠ ch '[' := by
    intro c hc
    rcases hchars c hc with hdigit | rfl
    · -- neither `:` nor `[` is a digit
      refine ⟨isdigit_not_space hdigit, ?_, ?_⟩
      · rintro rfl
        exact absurd hdigit (by decide)
      · rintro rfl
        exact absurd hdigit (by decide)
    · decide
  refine ⟨List.any_eq_false.mpr fun c hc => Bool.eq_false_iff.mp (hplain c hc).1,
    fun hmem => (hplain _ hmem).2.1 rfl, hlen, ?_⟩
  cases a with
  | nil => cases hdot
  | cons b rest => exact ⟨b, rest, rfl, (hplain b List.mem_cons_self).2.2⟩

theorem v6Text_plain {a addr : List Byte} (h : inet.pton6 a = some addr) :
    a.any isspace = false ∧ ch ':' ∈ a ∧ ch ']' ∉ a ∧ a.length < 46 := by
  obtain ⟨hlen, hcolon, hchars⟩ := inet.pton6_text a addr h
  have hplain : ∀ c ∈ a, isspace c = false ∧ c ≠ ch ']' := by
    intro c hc
    rcases hchars c hc with hdigit | rfl | rfl
    · refine ⟨(isxdigit_plain hdigit).1, ?_⟩
      rintro rfl
      exact absurd hdigit (by decide)
    · decide
    · decide
  exact ⟨List.any_eq_false.mpr fun c hc => Bool.eq_false_iff.mp (hplain c hc).1, hcolon,
    fun hmem => (hplain _ hmem).2 rfl, hlen⟩

/-- The texts that `ip_addr_from_str` returns 0 on. -/
def AcceptedAddr (inet : Inet) (a : List Byte) : Prop :=
  a.any isspace = true ∨ (ch ':' ∈ a ∧ (inet.pton6 a).isSome ∨ ch ':' ∉ a ∧ (inet.pton4 a).isSome)

theorem ipAddrFromStr_zero (ip : IpAddr) (a : List Byte) :
    (inet.ipAddrFromStr ip a).1 = 0 ↔ AcceptedAddr inet a := by
  have hminus : ¬ (-1 : Int) = 0 := by decide
  unfold Inet.ipAddrFromStr AcceptedAddr
  by_cases hspace : a.any isspace = true
  · rw [if_pos hspace]
    -- white space makes the function return 0 before it looks at the address
    exact iff_of_true rfl (Or.inl hspace)
  · rw [if_neg hspace]
    by_cases hcolon : ch ':' ∈ a
    · rw [if_pos hcolon]
      cases hpton : inet.pton6 a with
      | none => exact iff_of_false hminus (fun h => by simp [hspace, hcolon] at h)
      | some addr => exact iff_of_true rfl (Or.inr (Or.inl ⟨hcolon, rfl⟩))
    · rw [if_neg hcolon]
      cases hpton : inet.pton4 a with
      | none => exact iff_of_false hminus (fun h => by simp [hspace, hcolon] at h)
      | some addr => exact iff_of_true rfl (Or.inr (Or.inr ⟨hcolon, rfl⟩))

theorem ipAddrFromStr_v4 {a addr : List Byte} (ip : IpAddr) (h : inet.pton4 a = some addr) :
    inet.ipAddrFromStr ip a = (0, { family := AF_INET, addr := addr }) := by
  obtain ⟨hspace, hcolon, -⟩ := v4Text_plain h
  unfold Inet.ipAddrFromStr
  rw [if_neg (by rw [hspace]; exact Bool.false_ne_true), if_neg hcolon, h]

theorem ipAddrFromStr_v6 {a addr : List Byte} (ip : IpAddr) (h : inet.pton6 a = some addr) :
    inet.ipAddrFromStr ip a = (0, { family := AF_INET6, addr := addr }) := by
  obtain ⟨hspace, hcolon, -⟩ := v6Text_plain h
  unfold Inet.ipAddrFromStr
  rw [if_neg (by rw [hspace]; exact Bool.false_ne_true), if_pos hcolon, h]

/-! ## A text that is cut -/

/-- What both branches do with what `ip_addr_from_str` left, what their loop said and the text of the port. -/
def portResult (r : Int × IpAddr) (port : UInt16) (loop : Bool) (t : List Byte) : Int × IpPort :=
  if r.1 ≠ 0 then (-1, { r.2 with port := port })
  else if !loop then (-1, { r.2 with port := port })
  else storePort { r.2 with port := port } t

theorem portResult_zero {r : Int × IpAddr} {port : UInt16} {loop : Bool} {t : List Byte} :
    (portResult r port loop t).1 = 0 ↔ r.1 = 0 ∧ loop = true ∧ 0 ≤ atoi t ∧ atoi t ≤ 65535 := by
  have hminus : ¬ (-1 : Int) = 0 := by decide
  unfold portResult
  by_cases hr : r.1 = 0
  · rw [if_neg (fun h => h hr)]
    cases loop with
    | false => exact iff_of_false hminus (fun h => Bool.false_ne_true h.2.1)
    | true =>
      rw [if_neg (by decide), storePort_zero]
      exact ⟨fun h => ⟨hr, rfl, h⟩, fun h => h.2.2⟩
  · rw [if_pos hr]
    exact iff_of_false hminus (fun h => hr h.1)

theorem head_v4 {a t : List Byte} (hfirst : a.head? ≠ some (ch '[')) :
    (a ++ ch ':' :: t).head? ≠ some (ch '[') := by
  cases a with
  | nil => exact fun h => absurd (Option.some.inj h) (by decide)
  | cons b a => exact hfirst

theorem bracket_front {a : List Byte} (h : ch ']' ∉ a) : ch ']' ∉ ch '[' :: a := by
  intro hmem
  rcases List.mem_cons.mp hmem with hb | hb
  · exact absurd hb (by decide)
  · exact h hb

/-- An address and a port in front of and behind `:`. -/
theorem run_v4 {a t : List Byte} (ip : IpPort) (hcolon : ch ':' ∉ a) (hfirst : a.head? ≠ some (ch '['))
    (hlen : (a ++ ch ':' :: t).length < 512) :
    ipPortFromStr inet ip (a ++ ch ':' :: t) =
      some (portResult (inet.ipAddrFromStr ip.toIpAddr a) ip.port (portLoop4 t) t) := by
  unfold ipPortFromStr portResult
  dsimp only
  rw [List.take_of_length_le (by omega), if_neg (head_v4 hfirst), cutAt_append hcolon]
  dsimp only
  split
  · rfl
  · split <;> rfl

/-- The same with `[` and `]`, the byte behind which is skipped. -/
theorem run_v6 {a back : List Byte} (ip : IpPort) (hbracket : ch ']' ∉ a)
    (hlen : (ch '[' :: a ++ ch ']' :: back).length < 512) :
    ipPortFromStr inet ip (ch '[' :: a ++ ch ']' :: back) =
      if (inet.ipAddrFromStr ip.toIpAddr a).1 = 0 ∧ a.length = 509 then none
      else some (portResult (inet.ipAddrFromStr ip.toIpAddr a) ip.port (portLoop6 back.tail) back.tail) := by
  have hbound : (512 ≤ (ch '[' :: a).length + 2) ↔ a.length = 509 := by
    simp only [List.length_cons, List.length_append] at hlen ⊢
    omega
  have hhead : (ch '[' :: a ++ ch ']' :: back).head? = some (ch '[') := rfl
  unfold ipPortFromStr portResult
  dsimp only
  rw [List.take_of_length_le (by omega), if_pos hhead, cutAt_append (bracket_front hbracket)]
  dsimp only
  rw [List.tail_cons]
  by_cases hr : (inet.ipAddrFromStr ip.toIpAddr a).1 = 0
  · have hne : ¬ (inet.ipAddrFromStr ip.toIpAddr a).1 ≠ 0 := fun h => h hr
    rw [if_neg hne, if_congr hbound rfl rfl, if_neg hne]
    -- the byte behind `]` is skipped, and of 511 bytes it is the last one the buffer has
    by_cases hend : a.length = 509
    · rw [if_pos hend, if_pos ⟨hr, hend⟩]
    · have hin : ¬ ((inet.ipAddrFromStr ip.toIpAddr a).1 = 0 ∧ a.length = 509) := fun h => hend h.2
      rw [if_neg hend, if_neg hin]
      split <;> rfl
  · have hin : ¬ ((inet.ipAddrFromStr ip.toIpAddr a).1 = 0 ∧ a.length = 509) := fun h => hr h.1
    rw [if_pos hr, if_neg hin, if_pos hr]

/-! ## The grammar on a text that is cut -/

section
variable {a t back : List Byte} {addr : IpAddr} {n : Nat}

theorem addrPort_v4 (hcolon : ch ':' ∉ a) (hfirst : a.head? ≠ some (ch '[')) :
    AddrPort inet (a ++ ch ':' :: t) addr n ↔
      addr.family = AF_INET ∧ inet.pton4 a = some addr.addr ∧ PortText t n := by
  constructor
  · intro h
    -- the text is cut at its first colon, so the two readings agree; or it would begin with `[`
    rcases h with ⟨a', t', heq, hfamily, hpton, hport⟩ | ⟨a', t', heq, -⟩
    · have hcut := cutAt_append hcolon t
      rw [heq, cutAt_append (v4Text_plain hpton).2.1] at hcut
      obtain ⟨rfl, rfl⟩ := Prod.mk.inj (Option.some.inj hcut)
      exact ⟨hfamily, hpton, hport⟩
    · have hhead := @head_v4 a t hfirst
      rw [heq] at hhead
      exact absurd rfl hhead
  · intro h
    exact Or.inl ⟨a, t, rfl, h⟩

theorem addrPort_v6 (hbracket : ch ']' ∉ a) :
    AddrPort inet (ch '[' :: a ++ ch ']' :: back) addr n ↔
      addr.family = AF_INET6 ∧ inet.pton6 a = some addr.addr ∧ back.head? = some (ch ':') ∧
        PortText back.tail n := by
  constructor
  · intro h
    rcases h with ⟨a', t', heq, -, hpton, -⟩ | ⟨a', t', heq, hfamily, hpton, hport⟩
    · obtain ⟨-, -, -, b, rest, rfl, hb⟩ := v4Text_plain hpton
      exact absurd (List.cons.inj heq).1.symm hb
    · have hcut := cutAt_append (bracket_front hbracket) back
      rw [heq, cutAt_append (bracket_front (v6Text_plain hpton).2.2.1)] at hcut
      obtain ⟨hfront, rfl⟩ := Prod.mk.inj (Option.some.inj hcut)
      cases hfront
      exact ⟨hfamily, hpton, rfl, hport⟩
  · intro h
    obtain ⟨hfamily, hpton, hhead, hport⟩ := h
    cases back with
    | nil => cases hhead
    | cons b back =>
      cases hhead
      exact Or.inr ⟨a, back, rfl, hfamily, hpton, hport⟩

/-- **A text of an address and a port** is read as these. -/
theorem addrPort_parses {s : List Byte} (ip : IpPort) (h : AddrPort inet s addr n) (hlen : s.length < 512) :
    ipPortFromStr inet ip s = some (0, { addr with port := ntohs (UInt16.ofNat n) }) := by
  rcases h with ⟨a, t, rfl, hfamily, hpton, hport⟩ | ⟨a, t, rfl, hfamily, hpton, hport⟩
  · obtain ⟨-, hcolon, -, b, rest, hcons, hb⟩ := v4Text_plain hpton
    have hfirst : a.head? ≠ some (ch '[') := by
      rw [hcons]
      exact fun h => hb (Option.some.inj h)
    obtain ⟨hloop, -, hatoi, hn⟩ := hport.accepted
    rw [run_v4 ip hcolon hfirst hlen, ipAddrFromStr_v4 _ hpton, hloop, ← hfamily]
    exact congrArg some (storePort_value hatoi hn)
  · obtain ⟨-, -, hbracket, hshort⟩ := v6Text_plain hpton
    obtain ⟨-, hloop, hatoi, hn⟩ := hport.accepted
    rw [run_v6 ip hbracket hlen, if_neg (by omega), ipAddrFromStr_v6 _ hpton, List.tail_cons, hloop, ← hfamily]
    exact congrArg some (storePort_value hatoi hn)

/-- What is to be shown of a text that the code reads to its end. -/
theorem meetsGrammar_iff {ip : IpPort} {s : List Byte} {r : Int × IpPort} (hrun : ipPortFromStr inet ip s = some r)
    (hlen : s.length < 512) : MeetsGrammar inet ip s ↔ (r.1 = 0 → ∃ addr n, AddrPort inet s addr n) := by
  have hgood : ∀ addr n, AddrPort inet s addr n → r = (0, { addr with port := ntohs (UInt16.ofNat n) }) :=
    fun addr n h => Option.some.inj (hrun.symm.trans (addrPort_parses ip h hlen))
  -- what the grammar has is accepted anyway: only the other direction is left
  constructor
  · intro h
    obtain ⟨r', hr', hiff, -⟩ := h
    rw [hrun] at hr'
    cases hr'
    exact hiff.mp
  · intro h
    refine ⟨r, hrun, ⟨h, fun hin => ?_⟩, fun addr n hin => congrArg Prod.snd (hgood addr n hin)⟩
    obtain ⟨addr, n, hin⟩ := hin
    exact congrArg Prod.fst (hgood addr n hin)

end

/-! ## What gets past the checks -/

/-- Behind `:`: what does not begin with white space and is a number of at most 65535 to `atoi` is a port. An
address with white space in it is one. -/
def LenientV4 (inet : Inet) (a t : List Byte) : Prop :=
  (∀ c ∈ t.head?, isspace c = false) ∧ (0 ≤ atoi t ∧ atoi t ≤ 65535) ∧
    (a.any isspace = true ∨ (inet.pton4 a).isSome ∧ ∀ n, ¬ PortText t n)

/-- Behind `]`: any byte, and what has digits only up to white space or the end and is a number of at most 65535 to
`atoi`, none at all included. An address with white space in it is one, and so is an IPv4 address. A text of 511
bytes that ends with `]` is read behind the end of the buffer. -/
def LenientV6 (inet : Inet) (a back : List Byte) : Prop :=
  a.any isspace = true ∧ a.length = 509 ∨
    (∀ c ∈ back.tail.takeWhile (!isspace ·), isdigit c = true) ∧
      (0 ≤ atoi back.tail ∧ atoi back.tail ≤ 65535) ∧
      (a.any isspace = true ∨ ch ':' ∉ a ∧ (inet.pton4 a).isSome ∨
        (inet.pton6 a).isSome ∧ ∀ n, ¬ (back.head? = some (ch ':') ∧ PortText back.tail n))

/-- The texts that are cut into such parts. -/
def Lenient (inet : Inet) (s : List Byte) : Prop :=
  (∃ a t, s = a ++ ch ':' :: t ∧ ch ':' ∉ a ∧ a.head? ≠ some (ch '[') ∧ LenientV4 inet a t) ∨
    ∃ a back, s = ch '[' :: a ++ ch ']' :: back ∧ ch ']' ∉ a ∧ LenientV6 inet a back

theorem portLoop6_iff (t : List Byte) :
    portLoop6 t = true ↔ ∀ c ∈ t.takeWhile (!isspace ·), isdigit c = true := by
  induction t with
  | nil => exact iff_of_true rfl (fun c hc => by cases hc)
  | cons b t ih =>
    rw [portLoop6, List.takeWhile_cons]
    cases hb : isspace b with
    | true =>
      rw [if_pos rfl, if_neg (by decide)]
      exact iff_of_true rfl (fun c hc => by cases hc)
    | false =>
      rw [if_neg Bool.false_ne_true, Bool.not_false, if_pos rfl, List.forall_mem_cons]
      cases hd : isdigit b with
      | true =>
        rw [Bool.not_true, if_neg Bool.false_ne_true, ih]
        exact ⟨fun h => ⟨rfl, h⟩, fun h => h.2⟩
      | false =>
        rw [Bool.not_false, if_pos rfl]
        exact iff_of_false Bool.false_ne_true (fun h => Bool.false_ne_true h.1)

section
variable {a t back : List Byte} {ip : IpPort}

/-- **Behind `:`**. -/
theorem v4_meets (hcolon : ch ':' ∉ a) (hfirst : a.head? ≠ some (ch '[')) (hlen : (a ++ ch ':' :: t).length < 512) :
    MeetsGrammar inet ip (a ++ ch ':' :: t) ↔ ¬ LenientV4 inet a t := by
  have haddr : AcceptedAddr inet a ↔ a.any isspace = true ∨ (inet.pton4 a).isSome := by
    unfold AcceptedAddr
    exact or_congr_right ⟨fun h => h.elim (fun h => absurd h.1 hcolon) And.right, fun h => Or.inr ⟨hcolon, h⟩⟩
  rw [meetsGrammar_iff (run_v4 ip hcolon hfirst hlen) hlen, portResult_zero, ipAddrFromStr_zero, haddr,
    portLoop4_iff]
  constructor
  · -- what gets past the checks is accepted, and the grammar would have to have it
    intro h hlenient
    obtain ⟨hspace, hrange, hkind⟩ := hlenient
    obtain ⟨addr, n, hin⟩ := h ⟨hkind.imp_right And.left, hspace, hrange⟩
    obtain ⟨-, hpton, hport⟩ := (addrPort_v4 hcolon hfirst).mp hin
    rcases hkind with hkind | hkind
    · rw [(v4Text_plain hpton).1] at hkind
      cases hkind
    · exact hkind.2 n hport
  · intro h hin
    obtain ⟨haddr, hspace, hrange⟩ := hin
    have hnot : a.any isspace ≠ true := fun hs => h ⟨hspace, hrange, Or.inl hs⟩
    have hsome := haddr.resolve_left hnot
    have hport : ∃ n, PortText t n := by
      by_contra hno
      exact h ⟨hspace, hrange, Or.inr ⟨hsome, fun n hn => hno ⟨n, hn⟩⟩⟩
    obtain ⟨addr, haddr⟩ := Option.isSome_iff_exists.mp hsome
    obtain ⟨n, hport⟩ := hport
    exact ⟨⟨AF_INET, addr⟩, n, (addrPort_v4 hcolon hfirst).mpr ⟨rfl, haddr, hport⟩⟩

/-- **Behind `]`**. -/
theorem v6_meets (hbracket : ch ']' ∉ a) (hlen : (ch '[' :: a ++ ch ']' :: back).length < 512) :
    MeetsGrammar inet ip (ch '[' :: a ++ ch ']' :: back) ↔ ¬ LenientV6 inet a back := by
  have hrun := @run_v6 inet a back ip hbracket hlen
  by_cases hend : (inet.ipAddrFromStr ip.toIpAddr a).1 = 0 ∧ a.length = 509
  · rw [if_pos hend] at hrun
    -- no address is 509 bytes long, so it was the white space that got past
    have hspace : a.any isspace = true := by
      rcases ipAddrFromStr_zero ip.toIpAddr a |>.mp hend.1 with h | h | h
      · exact h
      · obtain ⟨addr, hpton⟩ := Option.isSome_iff_exists.mp h.2
        exact absurd (v6Text_plain hpton).2.2.2 (by omega)
      · obtain ⟨addr, hpton⟩ := Option.isSome_iff_exists.mp h.2
        exact absurd (v4Text_plain hpton).2.2.1 (by omega)
    refine iff_of_false (fun h => ?_) (fun h => h (Or.inl ⟨hspace, hend.2⟩))
    obtain ⟨r, hr, -⟩ := h
    rw [hrun] at hr
    cases hr
  · rw [if_neg hend] at hrun
    rw [meetsGrammar_iff hrun hlen, portResult_zero, ipAddrFromStr_zero, portLoop6_iff]
    constructor
    · intro h hlenient
      rcases hlenient with hlong | ⟨hloop, hrange, hkind⟩
      · exact hend ⟨(ipAddrFromStr_zero _ _).mpr (Or.inl hlong.1), hlong.2⟩
      · have haccepted : AcceptedAddr inet a := by
          refine hkind.imp_right fun hk => hk.symm.imp_left fun h6 => ?_
          obtain ⟨addr, hpton⟩ := Option.isSome_iff_exists.mp h6.1
          exact ⟨(v6Text_plain hpton).2.1, h6.1⟩
        obtain ⟨addr, n, hin⟩ := h ⟨haccepted, hloop, hrange⟩
        obtain ⟨-, hpton, hport⟩ := (addrPort_v6 hbracket).mp hin
        rcases hkind with hkind | hkind | hkind
        · rw [(v6Text_plain hpton).1] at hkind
          cases hkind
        · exact hkind.1 (v6Text_plain hpton).2.1
        · exact hkind.2 n hport
    · intro h hin
      obtain ⟨haddr, hloop, hrange⟩ := hin
      have hnot : ∀ hkind, False := fun hkind => h (Or.inr ⟨hloop, hrange, hkind⟩)
      rcases haddr with hspace | h6 | h4
      · exact (hnot (Or.inl hspace)).elim
      · have hport : ∃ n, back.head? = some (ch ':') ∧ PortText back.tail n := by
          by_contra hno
          exact hnot (Or.inr (Or.inr ⟨h6.2, fun n hn => hno ⟨n, hn⟩⟩))
        obtain ⟨addr, haddr⟩ := Option.isSome_iff_exists.mp h6.2
        obtain ⟨n, hport⟩ := hport
        exact ⟨⟨AF_INET6, addr⟩, n, (addrPort_v6 hbracket).mpr ⟨rfl, haddr, hport⟩⟩
      · exact (hnot (Or.inr (Or.inl h4))).elim

/-! ## Every text -/

theorem run_uncut {s : List Byte} (hlen : s.length < 512)
    (h : if s.head? = some (ch '[') then ch ']' ∉ s else ch ':' ∉ s) : ipPortFromStr inet ip s = some (-1, ip) := by
  unfold ipPortFromStr
  dsimp only
  rw [List.take_of_length_le (by omega)]
  split
  · next hhead =>
    rw [if_pos hhead] at h
    rw [cutAt_none h]
  · next hhead =>
    rw [if_neg hhead] at h
    rw [cutAt_none h]

theorem lenient_v4 (hcolon : ch ':' ∉ a) (hfirst : a.head? ≠ some (ch '[')) :
    Lenient inet (a ++ ch ':' :: t) ↔ LenientV4 inet a t := by
  constructor
  · intro h
    rcases h with ⟨a', t', heq, hcolon', -, hin⟩ | ⟨a', back, heq, -⟩
    · have hcut := cutAt_append hcolon t
      rw [heq, cutAt_append hcolon'] at hcut
      obtain ⟨rfl, rfl⟩ := Prod.mk.inj (Option.some.inj hcut)
      exact hin
    · have hhead := @head_v4 a t hfirst
      rw [heq] at hhead
      exact absurd rfl hhead
  · exact fun h => Or.inl ⟨a, t, rfl, hcolon, hfirst, h⟩

theorem lenient_v6 (hbracket : ch ']' ∉ a) :
    Lenient inet (ch '[' :: a ++ ch ']' :: back) ↔ LenientV6 inet a back := by
  constructor
  · intro h
    rcases h with ⟨a', t', heq, -, hfirst', -⟩ | ⟨a', back', heq, hbracket', hin⟩
    · have hhead := @head_v4 a' t' hfirst'
      rw [← heq] at hhead
      exact absurd rfl hhead
    · have hcut := cutAt_append (bracket_front hbracket) back
      rw [heq, cutAt_append (bracket_front hbracket')] at hcut
      obtain ⟨hfront, rfl⟩ := Prod.mk.inj (Option.some.inj hcut)
      cases hfront
      exact hin
  · exact fun h => Or.inr ⟨a, back, rfl, hbracket, h⟩

/-- **The grammar** is what the code accepts, but for the texts that get past its checks. -/
theorem grammar_iff {s : List Byte} (hlen : s.length < 512) : MeetsGrammar inet ip s ↔ ¬ Lenient inet s := by
  have hminus : ¬ (-1 : Int) = 0 := by decide
  by_cases hhead : s.head? = some (ch '[')
  · obtain ⟨rest, rfl⟩ := List.head?_eq_some_iff.mp hhead
    -- without a `]` nothing is cut, and -1 is returned
    by_cases hmem : ch ']' ∈ rest
    · obtain ⟨a, back, rfl, hbracket⟩ := List.eq_append_cons_of_mem hmem
      rw [← List.cons_append] at hlen ⊢
      rw [v6_meets hbracket hlen, lenient_v6 hbracket]
    · have hrun := @run_uncut inet ip _ hlen (by rw [if_pos hhead]; exact bracket_front hmem)
      refine iff_of_true ((meetsGrammar_iff hrun hlen).mpr fun h => absurd h hminus) fun h => ?_
      rcases h with ⟨a, t, heq, -, hfirst, -⟩ | ⟨a, back, heq, -⟩
      · rw [heq] at hhead
        exact head_v4 hfirst hhead
      · rw [(List.cons.inj heq).2] at hmem
        exact hmem (List.mem_append_right _ List.mem_cons_self)
  · by_cases hmem : ch ':' ∈ s
    · obtain ⟨a, t, rfl, hcolon⟩ := List.eq_append_cons_of_mem hmem
      have hfirst : a.head? ≠ some (ch '[') := by
        cases a with
        | nil => exact fun h => by cases h
        | cons b a => exact hhead
      rw [v4_meets hcolon hfirst hlen, lenient_v4 hcolon hfirst]
    · have hrun := @run_uncut inet ip _ hlen (by rw [if_neg hhead]; exact hmem)
      refine iff_of_true ((meetsGrammar_iff hrun hlen).mpr fun h => absurd h hminus) fun h => ?_
      rcases h with ⟨a, t, rfl, -⟩ | ⟨a, back, rfl, -⟩
      · exact hmem (List.mem_append_right _ List.mem_cons_self)
      · exact hhead rfl

end

end

end WafProxy
