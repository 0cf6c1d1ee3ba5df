import WafProxy.Ip.Port

/-
  Writing addresses with ports — `ip_port_to_str` of ip_addr.c

  The text goes through `snprintf` with one byte less than the buffer has, so a
  buffer that it would just fit in loses its last digit.

  What is proved:
    1. `written_parses` — the whole text is read back.
    2. `cut_v4`, `cut_v6` — what is read of a text that is cut off.
    3. `roundTrip_iff` — the lengths of a buffer for which what is written is read back.
    4. `port_iff` — that, and the grammar.

  Correspondence (C ↔ Lean):
    `ip_port_to_str`   ↔ `ipPortToStr`
-/

namespace WafProxy
open Lib

/-! ## The function -/

/-- The text of an address and a port. -/
def portText (family : Int) (s : List Byte) (port : Nat) : List Byte :=
  if family = AF_INET6 then ch '[' :: s ++ ch ']' :: ch ':' :: unsignedText port
  else s ++ ch ':' :: unsignedText port

/-- `ip_port_to_str`: what stands in the buffer, when it does not fail. -/
def ipPortToStr (inet : Inet) (ip : IpPort) (len : Nat) : Option (List Byte) :=
  if len < 1 then none
  else
    match inet.ipAddrToStr ip.toIpAddr 512 with
    | none => none
    -- `snprintf(buf, len - 1, …)` writes one byte less than that
    | some s => some ((portText ip.family s (ntohs ip.port).toNat).take (len - 2))

/-- The text of an address, and of it with its port. -/
def addrText (inet : Inet) (ip : IpAddr) : List Byte :=
  if ip.family = AF_INET6 then inet.ntop6 ip.addr else inet.ntop4 ip.addr

def fullText (inet : Inet) (ip : IpPort) : List Byte :=
  portText ip.family (addrText inet ip.toIpAddr) (ntohs ip.port).toNat

/-- What is written is read back. -/
def RoundTrip (inet : Inet) (ip : IpPort) (len : Nat) : Prop :=
  ∃ text, ipPortToStr inet ip len = some text ∧ ∀ old, ipPortFromStr inet old text = some (0, ip)

/-- The buffer has a byte more than the text and its NUL need; or the port is 0 and none of it is written, nor,
behind `]`, the `:`. -/
def BufferRoom (inet : Inet) (ip : IpPort) (len : Nat) : Prop :=
  (fullText inet ip).length + 2 ≤ len ∨
    ntohs ip.port = 0 ∧ (fullText inet ip).length + (if ip.family = AF_INET6 then 0 else 1) ≤ len

/-! ## The whole text -/

section
variable {inet : Inet} {ip old : IpPort}

theorem ntop4_plain {a : List Byte} (h : a.length = 4) :
    ch ':' ∉ inet.ntop4 a ∧ (inet.ntop4 a).head? ≠ some (ch '[') ∧ (inet.ntop4 a).length < 16 := by
  obtain ⟨-, hcolon, hshort, b, rest, hcons, hb⟩ := v4Text_plain (inet.pton4_ntop4 a h)
  refine ⟨hcolon, ?_, hshort⟩
  rw [hcons]
  exact fun heq => hb (Option.some.inj heq)

/-- A valid address is written as its text. -/
theorem ipPortToStr_text (hvalid : ip.Valid) {len : Nat} (hlen : 1 ≤ len) :
    ipPortToStr inet ip len = some ((fullText inet ip).take (len - 2)) := by
  have haddr : inet.ipAddrToStr ip.toIpAddr 512 = some (addrText inet ip.toIpAddr) := by
    unfold Inet.ipAddrToStr addrText
    rw [if_neg (by decide)]
    rcases hvalid with ⟨hfamily, hsize⟩ | ⟨hfamily, hsize⟩
    · have hne : ip.family ≠ AF_INET6 := by rw [hfamily]; decide
      have hshort := (@ntop4_plain inet _ hsize).2.2
      rw [if_pos hfamily, if_pos (by omega), if_neg hne]
    · have hne : ip.family ≠ AF_INET := by rw [hfamily]; decide
      have hshort := (v6Text_plain (inet.pton6_ntop6 _ hsize)).2.2.2
      rw [if_neg hne, if_pos hfamily, if_pos (by omega), if_pos hfamily]
  unfold ipPortToStr
  rw [if_neg (by omega), haddr]
  rfl

theorem portText_decimal {n : Nat} (h : n ≤ 65535) : PortText (unsignedText n) n :=
  ⟨unsignedText n, [], (List.append_nil _).symm, decimal_ne_nil n, decimal_isdigit n, digits_decimal n, h,
    fun _ hc => by cases hc⟩

theorem fullText_v4 (h : ip.family = AF_INET) :
    fullText inet ip = inet.ntop4 ip.addr ++ ch ':' :: unsignedText (ntohs ip.port).toNat := by
  have hne : ip.family ≠ AF_INET6 := by rw [h]; decide
  unfold fullText portText addrText
  rw [if_neg hne, if_neg hne]

theorem fullText_v6 (h : ip.family = AF_INET6) :
    fullText inet ip =
      ch '[' :: inet.ntop6 ip.addr ++ ch ']' :: ch ':' :: unsignedText (ntohs ip.port).toNat := by
  unfold fullText portText addrText
  rw [if_pos h, if_pos h]

theorem portNumber_le (x : UInt16) : (ntohs x).toNat ≤ 65535 := Nat.le_of_lt_succ (ntohs x).toNat_lt

theorem addrPort_fullText (hvalid : ip.Valid) :
    AddrPort inet (fullText inet ip) ip.toIpAddr (ntohs ip.port).toNat := by
  have hport := portText_decimal (portNumber_le ip.port)
  rcases hvalid with ⟨hfamily, hsize⟩ | ⟨hfamily, hsize⟩
  · exact Or.inl ⟨_, _, fullText_v4 hfamily, hfamily, inet.pton4_ntop4 _ hsize, hport⟩
  · exact Or.inr ⟨_, _, fullText_v6 hfamily, hfamily, inet.pton6_ntop6 _ hsize, hport⟩

/-- A port that is stored is the one it is read as. -/
theorem stored_port {n : Nat} (h : n ≤ 65535) (x : UInt16) : ntohs (UInt16.ofNat n) = x ↔ n = (ntohs x).toNat := by
  have hnat : (UInt16.ofNat n).toNat = n := UInt16.toNat_ofNat_of_lt' (Nat.lt_of_le_of_lt h (by decide))
  constructor
  · intro heq
    rw [← heq, ntohs_ntohs, hnat]
  · intro heq
    rw [heq, UInt16.ofNat_toNat, ntohs_ntohs]

theorem unsignedText_length (x : UInt16) : (unsignedText (ntohs x).toNat).length ≤ 5 := by
  rw [unsignedText, List.length_map]
  exact (Nat.length_toDigits_le_iff (by decide) (by decide)).mpr (Nat.lt_of_le_of_lt (portNumber_le x) (by decide))

theorem fullText_length (hvalid : ip.Valid) : (fullText inet ip).length < 512 := by
  have hdigits := unsignedText_length ip.port
  rcases hvalid with ⟨hfamily, hsize⟩ | ⟨hfamily, hsize⟩
  · have hshort := (@ntop4_plain inet _ hsize).2.2
    rw [fullText_v4 hfamily, List.length_append, List.length_cons]
    omega
  · have hshort := (v6Text_plain (inet.pton6_ntop6 _ hsize)).2.2.2
    rw [fullText_v6 hfamily, List.length_append, List.length_cons, List.length_cons, List.length_cons]
    omega

/-- **The whole text** is read back. -/
theorem written_parses (hvalid : ip.Valid) : ipPortFromStr inet old (fullText inet ip) = some (0, ip) := by
  rw [addrPort_parses old (addrPort_fullText hvalid) (fullText_length hvalid),
    (stored_port (portNumber_le ip.port) ip.port).mpr rfl]

/-! ## A text that is cut off -/

/-- The first digits of a port pass both loops. -/
theorem digits_accepted {digs : List Byte} (hdigs : ∀ c ∈ digs, isdigit c = true) (h : digits 10 0 digs ≤ 65535) :
    portLoop4 digs = true ∧ portLoop6 digs = true ∧ atoi digs = digits 10 0 digs := by
  refine ⟨(portLoop4_iff digs).mpr fun c hc => isdigit_not_space (hdigs c (List.mem_of_mem_head? hc)),
    (portLoop6_iff digs).mpr fun c hc => hdigs c ((List.takeWhile_prefix _).subset hc), ?_⟩
  by_cases hne : digs = []
  · rw [hne]
    rfl
  · have hvalue := atoi_digits hne hdigs (fun c (hc : c ∈ ([] : List Byte).head?) => by cases hc) h
    rw [List.append_nil] at hvalue
    exact hvalue

/-- What the first digits of a port are read as. -/
theorem portResult_cut {addr : IpAddr} {port : UInt16} {j : Nat} {loop : Bool} (hloop : loop = true)
    (haddr : addr = ip.toIpAddr) (hj : j < (unsignedText (ntohs ip.port).toNat).length) :
    portResult (0, addr) port loop ((unsignedText (ntohs ip.port).toNat).take j) = (0, ip) ↔ ntohs ip.port = 0 := by
  have hle := Nat.le_trans (digits_take_le (ntohs ip.port).toNat j) (portNumber_le ip.port)
  have hdigs : ∀ c ∈ (unsignedText (ntohs ip.port).toNat).take j, isdigit c = true :=
    fun c hc => decimal_isdigit _ c (List.mem_of_mem_take hc)
  have hresult : portResult (0, addr) port loop ((unsignedText (ntohs ip.port).toNat).take j) =
      (0, { addr with port := ntohs (UInt16.ofNat (digits 10 0 ((decimal (ntohs ip.port).toNat).take j))) }) := by
    rw [hloop]
    exact storePort_value (digits_accepted hdigs hle).2.2 hle
  have hzero : (ntohs ip.port).toNat = 0 ↔ ntohs ip.port = 0 := UInt16.toNat_inj (b := 0)
  rw [hresult, ← hzero, ← digits_cut hj, ← stored_port hle ip.port, haddr]
  constructor
  · intro h
    exact congrArg (fun r => r.2.port) h
  · intro h
    rw [h]

/-- A text cut in front of what separates the port is refused. -/
theorem cut_refused {s : List Byte} (hlen : s.length < 512)
    (h : if s.head? = some (ch '[') then ch ']' ∉ s else ch ':' ∉ s) : ipPortFromStr inet old s ≠ some (0, ip) := by
  rw [run_uncut hlen h]
  exact fun heq => absurd (congrArg Prod.fst (Option.some.inj heq)) (show ¬ (-1 : Int) = 0 by decide)

/-- **Cut off behind an IPv4 address**: only a port of 0 is read back, and only if the `:` is there. -/
theorem cut_v4 (hfamily : ip.family = AF_INET) (hsize : ip.addr.length = 4) {k : Nat}
    (hk : k < (fullText inet ip).length) :
    ipPortFromStr inet old ((fullText inet ip).take k) = some (0, ip) ↔
      (inet.ntop4 ip.addr).length < k ∧ ntohs ip.port = 0 := by
  obtain ⟨hcolon, hfirst, -⟩ := @ntop4_plain inet _ hsize
  have hlen := Nat.lt_of_le_of_lt (List.length_take_le' k (fullText inet ip))
    (@fullText_length inet ip (Or.inl ⟨hfamily, hsize⟩))
  rw [fullText_v4 hfamily] at hk hlen ⊢
  by_cases hin : (inet.ntop4 ip.addr).length < k
  · obtain ⟨j, rfl⟩ := Nat.exists_eq_add_of_lt hin
    have hcut : (inet.ntop4 ip.addr ++ ch ':' :: unsignedText (ntohs ip.port).toNat).take
        ((inet.ntop4 ip.addr).length + j + 1) =
        inet.ntop4 ip.addr ++ ch ':' :: (unsignedText (ntohs ip.port).toNat).take j := by
      rw [Nat.add_assoc, List.take_length_add_append, List.take_succ_cons]
    rw [List.length_append, List.length_cons] at hk
    rw [hcut] at hlen ⊢
    rw [run_v4 old hcolon hfirst hlen, Option.some_inj, ipAddrFromStr_v4 _ (inet.pton4_ntop4 _ hsize)]
    have hdigs : ∀ c ∈ (unsignedText (ntohs ip.port).toNat).take j, isdigit c = true :=
      fun c hc => decimal_isdigit _ c (List.mem_of_mem_take hc)
    have hle := Nat.le_trans (digits_take_le (ntohs ip.port).toNat j) (portNumber_le ip.port)
    rw [portResult_cut (digits_accepted hdigs hle).1 (by rw [← hfamily]) (by omega)]
    exact ⟨fun h => ⟨hin, h⟩, fun h => h.2⟩
  · refine iff_of_false (cut_refused hlen ?_) (fun h => hin h.1)
    rw [List.take_append_of_le_length (by omega), if_neg]
    · exact fun hmem => hcolon (List.mem_of_mem_take hmem)
    · intro hhead
      cases k with
      | zero => cases hhead
      | succ k => rw [List.head?_take] at hhead; exact hfirst hhead

/-- **Cut off behind an IPv6 address**: only a port of 0 is read back, and only if the `]` is there. -/
theorem cut_v6 (hfamily : ip.family = AF_INET6) (hsize : ip.addr.length = 16) {k : Nat}
    (hk : k < (fullText inet ip).length) :
    ipPortFromStr inet old ((fullText inet ip).take k) = some (0, ip) ↔
      (inet.ntop6 ip.addr).length + 1 < k ∧ ntohs ip.port = 0 := by
  obtain ⟨-, -, hbracket, hshort⟩ := v6Text_plain (inet.pton6_ntop6 _ hsize)
  have hlen := Nat.lt_of_le_of_lt (List.length_take_le' k (fullText inet ip))
    (@fullText_length inet ip (Or.inr ⟨hfamily, hsize⟩))
  rw [fullText_v6 hfamily] at hk hlen ⊢
  by_cases hin : (ch '[' :: inet.ntop6 ip.addr).length < k
  · obtain ⟨j, rfl⟩ := Nat.exists_eq_add_of_lt hin
    have hcut : (ch '[' :: inet.ntop6 ip.addr ++ ch ']' :: ch ':' :: unsignedText (ntohs ip.port).toNat).take
        ((ch '[' :: inet.ntop6 ip.addr).length + j + 1) =
        ch '[' :: inet.ntop6 ip.addr ++ ch ']' :: (ch ':' :: unsignedText (ntohs ip.port).toNat).take j := by
      rw [Nat.add_assoc, List.take_length_add_append, List.take_succ_cons]
    have htail : ((ch ':' :: unsignedText (ntohs ip.port).toNat).take j).tail =
        (unsignedText (ntohs ip.port).toNat).take (j - 1) := by
      cases j <;> rfl
    have hsome : 0 < (unsignedText (ntohs ip.port).toNat).length :=
      List.length_pos_iff.mpr (decimal_ne_nil (ntohs ip.port).toNat)
    rw [List.length_append, List.length_cons, List.length_cons, List.length_cons] at hk
    rw [hcut] at hlen ⊢
    rw [run_v6 old hbracket hlen, if_neg (by omega), Option.some_inj, ipAddrFromStr_v6 _ (inet.pton6_ntop6 _ hsize),
      htail]
    have hdigs : ∀ c ∈ (unsignedText (ntohs ip.port).toNat).take (j - 1), isdigit c = true :=
      fun c hc => decimal_isdigit _ c (List.mem_of_mem_take hc)
    have hle := Nat.le_trans (digits_take_le (ntohs ip.port).toNat (j - 1)) (portNumber_le ip.port)
    rw [portResult_cut (digits_accepted hdigs hle).2.1 (by rw [← hfamily]) (by omega)]
    exact ⟨fun h => ⟨hin, h⟩, fun h => h.2⟩
  · refine iff_of_false (cut_refused hlen ?_) (fun h => hin h.1)
    rw [List.take_append_of_le_length (by omega)]
    cases k with
    | zero =>
      rw [List.take_zero, if_neg (fun h => by cases h)]
      exact List.not_mem_nil
    | succ k =>
      rw [List.take_succ_cons, if_pos List.head?_cons]
      exact bracket_front fun hmem => hbracket (List.mem_of_mem_take hmem)

theorem fullText_pos (hvalid : ip.Valid) : 0 < (fullText inet ip).length := by
  rcases hvalid with ⟨hfamily, -⟩ | ⟨hfamily, -⟩
  · rw [fullText_v4 hfamily, List.length_append, List.length_cons]
    omega
  · rw [fullText_v6 hfamily, List.length_append, List.length_cons]
    omega

/-- A buffer that the text is cut off in has room for the port 0 when the address and what ends it are there. -/
theorem bufferRoom_cut (hvalid : ip.Valid) {len : Nat} (hcut : len - 2 < (fullText inet ip).length) :
    BufferRoom inet ip len ↔
      (if ip.family = AF_INET6 then (inet.ntop6 ip.addr).length + 1 < len - 2
        else (inet.ntop4 ip.addr).length < len - 2) ∧ ntohs ip.port = 0 := by
  have hone : ntohs ip.port = 0 → (unsignedText (ntohs ip.port).toNat).length = 1 := by
    intro h
    rw [h]
    rfl
  unfold BufferRoom
  rcases hvalid with ⟨hfamily, -⟩ | ⟨hfamily, -⟩
  · have hne : ip.family ≠ AF_INET6 := by rw [hfamily]; decide
    rw [if_neg hne, if_neg hne]
    rw [fullText_v4 hfamily, List.length_append, List.length_cons] at hcut ⊢
    constructor
    · intro h
      rcases h with h | ⟨hzero, h⟩
      · omega
      · have hdigit := hone hzero
        exact ⟨by omega, hzero⟩
    · intro h
      have hdigit := hone h.2
      exact Or.inr ⟨h.2, by omega⟩
  · rw [if_pos hfamily, if_pos hfamily]
    rw [fullText_v6 hfamily, List.length_append, List.length_cons, List.length_cons, List.length_cons] at hcut ⊢
    constructor
    · intro h
      rcases h with h | ⟨hzero, h⟩
      · omega
      · have hdigit := hone hzero
        exact ⟨by omega, hzero⟩
    · intro h
      have hdigit := hone h.2
      exact Or.inr ⟨h.2, by omega⟩

/-- **What is written is read back** when the buffer has room for it. -/
theorem roundTrip_iff (hvalid : ip.Valid) (len : Nat) : RoundTrip inet ip len ↔ BufferRoom inet ip len := by
  by_cases hlen : len < 1
  · have hsome := @fullText_pos inet ip hvalid
    refine iff_of_false (fun h => ?_) (fun h => ?_)
    · obtain ⟨text, hwritten, -⟩ := h
      unfold ipPortToStr at hwritten
      rw [if_pos hlen] at hwritten
      cases hwritten
    · unfold BufferRoom at h
      omega
  · have htext := @ipPortToStr_text inet ip hvalid len (by omega)
    have hread : RoundTrip inet ip len ↔
        ∀ old, ipPortFromStr inet old ((fullText inet ip).take (len - 2)) = some (0, ip) := by
      constructor
      · intro h
        obtain ⟨text, hwritten, hread⟩ := h
        rw [htext] at hwritten
        cases hwritten
        exact hread
      · exact fun h => ⟨_, htext, h⟩
    rw [hread]
    by_cases hwhole : (fullText inet ip).length ≤ len - 2
    · have hsome := @fullText_pos inet ip hvalid
      rw [List.take_of_length_le hwhole]
      exact iff_of_true (fun old => written_parses hvalid) (Or.inl (by omega))
    · have hcut := Nat.lt_of_not_le hwhole
      rw [bufferRoom_cut hvalid hcut]
      rcases hvalid with ⟨hfamily, hsize⟩ | ⟨hfamily, hsize⟩
      · have hne : ip.family ≠ AF_INET6 := by rw [hfamily]; decide
        rw [if_neg hne]
        exact ⟨fun h => (cut_v4 hfamily hsize hcut).mp (h ip), fun h old => (cut_v4 hfamily hsize hcut).mpr h⟩
      · rw [if_pos hfamily]
        exact ⟨fun h => (cut_v6 hfamily hsize hcut).mp (h ip), fun h old => (cut_v6 hfamily hsize hcut).mpr h⟩

end

/-- **Addresses with ports as texts**: the texts that are read as the grammar says, and the buffers that what is
written is read back from. -/
theorem port_iff (inet : Inet) :
    (∀ (ip : IpPort) (s : List Byte), s.length < 512 → (MeetsGrammar inet ip s ↔ ¬ Lenient inet s)) ∧
    ∀ (ip : IpPort) (len : Nat), ip.Valid → (RoundTrip inet ip len ↔ BufferRoom inet ip len) :=
  ⟨fun _ _ hlen => grammar_iff hlen, fun _ len hvalid => roundTrip_iff hvalid len⟩

/-- 1.2.3.4 and port 80. -/
def webPort : IpPort := { family := AF_INET, addr := [1, 2, 3, 4], port := ntohs 80 }

/-- An empty port is none, and accepted. -/
theorem lenient_empty : LenientV4 fullTexts (str "1.2.3.4") [] := by
  have hnone : ∀ n, ¬ PortText [] n := by
    intro n h
    obtain ⟨digs, tail, hnil, hne, -⟩ := h
    exact hne (List.append_eq_nil_iff.mp hnil.symm).1
  exact ⟨fun c hc => (by cases hc), by decide, Or.inr ⟨by decide, hnone⟩⟩

theorem webPort_meets :
    MeetsGrammar fullTexts webPort (str "1.2.3.4:80") ∧ ¬ MeetsGrammar fullTexts webPort (str "1.2.3.4:") ∧
      RoundTrip fullTexts webPort 12 ∧ ¬ RoundTrip fullTexts webPort 11 := by
  have hcolon : ch ':' ∉ str "1.2.3.4" := by decide
  have hfirst : (str "1.2.3.4").head? ≠ some (ch '[') := by decide
  have hport : PortText (str "80") 80 := portText_decimal (show 80 ≤ 65535 by decide)
  have hgood : ¬ Lenient fullTexts (str "1.2.3.4:80") := by
    refine fun h => ?_
    have hcut := (@lenient_v4 fullTexts (str "1.2.3.4") (str "80") hcolon hfirst).mp h
    rcases hcut.2.2 with hspace | hnone
    · exact absurd hspace (by decide)
    · exact hnone.2 80 hport
  have hbad : Lenient fullTexts (str "1.2.3.4:") :=
    (@lenient_v4 fullTexts (str "1.2.3.4") [] hcolon hfirst).mpr lenient_empty
  have hvalid : webPort.Valid := Or.inl ⟨rfl, rfl⟩
  refine ⟨((port_iff fullTexts).1 webPort _ (by decide)).mpr hgood,
    fun h => ((port_iff fullTexts).1 webPort _ (by decide)).mp h hbad,
    ((port_iff fullTexts).2 webPort 12 hvalid).mpr (Or.inl (by decide)),
    fun h => ?_⟩
  have hroom := ((port_iff fullTexts).2 webPort 11 hvalid).mp h
  revert hroom
  unfold BufferRoom
  decide

/-- An empty port, a port of 2^32 + 80 and one with a letter in it are accepted, and so is an address that is a
space. -/
theorem port_accepted :
    ipPortFromStr fullTexts webPort (str "1.2.3.4:") = some (0, { webPort with port := 0 }) ∧
    ipPortFromStr fullTexts webPort (str "1.2.3.4:4294967376") = some (0, webPort) ∧
    ipPortFromStr fullTexts webPort (str "1.2.3.4:80x") = some (0, webPort) ∧
    ipPortFromStr fullTexts webPort (str " :80") = some (0, webPort) ∧
    ¬ MeetsGrammar fullTexts webPort (str "1.2.3.4:") := by
  refine ⟨by decide, by decide, by decide, by decide, fun h => ?_⟩
  have hcolon : ch ':' ∉ str "1.2.3.4" := by decide
  have hfirst : (str "1.2.3.4").head? ≠ some (ch '[') := by decide
  exact (@v4_meets fullTexts (str "1.2.3.4") [] webPort hcolon hfirst (by decide)).mp h lenient_empty

end WafProxy
