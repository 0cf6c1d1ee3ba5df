import WafProxy.Ip.Addr
import WafProxy.Lib.Separated

/-
  Texts of addresses

  The texts of a C library: an IPv4 address is four decimal numbers without
  leading zeros and with dots between them, which is all that `inet_pton` accepts
  and what `inet_ntop` prints. An IPv6 address is spelled in full, as eight groups
  of four hexadecimal digits; `inet_pton` accepts shorter spellings of it too.

  What is proved:
    `fullTexts` — these are texts as the code relies on them.
-/

namespace WafProxy
open Lib

/-! ## IPv4 -/

def byteText (b : Byte) : List Byte := unsignedText b.toNat

def textByte (s : List Byte) : Byte := UInt8.ofNat (digits 10 0 s)

theorem byteText_spec : ∀ b, textByte (byteText b) = b ∧ (byteText b).length ≤ 3 ∧
    (byteText b).all isdigit = true := by
  apply forall_byte
  decide +kernel

/-! ## IPv6 -/

/-- The two bytes of a group. -/
abbrev Group := Byte × Byte

def hexChar (n : Nat) : Byte := ch (Nat.digitChar n)

def groupText (g : Group) : List Byte :=
  [hexChar (g.1.toNat / 16), hexChar (g.1.toNat % 16), hexChar (g.2.toNat / 16), hexChar (g.2.toNat % 16)]

def textGroup (s : List Byte) : Group :=
    (UInt8.ofNat (digits 16 0 (s.take 2)), UInt8.ofNat (digits 16 0 (s.drop 2)))

theorem hexChar_spec : ∀ b : Byte, digits 16 0 [hexChar (b.toNat / 16), hexChar (b.toNat % 16)] = b.toNat ∧
    isxdigit (hexChar (b.toNat / 16)) = true ∧ isxdigit (hexChar (b.toNat % 16)) = true := by
  apply forall_byte
  decide +kernel

theorem textGroup_groupText (g : Group) : textGroup (groupText g) = g := by
  obtain ⟨a, b⟩ := g
  show (UInt8.ofNat (digits 16 0 [hexChar (a.toNat / 16), hexChar (a.toNat % 16)]),
    UInt8.ofNat (digits 16 0 [hexChar (b.toNat / 16), hexChar (b.toNat % 16)])) = (a, b)
  rw [(hexChar_spec a).1, (hexChar_spec b).1, UInt8.ofNat_toNat, UInt8.ofNat_toNat]

theorem groupText_hex (g : Group) : ∀ c ∈ groupText g, isxdigit c = true := by
  intro c hc
  simp only [groupText, List.mem_cons, List.not_mem_nil, or_false] at hc
  rcases hc with rfl | rfl | rfl | rfl
  · exact (hexChar_spec g.1).2.1
  · exact (hexChar_spec g.1).2.2
  · exact (hexChar_spec g.2).2.1
  · exact (hexChar_spec g.2).2.2

def groups : List Byte → List Group
  | a :: b :: l => (a, b) :: groups l
  | _ => []

def ungroup (gs : List Group) : List Byte := gs.flatMap fun g => [g.1, g.2]

theorem ungroup_length (gs : List Group) : (ungroup gs).length = 2 * gs.length := by
  induction gs with
  | nil => rfl
  | cons g gs ih =>
    show (ungroup gs).length + 2 = 2 * (gs.length + 1)
    omega

theorem groups_of_length :
    ∀ (n : Nat) {a : List Byte}, a.length = 2 * n → (groups a).length = n ∧ ungroup (groups a) = a
  | 0, a, h => by
    rw [List.length_eq_zero_iff.mp h]
    exact ⟨rfl, rfl⟩
  | n + 1, a, h => by
    match a, h with
    | x :: y :: a, h =>
      obtain ⟨hlen, hback⟩ := groups_of_length n (a := a) (by simp only [List.length_cons] at h; omega)
      exact ⟨congrArg (· + 1) hlen, congrArg (fun l => x :: y :: l) hback⟩

/-! ## Both -/

def ntop4Text (a : List Byte) : List Byte := join (ch '.') (a.map byteText)

def pton4Text (s : List Byte) : Option (List Byte) := fields (ch '.') byteText textByte 4 s

def ntop6Text (a : List Byte) : List Byte := join (ch ':') ((groups a).map groupText)

def pton6Text (s : List Byte) : Option (List Byte) := (fields (ch ':') groupText textGroup 8 s).map ungroup

theorem pton4Text_text {s a : List Byte} (h : pton4Text s = some a) :
    s.length < INET_ADDRSTRLEN ∧ ch '.' ∈ s ∧ ∀ c ∈ s, isdigit c = true ∨ c = ch '.' := by
  obtain ⟨ha, rfl⟩ := fields_some h
  have hlen : (a.map byteText).length = 4 := by rw [List.length_map, ha]
  have hne : a.map byteText ≠ [] := fun hnil => by rw [hnil] at hlen; cases hlen
  have hfields : ∀ l ∈ a.map byteText, l.length ≤ 3 ∧ ∀ c ∈ l, isdigit c = true := by
    intro l hl
    obtain ⟨b, -, rfl⟩ := List.mem_map.mp hl
    exact ⟨(byteText_spec b).2.1, List.all_eq_true.mp (byteText_spec b).2.2⟩
  refine ⟨?_, sep_mem_join (by omega), ?_⟩
  · have hjoin := @join_length _ (ch '.') 3 _ hne fun l hl => (hfields l hl).1
    rw [hlen] at hjoin
    exact hjoin
  · intro c hc
    rcases mem_join hc with hsep | hfield
    · exact Or.inr hsep
    · obtain ⟨l, hl, hc⟩ := hfield
      exact Or.inl ((hfields l hl).2 c hc)

theorem pton6Text_text {s a : List Byte} (h : pton6Text s = some a) :
    s.length < INET6_ADDRSTRLEN ∧ ch ':' ∈ s ∧ ∀ c ∈ s, isxdigit c = true ∨ c = ch ':' ∨ c = ch '.' := by
  obtain ⟨gs, hgs, -⟩ := Option.map_eq_some_iff.mp h
  obtain ⟨hg, rfl⟩ := fields_some hgs
  have hlen : (gs.map groupText).length = 8 := by rw [List.length_map, hg]
  have hne : gs.map groupText ≠ [] := fun hnil => by rw [hnil] at hlen; cases hlen
  have hfields : ∀ l ∈ gs.map groupText, l.length ≤ 4 ∧ ∀ c ∈ l, isxdigit c = true := by
    intro l hl
    obtain ⟨g, -, rfl⟩ := List.mem_map.mp hl
    exact ⟨Nat.le_refl _, groupText_hex g⟩
  refine ⟨?_, sep_mem_join (by omega), ?_⟩
  · have hjoin := @join_length _ (ch ':') 4 _ hne fun l hl => (hfields l hl).1
    rw [hlen] at hjoin
    exact Nat.lt_of_lt_of_le hjoin (by decide)
  · intro c hc
    rcases mem_join hc with hsep | hfield
    · exact Or.inr (Or.inl hsep)
    · obtain ⟨l, hl, hc⟩ := hfield
      exact Or.inl ((hfields l hl).2 c hc)

/-- Texts of addresses. -/
def fullTexts : Inet where
  pton4 := pton4Text
  pton6 := pton6Text
  ntop4 := ntop4Text
  ntop6 := ntop6Text
  pton4_size := fun _ _ h => (fields_some h).1
  pton6_size := by
    intro s a h
    obtain ⟨gs, hgs, rfl⟩ := Option.map_eq_some_iff.mp h
    rw [ungroup_length, (fields_some hgs).1]
  pton4_text := fun _ _ h => pton4Text_text h
  pton6_text := fun _ _ h => pton6Text_text h
  pton4_ntop4 := by
    intro a ha
    apply fields_join
    · exact fun b => (byteText_spec b).1
    · intro b hmem
      exact absurd (List.all_eq_true.mp (byteText_spec b).2.2 _ hmem) (by decide)
    · decide
    · exact ha
  pton6_ntop6 := by
    intro a ha
    obtain ⟨hlen, hback⟩ := groups_of_length 8 ha
    have hfields := @fields_join _ _ _ (ch ':') groupText textGroup 8 textGroup_groupText
      (fun g hmem => absurd (groupText_hex g _ hmem) (by decide)) (by decide) (groups a) hlen
    rw [pton6Text, ntop6Text, hfields, Option.map_some, hback]

end WafProxy
