import WafProxy.Http.DecodeRuns

/-
  Nested encodings — `http_decode_string` of http_decode.c

  A text is percent-encoded byte by byte, and then its percent signs again and again.
  Each round of the URL decoder peels one level off, everywhere in the text; once the
  text is decoded, the rounds that are left do not change it.

  What is proved:
    1. `httpStringDecode_level` — one pass peels one level.
    2. `httpDecodeLoop_level` — as many levels as there are rounds.
    3. `httpDecodeStringInto_nested` — up to sixteen levels are undone.

  Correspondence (C ↔ Lean):
    `http_decode_string`   ↔ `httpDecodeStringInto`
-/

namespace WafProxy
open Lib

/-! ## Nested encodings -/

/-- Every byte as `%` and two hexadecimal digits. -/
inductive Encoded : List Byte → List Byte → Prop
  | nil : Encoded [] []
  | cons (b h k : Byte) {s e : List Byte} (hh : isxdigit h = true) (hk : isxdigit k = true)
      (hb : UInt8.ofNat (hexDigit h * 16 + hexDigit k) = b) (hs : Encoded s e) :
      Encoded (b :: s) (ch '%' :: h :: k :: e)

/-- `%25` for every `%`. -/
def nest (e : List Byte) : List Byte := e.flatMap fun c => if c = ch '%' then str "%25" else [c]

/-- `k` times. -/
def nested : Nat → List Byte → List Byte
  | 0, e => e
  | k + 1, e => nest (nested k e)

theorem percentCode_hex {h k : Byte} (hh : isxdigit h = true) (hk : isxdigit k = true)
    (hzero : ¬ (hexDigit h = 0 ∧ hexDigit k = 0)) (rest : List Byte) :
    percentCode (h :: k :: rest) = some (UInt8.ofNat (hexDigit h * 16 + hexDigit k), rest) := by
  obtain ⟨_, _, hx, hX, hu⟩ := hex_ne h hh
  have hname : ∀ s : List Byte, ¬ startsWithCase (h :: k :: rest) (ch 'u' :: s) = true := by
    intro s hs
    rw [startsWithCase, Bool.and_eq_true, decide_eq_true_eq] at hs
    exact hu hs.1
  have hu00 : ¬ startsWithCase (h :: k :: rest) (str "u00") = true := hname _
  have huff : ¬ startsWithCase (h :: k :: rest) (str "uff") = true := hname _
  rw [percentCode_cons, if_neg (not_or.mpr ⟨hx, hX⟩), if_neg hu00, if_neg huff]
  apply hexByte_code
  rw [hexByte, if_pos ⟨hh, hk, hzero⟩]

theorem httpStringDecode_percentCodes (text : List Byte) : httpStringDecode text false = percentCodes.decode text :=
  congrArg Prod.fst (stringDecoded_percentCode text)

/-- One pass over the innermost encoding. -/
theorem httpStringDecode_encoded {s e : List Byte} (he : Encoded s e) (hnul : ∀ b ∈ s, b ≠ 0) :
    httpStringDecode e false = s := by
  rw [httpStringDecode_percentCodes]
  induction he with
  | nil => rfl
  | cons b h k hh hk hb _ ih =>
    obtain ⟨hb0, hrest⟩ := List.forall_mem_cons.mp hnul
    have hzero : ¬ (hexDigit h = 0 ∧ hexDigit k = 0) := by
      rintro ⟨hh0, hk0⟩
      rw [hh0, hk0] at hb
      exact hb0 hb.symm
    rw [percentCodes_mark, percentCode_hex hh hk hzero, hb, emittedAt, ih hrest]

theorem nest_cons (c : Byte) (e : List Byte) :
    nest (c :: e) = (if c = ch '%' then str "%25" else [c]) ++ nest e := List.flatMap_cons

/-- One pass over the others; a `+` would be lost. -/
theorem httpStringDecode_nest {e : List Byte} (hplus : ch '+' ∉ e) : httpStringDecode (nest e) false = e := by
  rw [httpStringDecode_percentCodes]
  induction e with
  | nil => rfl
  | cons c e ih =>
    rw [List.mem_cons, not_or] at hplus
    rw [nest_cons]
    by_cases hc : c = ch '%'
    · have htwo : str "%25" ++ nest e = ch '%' :: ch '2' :: ch '5' :: nest e := rfl
      have hbyte : UInt8.ofNat (hexDigit (ch '2') * 16 + hexDigit (ch '5')) = ch '%' := by decide
      rw [if_pos hc, htwo, percentCodes_mark, percentCode_hex (by decide) (by decide) (by decide), hbyte, emittedAt,
        ih hplus.2, hc]
    · have hkeep : percentCodes.other c = c := if_neg (Ne.symm hplus.1)
      rw [if_neg hc, List.singleton_append, percentCodes.decode_other hc, hkeep, ih hplus.2]

theorem nest_plus {e : List Byte} (h : ch '+' ∉ e) : ch '+' ∉ nest e := by
  intro hmem
  obtain ⟨c, hc, hin⟩ := List.mem_flatMap.mp hmem
  split at hin
  · exact absurd hin (by decide)
  · rw [List.mem_singleton] at hin
    rw [hin] at h
    exact h hc

theorem nested_plus {e : List Byte} (h : ch '+' ∉ e) : ∀ k, ch '+' ∉ nested k e := by
  intro k
  induction k with
  | zero => exact h
  | succ k ih => exact nest_plus ih

theorem Encoded.plus {s e : List Byte} (h : Encoded s e) : ch '+' ∉ e := by
  induction h with
  | nil => exact List.not_mem_nil
  | cons b h k hh hk hb _ ih =>
    intro hmem
    rcases List.mem_cons.mp hmem with heq | hmem
    · exact absurd heq (by decide)
    rcases List.mem_cons.mp hmem with heq | hmem
    · exact (hex_ne h hh).2.1 heq.symm
    rcases List.mem_cons.mp hmem with heq | hmem
    · exact (hex_ne k hk).2.1 heq.symm
    exact ih hmem

/-- The decoded text, then the levels of encoding. -/
def level (s e : List Byte) : Nat → List Byte
  | 0 => s
  | k + 1 => nested k e

/-- **One pass peels one level**, and leaves the decoded text. -/
theorem httpStringDecode_level {s e : List Byte} (he : Encoded s e)
    (hfree : ∀ b ∈ s, b ≠ 0 ∧ b ≠ ch '%' ∧ b ≠ ch '+')
    (k : Nat) : httpStringDecode (level s e k) false = level s e (k - 1) := by
  cases k with
  | zero =>
    rw [httpStringDecode_percentCodes]
    show percentCodes.decode s = s
    have hcopy := percentCodes.decode_append (l := s) (fun b hb => (hfree b hb).2.1) []
    rw [List.append_nil] at hcopy
    rw [hcopy, Decoder.decode_nil, List.append_nil]
    conv_rhs => rw [← List.map_id s]
    exact List.map_congr_left fun b hb => if_neg (hfree b hb).2.2
  | succ k =>
    cases k with
    | zero => exact httpStringDecode_encoded he fun b hb => (hfree b hb).1
    | succ k => exact httpStringDecode_nest (nested_plus he.plus k)

theorem nest_length (e : List Byte) : e.length ≤ (nest e).length := by
  induction e with
  | nil => exact Nat.le_refl _
  | cons c e ih =>
    rw [nest_cons, List.length_append, List.length_cons]
    split
    · have hlen : (str "%25").length = 3 := rfl
      omega
    · rw [List.length_singleton]
      omega

theorem Encoded.length {s e : List Byte} (h : Encoded s e) : e.length = 3 * s.length := by
  induction h with
  | nil => rfl
  | cons b h k hh hk hb _ ih =>
    simp only [List.length_cons]
    omega

theorem level_length {s e : List Byte} (he : Encoded s e) (k : Nat) :
    (level s e (k - 1)).length ≤ (level s e k).length := by
  have hlen := he.length
  cases k with
  | zero => exact Nat.le_refl _
  | succ k =>
    cases k with
    | zero =>
      show s.length ≤ e.length
      omega
    | succ k => exact nest_length _

/-- The rounds over a level. -/
theorem httpDecodeLoop_level {s e : List Byte} (he : Encoded s e) (hfree : ∀ b ∈ s, b ≠ 0 ∧ b ≠ ch '%' ∧ b ≠ ch '+')
    (maxUrlOutLen : Nat) {inStringLen : Nat} (hlong : 2 < inStringLen) (hlimit : inStringLen < MAX_DECODE_LEN) :
    ∀ cnt k : Nat, (level s e k).length ≤ inStringLen →
    httpDecodeLoop { url := true } maxUrlOutLen inStringLen cnt (level s e k) = level s e (k - cnt) := by
  intro cnt
  induction cnt with
  | zero => exact fun _ _ => rfl
  | succ cnt ih =>
    intro k hlen
    have hle := level_length he k
    have hround : httpDecodeRound { url := true } maxUrlOutLen inStringLen (level s e k) =
      (level s e (k - 1), true) := by
      apply Prod.ext
      · rw [httpDecodeRound_url, if_pos rfl, urlDecoded, if_pos hlong]
        show (httpStringDecode (level s e k) false).take _ = _
        rw [httpStringDecode_level he hfree, List.take_of_length_le (by omega)]
      · rw [httpDecodeRound_flag]
        exact Bool.or_true _
    rw [httpDecodeLoop_succ, hround, if_pos rfl, ih (k - 1) (by omega)]
    congr 1
    omega

/-- **Up to sixteen levels of encoding** are undone. -/
theorem httpDecodeStringInto_nested {s e : List Byte} (hne : s ≠ [])
    (hfree : ∀ b ∈ s, b ≠ 0 ∧ b ≠ ch '%' ∧ b ≠ ch '+')
    (he : Encoded s e) {k : Nat} (hk : 1 ≤ k ∧ k ≤ 16) {maxUrlOutLen : Nat}
    (hlen : (nested (k - 1) e).length < maxUrlOutLen) (hmax : maxUrlOutLen ≤ 8192) {c : Cells DecodeArray Byte}
    (hat : c.At .inString 0 (nested (k - 1) e)) :
    Prog.Ends (httpDecodeStringInto { url := true } maxUrlOutLen (nested (k - 1) e).length) c fun r c' _ =>
      r = s.length ∧ c'.At .outString 0 s := by
  have hlimit : MAX_DECODE_LEN = 16384 := rfl
  have hlevel : level s e k = nested (k - 1) e := by
    obtain ⟨k, rfl⟩ : ∃ j, k = j + 1 := ⟨k - 1, by omega⟩
    rfl
  have hlong : ∀ j, s.length ≤ (nested j e).length ∧ 2 < (nested j e).length := by
    have hpos := List.length_pos_iff.mpr hne
    have hthree := he.length
    intro j
    induction j with
    | zero => exact ⟨by show s.length ≤ e.length; omega, by show 2 < e.length; omega⟩
    | succ j ih =>
      have hle := nest_length (nested j e)
      exact ⟨Nat.le_trans ih.1 hle, Nat.lt_of_lt_of_le ih.2 hle⟩
  obtain ⟨hshort, hmore⟩ := hlong (k - 1)
  have hdecoded : httpDecodeString maxUrlOutLen (nested (k - 1) e) { url := true } = s := by
    have hloop := httpDecodeLoop_level he hfree maxUrlOutLen hmore (by omega) 16 k (Nat.le_of_eq (by rw [hlevel]))
    have hdone : k - 16 = 0 := by omega
    rw [hlevel, hdone] at hloop
    rw [httpDecodeString, if_neg (by omega), hloop]
    exact List.take_of_length_le (by show s.length ≤ _; omega)
  refine (ends_httpDecodeStringInto_text { url := true } (Nat.le_of_lt hlen) (by omega) hat).mono ?_
  rintro r c' _ ⟨rfl, hat'⟩
  rw [hdecoded] at hat' ⊢
  exact ⟨rfl, hat'⟩

theorem httpDecodeStringInto_nested_two :
    Prog.Ends (httpDecodeStringInto { url := true } 100 10) (Cells.ofList (str "%2541%2562") 7) fun r c' _ =>
      r = 2 ∧ c'.At .outString 0 (str "Ab") := by
  have he : Encoded (str "Ab") (str "%41%62") :=
    .cons _ _ _ (by decide) (by decide) (by decide) (.cons _ _ _ (by decide) (by decide) (by decide) .nil)
  exact httpDecodeStringInto_nested (s := str "Ab") (k := 2) (by decide) (forall_text (by decide)) he (by decide)
    (show (nested 1 (str "%41%62")).length < 100 by decide) (by decide) (Cells.at_ofList (str "%2541%2562") 7)

end WafProxy
