import WafProxy.Http.DecodeLength
import WafProxy.Http.EscapeText
import WafProxy.Lib.Escapes

/-
  Percent sequences — http_decode.c

  The decoder goes through the input from its end. Behind a `%` it looks at what it
  has emitted so far, and `tmp_len` tells how much of that stood there unencoded.
  Read from the front, it is a decoder of marked sequences: what is decoded behind
  a `%` depends on the bytes up to the next `%` alone.

  What is proved:
    1. `stringDecoded_percentCode` — the decoder as one that reads from the front.
    2. `percentCode_eq_iff` — it finds the sequences of two hexadecimal digits, unless a
       byte from 16 to 25 is taken for a digit or what stands behind `%uff` is no number.
    3. `httpStringDecode_eq_iff` — it decodes exactly these when there is no such `%`.

  Correspondence (C ↔ Lean):
    `_http_string_decode`, `_http_reverse_string`   ↔ `httpStringDecode`
-/

namespace WafProxy
open Lib

/-! ## The sequences -/

def hexDigit (b : Byte) : Nat := (digitValue b).getD 0

/-- Two hexadecimal digits that are not `00`. -/
def hexByte : List Byte → Option (Byte × List Byte)
  | h :: k :: rest =>
    if isxdigit h ∧ isxdigit k ∧ ¬ (hexDigit h = 0 ∧ hexDigit k = 0) then
      some (UInt8.ofNat (hexDigit h * 16 + hexDigit k), rest)
    else none
  | _ => none

/-- The full-width form; `zero` tells whether its digits may be `00`. -/
def fullWidthByte (zero : Bool) : List Byte → Option (Byte × List Byte)
  | h :: k :: rest =>
    if isxdigit h ∧ isxdigit k ∧ (zero ∨ ¬ (hexDigit h = 0 ∧ hexDigit k = 0)) then
      some (UInt8.ofNat (hexDigit h * 16 + hexDigit k + 32), rest)
    else none
  | _ => none

/-- What a `%` in front of the text stands for: `HH`, `xHH`, `u00HH` or `uFFHH`. -/
def percentSequence (zero : Bool) : List Byte → Option (Byte × List Byte)
  | [] => none
  | a :: text =>
    if a = ch 'x' ∨ a = ch 'X' then hexByte text
    else if startsWithCase (a :: text) (str "u00") then hexByte (text.drop 2)
    else if startsWithCase (a :: text) (str "uff") then fullWidthByte zero (text.drop 2)
    else hexByte (a :: text)

/-- A `+` is a space. -/
def plusToSpace (c : Byte) : Byte := if c = ch '+' then ch ' ' else c

/-! ## What the code decodes -/

/-- Two bytes the code takes for digits. -/
def codeByte : List Byte → Option (Byte × List Byte)
  | a :: b :: rest =>
    if 0 ≤ httpCharacterToDigit a ∧ 0 ≤ httpCharacterToDigit b ∧
        ¬ (httpCharacterToDigit a = 0 ∧ httpCharacterToDigit b = 0) then
      some (UInt8.ofInt (httpCharacterToDigit a * 16 + httpCharacterToDigit b), rest)
    else none
  | _ => none

/-- Two bytes of any kind. -/
def codeFullWidth : List Byte → Option (Byte × List Byte)
  | a :: b :: rest => some (UInt8.ofInt ((httpCharacterToDigit a + 2) * 16 + httpCharacterToDigit b), rest)
  | _ => none

/-- What the code decodes behind a `%`, with the distance to the next `%` in place of `tmp_len`. -/
def percentCode (text : List Byte) : Option (Byte × List Byte) :=
  if (text.head? = some (ch 'x') ∨ text.head? = some (ch 'X')) ∧ 3 ≤ percentSpan text then codeByte (text.drop 1)
  else if startsWithCase text (str "u00") ∧ 5 ≤ percentSpan text then codeByte (text.drop 3)
  else if startsWithCase text (str "uff") ∧ 5 ≤ percentSpan text then codeFullWidth (text.drop 3)
  else if 2 ≤ percentSpan text then codeByte text
  else none

/-! ## What a sequence consists of -/

/-- Up to `percentSpan` bytes hold no `%`. -/
theorem percentSpan_consumed {text : List Byte} {k : Nat} (h : k ≤ percentSpan text) :
    k ≤ text.length ∧ ∀ c ∈ text.take k, c ≠ ch '%' := by
  have hspan : k ≤ (text.takeWhile (· ≠ ch '%')).length := Nat.le_trans h List.countP_le_length
  have hprefix := List.takeWhile_prefix (p := fun c => decide (c ≠ ch '%')) (l := text)
  refine ⟨Nat.le_trans hspan hprefix.length_le, fun c hc => ?_⟩
  have hc : c ∈ text.takeWhile (· ≠ ch '%') := by
    rw [List.prefix_iff_eq_take.mp hprefix]
    exact List.take_subset_take_left _ hspan hc
  simpa using List.all_eq_true.mp List.all_takeWhile c hc

theorem consumed_drop {text : List Byte} {k : Nat} (h : k ≤ percentSpan text) :
    Consumed (ch '%') text (text.drop k) :=
  ⟨text.take k, (List.take_append_drop k text).symm, (percentSpan_consumed h).2⟩

theorem codeByte_rest {text rest : List Byte} {b : Byte} (h : codeByte text = some (b, rest)) :
    rest = text.drop 2 := by
  rcases text with _ | ⟨a, _ | ⟨c, text⟩⟩
  · cases h
  · cases h
  · rw [codeByte] at h
    split at h <;> cases h
    rfl

theorem codeFullWidth_rest {text rest : List Byte} {b : Byte} (h : codeFullWidth text = some (b, rest)) :
    rest = text.drop 2 := by
  rcases text with _ | ⟨a, _ | ⟨c, text⟩⟩ <;> cases h
  rfl

theorem percentCode_consumed (text : List Byte) (b : Byte) (rest : List Byte)
    (h : percentCode text = some (b, rest)) : Consumed (ch '%') text rest := by
  unfold percentCode at h
  split at h
  next hx =>
    rw [codeByte_rest h, List.drop_drop]
    exact consumed_drop hx.2
  next =>
    split at h
    next hu =>
      rw [codeByte_rest h, List.drop_drop]
      exact consumed_drop hu.2
    next =>
      split at h
      next hf =>
        rw [codeFullWidth_rest h, List.drop_drop]
        exact consumed_drop hf.2
      next =>
        split at h
        next h2 =>
          rw [codeByte_rest h]
          exact consumed_drop h2
        next => cases h

/-- What the code makes of the input, from the front. -/
def percentCodes : Decoder Byte where
  mark := ch '%'
  other := plusToSpace
  escape := percentCode
  consumed := percentCode_consumed

/-- The bytes up to the next `%` are emitted as they are. -/
theorem percentCodes_drop {text : List Byte} {k : Nat} (h : k ≤ percentSpan text) :
    percentCodes.decode text = (text.take k).map plusToSpace ++ percentCodes.decode (text.drop k) := by
  have hsplit := percentCodes.decode_append (percentSpan_consumed h).2 (text.drop k)
  rw [List.take_append_drop] at hsplit
  exact hsplit

/-! ## From the end and from the front -/

theorem plusToSpace_eq {x : Byte} (hplus : x ≠ ch '+') (hspace : x ≠ ch ' ') (c : Byte) :
    plusToSpace c = x ↔ c = x := by
  unfold plusToSpace
  split
  next hc =>
    rw [hc]
    exact ⟨fun h => absurd h.symm hspace, fun h => absurd h.symm hplus⟩
  next => exact Iff.rfl

theorem digit_plusToSpace (c : Byte) : httpCharacterToDigit (plusToSpace c) = httpCharacterToDigit c := by
  unfold plusToSpace
  split
  next hc =>
    rw [hc]
    decide
  next => rfl

theorem tolower_plusToSpace : ∀ c, tolower (plusToSpace c) = plusToSpace (tolower c) := by
  apply forall_byte
  decide +kernel

/-- A name that stands in front of the next `%` is found in what is emitted for it. -/
theorem startsWithCase_plusToSpace : ∀ (s : List Byte), (∀ c ∈ s, tolower c ≠ ch '+' ∧ tolower c ≠ ch ' ') →
    ∀ (l out text : List Byte), s.length ≤ l.length →
    startsWithCase (l.map plusToSpace ++ out) s = startsWithCase (l ++ text) s := by
  intro s
  induction s with
  | nil =>
    intro _ l out text _
    cases l <;> cases out <;> cases text <;> rfl
  | cons c s ih =>
    intro hs l out text hlen
    obtain ⟨hc, hs⟩ := List.forall_mem_cons.mp hs
    cases l with
    | nil => exact absurd hlen (Nat.not_succ_le_zero _)
    | cons b l =>
      rw [List.map_cons, List.cons_append, List.cons_append, startsWithCase, startsWithCase,
        ih hs l out text (Nat.le_of_succ_le_succ hlen), tolower_plusToSpace]
      rw [decide_eq_decide.mpr (plusToSpace_eq hc.1 hc.2 (tolower b))]

/-- Two bytes in front of what is emitted behind them. -/
theorem codeByte_emitted (a b : Byte) (out text : List Byte) :
    httpPercentXxDecodeBackward (plusToSpace a :: plusToSpace b :: out) =
      (codeByte (a :: b :: text)).map fun r => r.1 :: out := by
  rw [httpPercentXxDecodeBackward, codeByte, digit_plusToSpace, digit_plusToSpace]
  split <;> rfl

theorem codeFullWidth_emitted (a b : Byte) (out text : List Byte) :
    httpPercentFFxxDecodeBackward (plusToSpace a :: plusToSpace b :: out) =
      (codeFullWidth (a :: b :: text)).map fun r => r.1 :: out := by
  rw [httpPercentFFxxDecodeBackward, codeFullWidth, digit_plusToSpace, digit_plusToSpace]
  rfl

/-- The type of the sequence, with a count in place of `tmp_len`. -/
theorem httpStringDecodeTypeBackward_span {string : List Byte} {n : Nat} (h : 2 < string.length) :
    httpStringDecodeTypeBackward string n =
      if (string[1]? = some (ch 'x') ∨ string[1]? = some (ch 'X')) ∧ 3 ≤ n then
        (if string.length ≤ 3 then some .noPercent else some .xyy, string)
      else if startsWithCase string (str "%u00") ∧ 5 ≤ n then
        (if string.length ≤ 5 then some .noPercent else some .u00xx, string)
      else if startsWithCase string (str "%uff") ∧ 5 ≤ n then
        (if string.length ≤ 5 then some .noPercent else some .uffxx, string)
      else if 2 ≤ n then (some .xx, string)
      else (none, string) := by
  have hlevel : ((n : Nat) : Int) ≠ -1 := by omega
  have h3 : ((3 : Int) ≤ n ∨ (n : Int) = -1) ↔ 3 ≤ n := by omega
  have h5 : ((5 : Int) ≤ n ∨ (n : Int) = -1) ↔ 5 ≤ n := by omega
  have h2 : ((2 : Int) ≤ n ∨ (n : Int) = -1) ↔ 2 ≤ n := by omega
  unfold httpStringDecodeTypeBackward
  simp only [h3, h5, h2]
  rw [if_neg hlevel, if_neg (Nat.not_le.mpr h)]

/-- What is emitted from a `%` on, when what stands behind it is found. -/
def emittedAt (text : List Byte) : Option (Byte × List Byte) → List Byte
  | some (b, rest) => b :: percentCodes.decode rest
  | none => ch '%' :: percentCodes.decode text

theorem percentCodes_mark (text : List Byte) :
    percentCodes.decode (ch '%' :: text) = emittedAt text (percentCode text) := by
  have hmark : ch '%' = percentCodes.mark := rfl
  rw [hmark, percentCodes.decode_mark]
  show _ = emittedAt text (percentCodes.escape text)
  cases percentCodes.escape text <;> rfl

/-- Two bytes in front of the next `%` are replaced in what is emitted as in the text. -/
theorem emitted_pair {decode : List Byte → Option (List Byte)} {code : List Byte → Option (Byte × List Byte)}
    (hpair : ∀ a b out text, decode (plusToSpace a :: plusToSpace b :: out) =
      (code (a :: b :: text)).map fun r => r.1 :: out)
    (hrest : ∀ text b rest, code text = some (b, rest) → rest = text.drop 2) {text : List Byte} {k : Nat}
    (h : k + 2 ≤ percentSpan text) :
    (decode ((ch '%' :: percentCodes.decode text).drop (k + 1))).getD (ch '%' :: percentCodes.decode text) =
      emittedAt text (code (text.drop k)) := by
  obtain ⟨hlen, -⟩ := percentSpan_consumed h
  obtain ⟨b, c, hdrop⟩ : ∃ b c, text.drop k = b :: c :: text.drop (k + 2) := by
    refine ⟨text[k], text[k + 1], ?_⟩
    rw [List.drop_eq_getElem_cons (by omega), List.drop_eq_getElem_cons (i := k + 1) (by omega)]
  have hout : (percentCodes.decode text).drop k =
      plusToSpace b :: plusToSpace c :: percentCodes.decode (text.drop (k + 2)) := by
    have htake : text.take (k + 2) = text.take k ++ [b, c] := by
      rw [List.take_add, hdrop]
      rfl
    rw [percentCodes_drop h, htake, List.map_append, List.append_assoc, List.drop_left' (by simp; omega)]
    rfl
  rw [List.drop_succ_cons, hout, hpair b c _ (text.drop (k + 2)), ← hdrop]
  cases hr : code (text.drop k) with
  | none => rfl
  | some r =>
    obtain ⟨e, rest⟩ := r
    have heq := hrest _ _ _ hr
    rw [List.drop_drop] at heq
    rw [heq]
    rfl

theorem percentCodes_length {text : List Byte} {k : Nat} (h : k ≤ percentSpan text) :
    k ≤ (percentCodes.decode text).length := by
  have hlen := (percentSpan_consumed h).1
  rw [percentCodes_drop h, List.length_append, List.length_map, List.length_take]
  omega

/-- **One `%`**: what is decoded from what was emitted is what stands in the text. -/
theorem httpStringDecodeBackward_percentCode (text : List Byte) :
    httpStringDecodeBackward (ch '%' :: percentCodes.decode text) (percentSpan text) =
      percentCodes.decode (ch '%' :: text) := by
  have hemitted := @percentCodes_drop text
  -- the bytes in front of the next `%` decide the type
  have hx : (((ch '%' :: percentCodes.decode text)[1]? = some (ch 'x') ∨
      (ch '%' :: percentCodes.decode text)[1]? = some (ch 'X')) ∧ 3 ≤ percentSpan text) ↔
      ((text.head? = some (ch 'x') ∨ text.head? = some (ch 'X')) ∧ 3 ≤ percentSpan text) := by
    refine and_congr_left fun h3 => ?_
    obtain ⟨hlen, -⟩ := percentSpan_consumed h3
    rw [hemitted h3]
    cases text with
    | nil => exact absurd hlen (by decide)
    | cons a rest => simp [plusToSpace_eq (show ch 'x' ≠ ch '+' by decide) (by decide),
        plusToSpace_eq (show ch 'X' ≠ ch '+' by decide) (by decide)]
  have hname : ∀ (s : List Byte), (∀ c ∈ s, tolower c ≠ ch '+' ∧ tolower c ≠ ch ' ') → s.length ≤ 5 →
      ((startsWithCase (ch '%' :: percentCodes.decode text) (ch '%' :: s) ∧ 5 ≤ percentSpan text) ↔
        (startsWithCase text s ∧ 5 ≤ percentSpan text)) := by
    intro s hs hlen
    refine and_congr_left fun h5 => ?_
    have htake : (text.take 5).length = 5 := by
      rw [List.length_take]
      exact Nat.min_eq_left (percentSpan_consumed h5).1
    have heq := startsWithCase_plusToSpace s hs (text.take 5) (percentCodes.decode (text.drop 5)) (text.drop 5)
      (by omega)
    rw [List.take_append_drop] at heq
    rw [hemitted h5, startsWithCase, heq]
    simp
  have hu := hname (str "u00") (forall_text (by decide)) (by decide)
  have hf := hname (str "uff") (forall_text (by decide)) (by decide)
  have hu00 : ch '%' :: str "u00" = str "%u00" := rfl
  have huff : ch '%' :: str "uff" = str "%uff" := rfl
  rw [hu00] at hu
  rw [huff] at hf
  rw [percentCodes_mark]
  rcases Nat.lt_or_ge (percentSpan text) 2 with hshort | h2
  · have hnone : percentCode text = none := by
      unfold percentCode
      rw [if_neg (by omega), if_neg (by omega), if_neg (by omega), if_neg (by omega)]
    rw [hnone]
    show _ = ch '%' :: percentCodes.decode text
    rcases Nat.lt_or_ge 2 (ch '%' :: percentCodes.decode text).length with hlong | hshort'
    · rw [httpStringDecodeBackward, httpStringDecodeTypeBackward_span hlong, if_neg (by omega), if_neg (by omega),
        if_neg (by omega), if_neg (by omega)]
    · have hlevel : ((percentSpan text : Nat) : Int) ≠ -1 := by omega
      unfold httpStringDecodeBackward httpStringDecodeTypeBackward
      simp only [hlevel, if_false]
      rw [if_pos hshort']
  · have hlong : 2 < (ch '%' :: percentCodes.decode text).length := Nat.succ_lt_succ (percentCodes_length h2)
    rw [httpStringDecodeBackward, httpStringDecodeTypeBackward_span hlong]
    unfold percentCode
    have hxx := fun k => @emitted_pair _ _ codeByte_emitted (fun _ _ _ => codeByte_rest) text k
    by_cases hcx : (text.head? = some (ch 'x') ∨ text.head? = some (ch 'X')) ∧ 3 ≤ percentSpan text
    · have hlen := percentCodes_length hcx.2
      rw [if_pos (hx.mpr hcx), if_pos hcx, if_neg (by rw [List.length_cons]; omega)]
      exact hxx 1 hcx.2
    rw [if_neg fun h => hcx (hx.mp h), if_neg hcx]
    by_cases hcu : startsWithCase text (str "u00") = true ∧ 5 ≤ percentSpan text
    · have hlen := percentCodes_length hcu.2
      rw [if_pos (hu.mpr hcu), if_pos hcu, if_neg (by rw [List.length_cons]; omega)]
      exact hxx 3 hcu.2
    rw [if_neg fun h => hcu (hu.mp h), if_neg hcu]
    by_cases hcf : startsWithCase text (str "uff") = true ∧ 5 ≤ percentSpan text
    · have hlen := percentCodes_length hcf.2
      rw [if_pos (hf.mpr hcf), if_pos hcf, if_neg (by rw [List.length_cons]; omega)]
      exact emitted_pair codeFullWidth_emitted (fun _ _ _ => codeFullWidth_rest) hcf.2
    rw [if_neg fun h => hcf (hf.mp h), if_neg hcf, if_pos h2, if_pos h2]
    exact hxx 0 h2

/-- **The decoder from the end** is the decoder from the front. -/
theorem stringDecoded_percentCode (text : List Byte) :
    stringDecoded text = (percentCodes.decode text, (percentSpan text : Int)) := by
  induction text with
  | nil => rfl
  | cons c text ih =>
    rw [stringDecoded_cons, ih, httpStringDecodeStep]
    split
    next hc =>
      rw [hc, percentSpan_percent]
      refine Prod.ext ?_ rfl
      exact httpStringDecodeBackward_percentCode text
    next hc =>
      rw [percentCodes.decode_other hc]
      split
      next hplus =>
        rw [hplus, percentSpan_plus]
        rfl
      next hplus =>
        have hkeep : percentCodes.other c = c := if_neg hplus
        rw [percentSpan_other hc hplus, hkeep]
        rfl

/-! ## The code and the sequences -/

/-- On hexadecimal digits the code agrees. -/
theorem digit_hexDigit (b : Byte) (h : isxdigit b = true) : httpCharacterToDigit b = hexDigit b :=
  httpCharacterToDigit_hex b h

theorem hex_ne (b : Byte) (h : isxdigit b = true) :
    b ≠ ch '%' ∧ b ≠ ch '+' ∧ b ≠ ch 'x' ∧ b ≠ ch 'X' ∧ tolower b ≠ ch 'u' := by
  have hne : ∀ c : Byte, isxdigit c = false → b ≠ c := by
    rintro c hc rfl
    rw [h] at hc
    cases hc
  exact ⟨hne _ (by decide), hne _ (by decide), hne _ (by decide), hne _ (by decide), (isxdigit_plain h).2.2.2.2.1⟩

/-- Two bytes the code takes for digits though they are none. -/
def looseByte : List Byte → Bool
  | h :: k :: rest => (codeByte (h :: k :: rest)).isSome && !(isxdigit h && isxdigit k)
  | _ => false

theorem codeByte_eq_iff (text : List Byte) : codeByte text = hexByte text ↔ looseByte text = false := by
  rcases text with _ | ⟨h, _ | ⟨k, rest⟩⟩
  · exact ⟨fun _ => rfl, fun _ => rfl⟩
  · exact ⟨fun _ => rfl, fun _ => rfl⟩
  rw [looseByte, hexByte]
  by_cases hhex : isxdigit h = true ∧ isxdigit k = true
  · have hvalue : UInt8.ofInt ((hexDigit h : Int) * 16 + hexDigit k) =
      UInt8.ofNat (hexDigit h * 16 + hexDigit k) := by
      rw [← ofInt_natCast]
      rfl
    rw [codeByte, digit_hexDigit h hhex.1, digit_hexDigit k hhex.2, hvalue]
    simp [hhex]
  · have hno : (isxdigit h && isxdigit k) = false := by
      rw [Bool.and_eq_false_iff, ← Bool.not_eq_true, ← Bool.not_eq_true]
      exact not_and_or.mp hhex
    rw [if_neg fun h => hhex ⟨h.1, h.2.1⟩, hno]
    cases codeByte (h :: k :: rest) <;> simp

/-- Behind `%uff`, two bytes that are no digits, or no number if `00` is none. -/
def looseFullWidth (zero : Bool) : List Byte → Bool
  | h :: k :: _ => !decide (isxdigit h ∧ isxdigit k ∧ (zero ∨ ¬ (hexDigit h = 0 ∧ hexDigit k = 0)))
  | _ => false

theorem codeFullWidth_eq_iff (zero : Bool) (text : List Byte) :
    codeFullWidth text = fullWidthByte zero text ↔ looseFullWidth zero text = false := by
  rcases text with _ | ⟨h, _ | ⟨k, rest⟩⟩
  · exact ⟨fun _ => rfl, fun _ => rfl⟩
  · exact ⟨fun _ => rfl, fun _ => rfl⟩
  rw [looseFullWidth, fullWidthByte, codeFullWidth]
  by_cases hhex : isxdigit h = true ∧ isxdigit k = true ∧ (zero = true ∨ ¬ (hexDigit h = 0 ∧ hexDigit k = 0))
  · have hvalue : UInt8.ofInt (((hexDigit h : Int) + 2) * 16 + hexDigit k) =
        UInt8.ofNat (hexDigit h * 16 + hexDigit k + 32) := by
      rw [← ofInt_natCast]
      congr 1
      omega
    rw [digit_hexDigit h hhex.1, digit_hexDigit k hhex.2.1, hvalue]
    simp [hhex]
  · rw [if_neg hhex, decide_eq_false hhex]
    simp

/-- Behind the `%`, the code decodes something else than a sequence of two digits. -/
def looseBehind (zero : Bool) : List Byte → Bool
  | [] => false
  | a :: text =>
    if a = ch 'x' ∨ a = ch 'X' then looseByte text
    else if startsWithCase (a :: text) (str "u00") then looseByte (text.drop 2)
    else if startsWithCase (a :: text) (str "uff") then
      5 ≤ percentSpan (a :: text) && looseFullWidth zero (text.drop 2)
    else looseByte (a :: text)

/-- The text starts with such a `%`. -/
def loosePercent (zero : Bool) : List Byte → Bool
  | [] => false
  | c :: text => c = ch '%' && looseBehind zero text

/-- The bytes the code takes for digits stand in front of the next `%`. -/
theorem codeByte_span {text : List Byte} {r : Byte × List Byte} (h : codeByte text = some r) :
    2 ≤ percentSpan text := by
  have hdigit : ∀ b, 0 ≤ httpCharacterToDigit b → b ≠ ch '%' ∧ b ≠ ch '+' := by
    intro b hb
    constructor
    · rintro rfl
      exact absurd hb (by decide)
    · rintro rfl
      exact absurd hb (by decide)
  rcases text with _ | ⟨a, _ | ⟨b, rest⟩⟩
  · cases h
  · cases h
  rw [codeByte] at h
  split at h
  next hd =>
    have ha := hdigit a hd.1
    have hb := hdigit b hd.2.1
    rw [percentSpan_other ha.1 ha.2, percentSpan_other hb.1 hb.2]
    omega
  next => cases h

/-- With the letters in front of them. -/
theorem percentSpan_name :
    ∀ (s : List Byte), (∀ c ∈ s, tolower c ≠ ch '%' ∧ tolower c ≠ ch '+') → ∀ text : List Byte,
    startsWithCase text s = true → percentSpan text = s.length + percentSpan (text.drop s.length) := by
  have hmark : tolower (ch '%') = ch '%' ∧ tolower (ch '+') = ch '+' := by decide
  intro s
  induction s with
  | nil => intro _ text _; simp
  | cons c s ih =>
    intro hs text h
    obtain ⟨hc, hs⟩ := List.forall_mem_cons.mp hs
    cases text with
    | nil => cases h
    | cons b text =>
      rw [startsWithCase, Bool.and_eq_true, decide_eq_true_eq] at h
      have hb : b ≠ ch '%' ∧ b ≠ ch '+' := by
        constructor
        · rintro rfl
          exact hc.1 (by rw [← h.1, hmark.1])
        · rintro rfl
          exact hc.2 (by rw [← h.1, hmark.2])
      rw [percentSpan_other hb.1 hb.2, ih hs text h.2, List.length_cons, List.drop_succ_cons]
      omega

theorem fullWidthByte_span {zero : Bool} {text : List Byte} {r : Byte × List Byte}
    (h : fullWidthByte zero text = some r) : 2 ≤ percentSpan text := by
  rcases text with _ | ⟨a, _ | ⟨b, rest⟩⟩
  · cases h
  · cases h
  rw [fullWidthByte] at h
  split at h
  next hhex =>
    have ha := hex_ne a hhex.1
    have hb := hex_ne b hhex.2.1
    rw [percentSpan_other ha.1 ha.2.1, percentSpan_other hb.1 hb.2.1]
    omega
  next => cases h

theorem codeByte_letter {a : Byte} (ha : httpCharacterToDigit a < 0) (text : List Byte) :
    codeByte (a :: text) = none := by
  cases text with
  | nil => rfl
  | cons b text => exact if_neg fun h => absurd h.1 (Int.not_le.mpr ha)

theorem eq_none_of_span {α : Type} {r : Option α} {n : Nat} (h : ∀ x, r = some x → 2 ≤ n) (hn : n < 2) :
    r = none := by
  cases hr : r with
  | none => rfl
  | some x => exact absurd (h x hr) (Nat.not_le.mpr hn)

/-- What the code decodes, by what stands behind the `%`. -/
theorem percentCode_cons (a : Byte) (text : List Byte) :
    percentCode (a :: text) =
      if a = ch 'x' ∨ a = ch 'X' then codeByte text
      else if startsWithCase (a :: text) (str "u00") then codeByte (text.drop 2)
      else if startsWithCase (a :: text) (str "uff") then
        if 5 ≤ percentSpan (a :: text) then codeFullWidth (text.drop 2) else none
      else codeByte (a :: text) := by
  have hstart : ∀ s : List Byte, startsWithCase (a :: text) (ch 'u' :: s) = true → tolower a = ch 'u' := by
    intro s h
    rw [startsWithCase, Bool.and_eq_true, decide_eq_true_eq] at h
    exact h.1
  have hsecond : ∀ c s, startsWithCase (a :: text) (ch 'u' :: c :: s) = true →
      text.head?.map tolower = some (tolower c) := by
    intro c s h
    rw [startsWithCase, Bool.and_eq_true] at h
    cases text with
    | nil => cases h.2
    | cons b text =>
      have hb := h.2
      rw [startsWithCase, Bool.and_eq_true, decide_eq_true_eq] at hb
      exact congrArg some hb.1
  have hdigits : 2 ≤ percentSpan (a :: text) ∨ codeByte (a :: text) = none := by
    rcases Nat.lt_or_ge (percentSpan (a :: text)) 2 with hlt | hge
    · exact Or.inr (eq_none_of_span (fun _ => codeByte_span) hlt)
    · exact Or.inl hge
  have hlast : (if 2 ≤ percentSpan (a :: text) then codeByte (a :: text) else none) = codeByte (a :: text) := by
    rcases hdigits with h2 | hnone
    · rw [if_pos h2]
    · rw [hnone, ite_self]
  unfold percentCode
  rw [hlast]
  simp only [List.head?_cons, Option.some.injEq, List.drop_succ_cons, List.drop_zero]
  by_cases hx : a = ch 'x' ∨ a = ch 'X'
  · have hlower : tolower a = ch 'x' := by rcases hx with rfl | rfl <;> decide
    have hno : ∀ s, ¬ startsWithCase (a :: text) (ch 'u' :: s) = true := by
      intro s h
      rw [hstart s h] at hlower
      exact absurd hlower (by decide)
    have hspan : percentSpan (a :: text) = percentSpan text + 1 := by
      apply percentSpan_other <;> (rintro rfl; exact absurd hx (by decide))
    rw [if_pos hx]
    rcases Nat.lt_or_ge (percentSpan text) 2 with hlt | hge
    · rw [if_neg (by omega), if_neg fun h => hno _ h.1, if_neg fun h => hno _ h.1,
        codeByte_letter (httpCharacterToDigit_letter a (Or.inl hlower)),
        eq_none_of_span (fun _ => codeByte_span) hlt]
    · rw [if_pos ⟨hx, by omega⟩]
  rw [if_neg fun h => hx h.1, if_neg hx]
  by_cases hu : startsWithCase (a :: text) (str "u00") = true
  · have hspan := percentSpan_name (str "u00") (forall_text (by decide)) (a :: text) hu
    have hdrop : (a :: text).drop (str "u00").length = text.drop 2 := rfl
    have hlen : (str "u00").length = 3 := rfl
    have hff : ¬ startsWithCase (a :: text) (str "uff") = true := by
      intro hf
      have hzero := hsecond _ _ hu
      rw [hsecond _ _ hf] at hzero
      exact absurd (Option.some.inj hzero) (by decide)
    rw [hdrop, hlen] at hspan
    rw [if_pos hu]
    rcases Nat.lt_or_ge (percentSpan (text.drop 2)) 2 with hlt | hge
    · rw [if_neg (by omega), if_neg fun h => hff h.1,
        codeByte_letter (httpCharacterToDigit_letter a (Or.inr (hstart _ hu))),
        eq_none_of_span (fun _ => codeByte_span) hlt]
    · rw [if_pos ⟨hu, by omega⟩]
  rw [if_neg fun h => hu h.1, if_neg hu]
  by_cases hf : startsWithCase (a :: text) (str "uff") = true
  · rw [if_pos hf, codeByte_letter (httpCharacterToDigit_letter a (Or.inr (hstart _ hf)))]
    simp only [hf, true_and]
  · rw [if_neg fun h => hf h.1, if_neg hf]

/-- **Behind a `%`**, the code finds the sequence that stands there, or none, but for the loose ones. -/
theorem percentCode_eq_iff (zero : Bool) (text : List Byte) :
    percentCode text = percentSequence zero text ↔ looseBehind zero text = false := by
  cases text with
  | nil => exact ⟨fun _ => rfl, fun _ => rfl⟩
  | cons a text =>
    rw [percentCode_cons, percentSequence, looseBehind]
    split
    · exact codeByte_eq_iff text
    · split
      · exact codeByte_eq_iff _
      · split
        next hf =>
          have hspan := percentSpan_name (str "uff") (forall_text (by decide)) (a :: text) hf
          have hdrop : (a :: text).drop (str "uff").length = text.drop 2 := rfl
          have hlen : (str "uff").length = 3 := rfl
          rw [hdrop, hlen] at hspan
          by_cases h5 : 5 ≤ percentSpan (a :: text)
          · rw [if_pos h5, codeFullWidth_eq_iff, decide_eq_true h5, Bool.true_and]
          · rw [if_neg h5, decide_eq_false h5, Bool.false_and,
              eq_none_of_span (fun _ => fullWidthByte_span) (show percentSpan (text.drop 2) < 2 by omega)]
            exact ⟨fun _ => rfl, fun _ => rfl⟩
        next => exact codeByte_eq_iff _

/-! ## Whole texts -/

theorem hexByte_code {text : List Byte} {r : Byte × List Byte} (h : hexByte text = some r) :
    codeByte text = some r := by
  rcases text with _ | ⟨a, _ | ⟨b, rest⟩⟩
  · cases h
  · cases h
  rw [← h]
  apply (codeByte_eq_iff _).mpr
  rw [hexByte] at h
  split at h
  next hhex => simp [looseByte, hhex]
  next => cases h

theorem fullWidthByte_code {zero : Bool} {text : List Byte} {r : Byte × List Byte}
    (h : fullWidthByte zero text = some r) : codeFullWidth text = some r := by
  rcases text with _ | ⟨a, _ | ⟨b, rest⟩⟩
  · cases h
  · cases h
  rw [← h]
  apply (codeFullWidth_eq_iff zero _).mpr
  rw [fullWidthByte] at h
  split at h
  next hhex =>
    rw [looseFullWidth, decide_eq_true hhex]
    rfl
  next => cases h

/-- Every sequence is one the code decodes. -/
theorem percentSequence_code {zero : Bool} {text : List Byte} {r : Byte × List Byte}
    (h : percentSequence zero text = some r) : percentCode text = some r := by
  cases text with
  | nil => cases h
  | cons a text =>
    rw [percentSequence] at h
    rw [percentCode_cons]
    split at h
    next hx =>
      rw [if_pos hx]
      exact hexByte_code h
    next hx =>
      rw [if_neg hx]
      split at h
      next hu =>
        rw [if_pos hu]
        exact hexByte_code h
      next hu =>
        rw [if_neg hu]
        split at h
        next hf =>
          have hspan := percentSpan_name (str "uff") (forall_text (by decide)) (a :: text) hf
          have hdrop : (a :: text).drop (str "uff").length = text.drop 2 := rfl
          have hlen : (str "uff").length = 3 := rfl
          have hdigits := fullWidthByte_span h
          rw [hdrop, hlen] at hspan
          rw [if_pos hf, if_pos (by omega)]
          exact fullWidthByte_code h
        next hf =>
          rw [if_neg hf]
          exact hexByte_code h

theorem percentSequence_consumed (zero : Bool) (text : List Byte) (b : Byte) (rest : List Byte)
    (h : percentSequence zero text = some (b, rest)) : Consumed (ch '%') text rest :=
  percentCode_consumed text b rest (percentSequence_code h)

/-- The decoder of the sequences. -/
def percents (zero : Bool) : Decoder Byte where
  mark := ch '%'
  other := plusToSpace
  escape := percentSequence zero
  consumed := percentSequence_consumed zero

/-- The text with every sequence replaced, and a space for every `+`. -/
def percentDecoded (zero : Bool) (text : List Byte) : List Byte := (percents zero).decode text

example : percentDecoded true (str "%41+%x42%u0043%uff41%4%31") = str "A BCa%41" := by decide

theorem percentCode_shorter {text rest : List Byte} {b : Byte} (h : percentCode text = some (b, rest)) :
    rest.length < text.length := by
  cases text with
  | nil => cases h
  | cons a text =>
    have hdrop : ∀ (k : Nat) (l : List Byte), (l.drop k).length ≤ l.length := fun k l =>
      (List.drop_suffix k l).length_le
    rw [percentCode_cons] at h
    rw [List.length_cons]
    apply Nat.lt_succ_of_le
    split at h
    · rw [codeByte_rest h]
      exact hdrop 2 text
    · split at h
      · rw [codeByte_rest h, List.drop_drop]
        exact hdrop 4 text
      · split at h
        · split at h
          · rw [codeFullWidth_rest h, List.drop_drop]
            exact hdrop 4 text
          · cases h
        · rw [codeByte_rest h]
          exact hdrop 1 text

theorem percentCodes_greedier (zero : Bool) : Greedier percentCodes (percents zero) where
  mark := rfl
  other := rfl
  nothing := by
    intro text h
    cases hr : percentSequence zero text with
    | none => exact hr
    | some r =>
      have hcode : percentCodes.escape text = some r := percentSequence_code hr
      rw [h] at hcode
      cases hcode
  behind := by
    intro text b rest b' rest' h h'
    have hcode : percentCodes.escape text = some (b', rest') := percentSequence_code h'
    cases h.symm.trans hcode
    exact Consumed.refl _ _
  more := fun text b rest h _ => percentCode_shorter h

theorem alike_iff_loose (zero : Bool) (text : List Byte) :
    Alike percentCodes (percents zero) text ↔ occurs (loosePercent zero) text = false := by
  induction text with
  | nil => exact ⟨fun _ => rfl, fun _ => trivial⟩
  | cons c text ih =>
    rw [Alike, ih, occurs, Bool.or_eq_false_iff]
    have hmark := percentCode_eq_iff zero text
    show (c = ch '%' → percentCode text = percentSequence zero text) ∧ _ ↔ _
    rw [hmark]
    simp [loosePercent]

/-- **One pass is exact** when no `%` is followed by a loose sequence. -/
theorem httpStringDecode_eq_iff (zero : Bool) (text : List Byte) :
    httpStringDecode text false = percentDecoded zero text ↔ occurs (loosePercent zero) text = false := by
  have hcode : httpStringDecode text false = percentCodes.decode text :=
    congrArg Prod.fst (stringDecoded_percentCode text)
  rw [hcode, ← alike_iff_loose]
  exact (percentCodes_greedier zero).decode_eq_iff text

end WafProxy
