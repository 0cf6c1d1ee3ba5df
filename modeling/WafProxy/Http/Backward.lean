import WafProxy.Http.EntityText
import WafProxy.Http.PercentText

/-
  The percent decoder in its buffer — http_decode.c

  `_http_string_decode` reads its input from the last byte to the first and appends
  to `out_string`; at a `%` it decodes the end of what it has written so far, and
  `_http_reverse_string` turns the result around. A list stands in the buffer from
  its end: its first byte is `out_string[out_len - 1]`.

  What is proved:
    1. `ends_httpStringDecodeBackward`, `ends_httpStringDecode` — the buffer holds what
       the list decoder emits; `out_len` is never negative and never more than the bytes
       read so far; and the comparisons reach in front of the buffer only at a `%` with
       two bytes behind it.
    2. `httpStringDecodeOnce_iff` — a pass leaves the text with every sequence replaced
       exactly when no loose sequence stands in it.

  Correspondence (C ↔ Lean):
    `_http_percent_xx_decode_backward`, …   ↔ `percentXxDecodeBackward`, …
    `*string_len`, `*out_len`               ↔ passed on, and logged with `Prog.value`
    `_http_string_decode`                   ↔ `httpStringDecodeInto`
    `_http_reverse_string`                  ↔ `httpReverseString`
-/

namespace WafProxy
open Lib

variable {ν : Type}

/-! ## The model -/

section
variable [DecidableEq ν]

/-- `_http_percent_xx_decode_backward`: `decode_len`. -/
def percentXxDecodeBackward (string : ν) (stringLen : Int) : Prog ν Byte Int :=
  if 1 < stringLen then do
    let a ← Prog.read string (stringLen - 1)
    let b ← Prog.read string (stringLen - 2)
    if 0 ≤ httpCharacterToDigit a ∧ 0 ≤ httpCharacterToDigit b then
      if httpCharacterToDigit a = 0 ∧ httpCharacterToDigit b = 0 then pure 0
      else do
        Prog.write string (stringLen - 2) (UInt8.ofInt (httpCharacterToDigit a * 16 + httpCharacterToDigit b))
        pure 1
    else pure 0
  else pure 0

/-- `_http_percent_FFxx_decode_backward`. -/
def percentFFxxDecodeBackward (string : ν) (stringLen : Int) : Prog ν Byte Int :=
  if 1 < stringLen then do
    let a ← Prog.read string (stringLen - 1)
    let b ← Prog.read string (stringLen - 2)
    Prog.write string (stringLen - 2) (UInt8.ofInt ((httpCharacterToDigit a + 2) * 16 + httpCharacterToDigit b))
    pure 1
  else pure 0

/-- `*string_len >= n && !strncasecmp(s, &string[*string_len - n], n)`. -/
def standsAtEnd (string : ν) (stringLen : Int) (s : List Byte) : Prog ν Byte Bool :=
  if (s.length : Int) ≤ stringLen then strncasecmpAt string (stringLen - s.length) s else pure false

/-- The comparisons of `_http_percent_combine`: `combine_len`. -/
def percentCombineWith (string : ν) (stringLen : Int) : List String → Prog ν Byte Int
  | [] => pure 0
  | s :: names => do
    let found ← standsAtEnd string stringLen (str s)
    if found then do
      Prog.write string (stringLen - (str s).length) (ch '%')
      pure ((str s).length - 1)
    else percentCombineWith string stringLen names

/-- Encoded percent signs, from their end. -/
def encodedPercents : List String := ["5200u%", "52x%", "52%"]

/-- `_http_percent_combine`: `combine_len` and `*string_len`. -/
def percentCombine (string : ν) (stringLen : Int) : Prog ν Byte (Int × Int) := do
  let combineLen ← percentCombineWith string stringLen encodedPercents
  Prog.value (stringLen - combineLen)
  pure (if 0 ≤ stringLen - combineLen then combineLen else 0, stringLen - combineLen)

/-- `while(combine_len >0)`: `*string_len`. -/
def percentCombineAll (string : ν) : Nat → Int → Prog ν Byte Int
  | 0, _ => Prog.stuck
  | n + 1, stringLen => do
    let r ← percentCombine string stringLen
    if 0 < r.1 then percentCombineAll string n r.2 else pure r.2

/-- Step 1 of `_http_string_decode_type_backward`: `*string_len`. -/
def percentCombineStep (string : ν) (stringLen tmpLen : Int) : Prog ν Byte Int :=
  if tmpLen = -1 then percentCombineAll string (stringLen.toNat + 1) stringLen else pure stringLen

/-- Steps 3 and 4. What the digits are does not matter. -/
def percentTypeByName (string : ν) (stringLen tmpLen : Int) : Prog ν Byte (Option PercentType) := do
  let u00 ← strncasecmpAt string (stringLen - 4) (str "00u%")
  if u00 ∧ (5 ≤ tmpLen ∨ tmpLen = -1) then
    if stringLen ≤ 5 then pure (some .noPercent)
    else do
      let _digit1 ← Prog.read string (stringLen - 5)
      let _digit2 ← Prog.read string (stringLen - 6)
      pure (some .u00xx)
  else do
    let uff ← strncasecmpAt string (stringLen - 4) (str "ffu%")
    if uff ∧ (5 ≤ tmpLen ∨ tmpLen = -1) then
      pure (if stringLen ≤ 5 then some .noPercent else some .uffxx)
    else do
      let _digit1 ← Prog.read string (stringLen - 2)
      let _digit2 ← Prog.read string (stringLen - 3)
      pure (if 2 ≤ tmpLen ∨ tmpLen = -1 then some .xx else none)

/-- Steps 2 to 4. -/
def percentTypeBackward (string : ν) (stringLen tmpLen : Int) : Prog ν Byte (Option PercentType) :=
  if stringLen ≤ 2 then pure (some .noPercent)
  else do
    let x ← Prog.read string (stringLen - 2)
    if (x = ch 'x' ∨ x = ch 'X') ∧ (3 ≤ tmpLen ∨ tmpLen = -1) then
      if stringLen ≤ 3 then pure (some .noPercent)
      else do
        let _digit1 ← Prog.read string (stringLen - 3)
        let _digit2 ← Prog.read string (stringLen - 4)
        pure (some .xyy)
    else percentTypeByName string stringLen tmpLen

/-- `_http_string_decode_type_backward`: the type and `*string_len`. -/
def stringDecodeTypeBackward (string : ν) (stringLen tmpLen : Int) : Prog ν Byte (Option PercentType × Int) := do
  let stringLen ← percentCombineStep string stringLen tmpLen
  let stringType ← percentTypeBackward string stringLen tmpLen
  pure (stringType, stringLen)

/-- A case of the `switch`: `*out_len` goes back by `k`, and forth again if nothing is decoded. -/
def decodeBehind (outString : ν) (outLen k : Int) (decode : ν → Int → Prog ν Byte Int) : Prog ν Byte Int := do
  Prog.value (outLen - k)
  let decodeLen ← decode outString (outLen - k)
  let outLen := if decodeLen ≠ 0 then outLen - k - decodeLen else outLen
  Prog.value outLen
  pure outLen

/-- `_http_string_decode_backward`: `*out_len`. -/
def stringDecodeBackward (outString : ν) (outLen tmpLen : Int) : Prog ν Byte Int := do
  match ← stringDecodeTypeBackward outString outLen tmpLen with
  | (some .xx, outLen) => decodeBehind outString outLen 1 percentXxDecodeBackward
  | (some .u00xx, outLen) => decodeBehind outString outLen 4 percentXxDecodeBackward
  | (some .uffxx, outLen) => decodeBehind outString outLen 4 percentFFxxDecodeBackward
  | (some .xyy, outLen) => decodeBehind outString outLen 2 percentXxDecodeBackward
  | (_, outLen) => pure outLen

/-- `out_string[out_len] = b; out_len++`. -/
def putByte (outString : ν) (outLen : Int) (b : Byte) : Prog ν Byte Int := do
  Prog.write outString outLen b
  Prog.value (outLen + 1)
  pure (outLen + 1)

/-- One turn of the loop of `_http_string_decode`: `out_len` and `tmp_len`, or the return -1. -/
def stringDecodeChar (outString : ν) (cic : Bool) (tmpChar : Byte) (outLen tmpLen : Int) :
    Prog ν Byte (Option (Int × Int)) :=
  if tmpChar = ch '%' then do
    let outLen ← putByte outString outLen tmpChar
    let outLen ← stringDecodeBackward outString outLen (if cic then -1 else tmpLen)
    pure (if outLen < 0 then none else some (outLen, if cic then tmpLen else 0))
  else if tmpChar = ch '+' then do
    let outLen ← putByte outString outLen (ch ' ')
    pure (some (outLen, tmpLen))
  else do
    let outLen ← putByte outString outLen tmpChar
    pure (some (outLen, if cic then tmpLen else tmpLen + 1))

/-- The loop, from `i` bytes in front of what was read. -/
def stringDecodeFrom (outString inString : ν) (cic : Bool) : Nat → Int → Int → Prog ν Byte Int
  | 0, outLen, _ => pure outLen
  | i + 1, outLen, tmpLen => do
    let tmpChar ← Prog.read inString i
    match ← stringDecodeChar outString cic tmpChar outLen tmpLen with
    | some (outLen, tmpLen) => stringDecodeFrom outString inString cic i outLen tmpLen
    | none => pure (-1)

/-- `_http_string_decode`; `cic` is `CIC_DECODE`. -/
def httpStringDecodeInto (outString inString : ν) (inStringLen : Int) (cic : Bool) : Prog ν Byte Int :=
  if inStringLen ≤ 0 then pure 0 else stringDecodeFrom outString inString cic inStringLen.toNat 0 0

/-- Bytes `i` to `n - 1` change places with those at the other end. -/
def reverseFrom (string : ν) (stringLen : Int) : Nat → Int → Prog ν Byte Unit
  | 0, _ => pure ()
  | n + 1, i => do
    let chTmp ← Prog.read string i
    let b ← Prog.read string (stringLen - i - 1)
    Prog.write string i b
    Prog.write string (stringLen - i - 1) chTmp
    reverseFrom string stringLen n (i + 1)

/-- `_http_reverse_string`. -/
def httpReverseString (string : ν) (stringLen : Int) : Prog ν Byte Unit :=
  if stringLen ≤ 0 then pure () else reverseFrom string stringLen (stringLen / 2).toNat 0

end

/-! ## A list from its end -/

/-- The list stands in the array, its first element last. -/
def Holds (c : Cells ν Byte) (out : ν) (l : List Byte) : Prop := c.At out 0 l.reverse

section
variable {out : ν} {c : Cells ν Byte} {l s : List Byte} {b : Byte}

theorem Holds.cell (h : Holds c out l) {i : Nat} (hi : i < l.length) {p : Int} (hp : p = l.length - 1 - i) :
    l[i]? = some (c out p) := by
  have hget := Cells.At.getElem? h (k := l.length - 1 - i) (by rw [List.length_reverse]; omega)
  rw [List.getElem?_reverse (by omega)] at hget
  have hback : l.length - 1 - (l.length - 1 - i) = i := by omega
  have hcell : 0 + ((l.length - 1 - i : Nat) : Int) = p := by omega
  rw [hback, hcell] at hget
  exact hget

/-- The first `k` elements. -/
theorem Holds.window (h : Holds c out l) {k : Nat} (hk : k ≤ l.length) :
    c.At out (l.length - k : Int) (l.take k).reverse := by
  have hsplit : l.reverse = (l.drop k).reverse ++ (l.take k).reverse := by
    rw [← List.reverse_append, List.take_append_drop]
  unfold Holds at h
  rw [hsplit, Cells.at_append] at h
  have hstart : 0 + (((l.drop k).reverse).length : Int) = l.length - k := by
    rw [List.length_reverse, List.length_drop]
    omega
  rw [hstart] at h
  exact h.2

theorem Holds.suffix (h : Holds c out (l ++ s)) : Holds c out s := by
  unfold Holds at h
  rw [List.reverse_append, Cells.at_append] at h
  exact h.1

/-- Another element in front. -/
theorem Holds.push [DecidableEq ν] (h : Holds c out l) {p : Int} (hp : p = l.length) :
    Holds (c.set out p b) out (b :: l) := by
  unfold Holds
  rw [List.reverse_cons]
  exact Cells.At.push h (by rw [List.length_reverse]; omega)

end

/-! ## Comparing a window -/

theorem startsWithCase_take : ∀ (s l : List Byte), s.length ≤ l.length →
    startsWithCase l s = decide ((l.take s.length).map tolower = s.map tolower) := by
  intro s
  induction s with
  | nil => intro l _; cases l <;> rfl
  | cons c s ih =>
    intro l hlen
    cases l with
    | nil => exact absurd hlen (Nat.not_succ_le_zero _)
    | cons b l =>
      rw [startsWithCase, ih l (Nat.le_of_succ_le_succ hlen), ← Bool.decide_and]
      simp

theorem startsWithCase_short : ∀ (s l : List Byte), l.length < s.length → startsWithCase l s = false := by
  intro s
  induction s with
  | nil => intro l h; exact absurd h (Nat.not_lt_zero _)
  | cons c s ih =>
    intro l hlen
    cases l with
    | nil => rfl
    | cons b l => rw [startsWithCase, ih l (Nat.lt_of_succ_lt_succ hlen), Bool.and_false]

/-- The comparison of as many cells as the name has. -/
theorem ends_strncasecmp_window {a : ν} {c : Cells ν Byte} : ∀ (s w : List Byte) (p : Int), w.length = s.length →
    c.At a p w →
    Prog.Ends (strncasecmpAt a p s) c fun r c' log =>
      r = decide (w.map tolower = s.map tolower) ∧ c' = c ∧ Prog.LogIn a p (p + w.length) log ∧
        (s ≠ [] → .read a p ∈ log) := by
  intro s
  induction s with
  | nil =>
    intro w p hlen _
    obtain rfl := List.eq_nil_of_length_eq_zero hlen
    exact Prog.ends_pure.mpr ⟨by simp, rfl, Prog.LogIn.nil, fun h => absurd rfl h⟩
  | cons e s ih =>
    intro w p hlen hat
    cases w with
    | nil => cases hlen
    | cons b w =>
      obtain ⟨hb, hat⟩ := Cells.at_cons.mp hat
      have hend : p + 1 + (w.length : Int) = p + ((b :: w).length : Int) := by
        rw [List.length_cons]
        omega
      have hpos : p < p + ((b :: w).length : Int) := by
        rw [List.length_cons]
        omega
      rw [strncasecmpAt]
      simp only [Prog.ends_bind, Prog.ends_read, hb]
      by_cases heq : tolower b = tolower e
      · rw [if_pos heq]
        refine (ih w (p + 1) (Nat.succ.inj hlen) hat).mono ?_
        rintro r c' log ⟨rfl, rfl, hlog, -⟩
        rw [hend] at hlog
        refine ⟨?_, rfl, (hlog.mono (by omega) (Int.le_refl _)).read ⟨Int.le_refl p, hpos⟩, fun _ =>
          List.mem_cons_self⟩
        simp [heq]
      · rw [if_neg heq]
        refine Prog.ends_pure.mpr ⟨?_, rfl, Prog.LogIn.nil.read ⟨Int.le_refl p, hpos⟩, fun _ => List.mem_cons_self⟩
        simp [heq]

/-- The name, compared with the end of the buffer. -/
theorem ends_compareEnd {out : ν} {c : Cells ν Byte} {l : List Byte} (h : Holds c out l) (s : List Byte)
    (hs : s.length ≤ l.length) :
    Prog.Ends (strncasecmpAt out (l.length - s.length) s) c fun r c' log =>
      r = startsWithCase l s.reverse ∧ c' = c ∧ Prog.LogIn out 0 l.length log := by
  have htake : ((l.take s.length).reverse).length = s.length := by
    rw [List.length_reverse, List.length_take]
    omega
  refine (ends_strncasecmp_window s _ _ htake (h.window hs)).mono ?_
  rintro r c' log ⟨rfl, rfl, hlog, -⟩
  refine ⟨?_, rfl, hlog.mono (by omega) (by rw [htake]; omega)⟩
  rw [startsWithCase_take s.reverse l (by rw [List.length_reverse]; exact hs), List.length_reverse]
  refine decide_eq_decide.mpr ?_
  rw [List.map_reverse, List.map_reverse]
  exact List.reverse_eq_iff

theorem ends_standsAtEnd {out : ν} {c : Cells ν Byte} {l : List Byte} (h : Holds c out l) (s : List Byte) :
    Prog.Ends (standsAtEnd out l.length s) c fun r c' log =>
      r = startsWithCase l s.reverse ∧ c' = c ∧ Prog.LogIn out 0 l.length log := by
  unfold standsAtEnd
  rcases Nat.lt_or_ge l.length s.length with hlt | hge
  · rw [if_neg (by omega), startsWithCase_short _ _ (by rw [List.length_reverse]; exact hlt)]
    exact Prog.ends_pure.mpr ⟨rfl, rfl, Prog.LogIn.nil⟩
  · rw [if_pos (by omega)]
    exact ends_compareEnd h s hge

/-- What the two comparisons tell, with enough bytes and with one too few. -/
theorem ends_compareFour {out : ν} {c : Cells ν Byte} {l : List Byte} (h : Holds c out l) (h3 : 3 ≤ l.length)
    (s : List Byte) (hs : s.length = 4) :
    Prog.Ends (strncasecmpAt out (l.length - 4) s) c fun r c' log =>
      c' = c ∧ Prog.LogIn out (if l.length = 3 then -1 else 0) l.length log ∧
        (4 ≤ l.length → r = startsWithCase l s.reverse) ∧
        (l.length = 3 → .read out (-1) ∈ log ∧ (r = true → startsWithCase l (s.tail.reverse))) := by
  rcases Nat.lt_or_ge l.length 4 with hlt | hge
  · have hlen : l.length = 3 := by omega
    have hstart : (l.length : Int) - 4 = -1 := by omega
    have hwindow : c.At out (-1) (c out (-1) :: l.reverse) := ⟨rfl, h⟩
    have hsize : (c out (-1) :: l.reverse).length = s.length := by
      rw [List.length_cons, List.length_reverse]
      omega
    rw [hstart]
    refine (ends_strncasecmp_window s _ _ hsize hwindow).mono ?_
    rintro r c' log ⟨rfl, rfl, hlog, hread⟩
    refine ⟨rfl, ?_, fun hge => absurd hlt (by omega), fun _ => ⟨hread ?_, fun heq => ?_⟩⟩
    · rw [if_pos hlen]
      exact hlog.mono (Int.le_refl _) (by rw [hsize]; omega)
    · rintro rfl
      cases hs
    · cases s with
      | nil => cases hs
      | cons e s =>
        have heq := (List.cons.inj (of_decide_eq_true heq)).2
        have hfull : s.reverse.length = 3 := by
          rw [List.length_reverse]
          exact Nat.succ.inj hs
        rw [List.tail_cons, startsWithCase_take _ _ (by omega), hfull, ← hlen, List.take_length]
        rw [List.map_reverse] at heq
        rw [List.map_reverse, ← heq, List.reverse_reverse]
        exact decide_eq_true rfl
  · have hpos : (l.length : Int) - 4 = l.length - s.length := by omega
    rw [hpos]
    refine (ends_compareEnd h s (by omega)).mono ?_
    rintro r c' log ⟨rfl, rfl, hlog⟩
    rw [if_neg (by omega)]
    exact ⟨rfl, hlog, fun _ => rfl, fun hlen => absurd hge (by omega)⟩


/-! ## Two digits -/

section
variable {out : ν} {c : Cells ν Byte}

/-- What a decoder of two digits leaves of the list. -/
def DecodedPair (out : ν) (l : List Byte) (r : Option (List Byte)) (c : Cells ν Byte) (d : Int) (c' : Cells ν Byte)
    (log : List (Event ν)) : Prop :=
  (match r with
    | some l' => d = 1 ∧ l'.length + 1 = l.length ∧ Holds c' out l'
    | none => d = 0 ∧ c' = c) ∧
  Cells.Within out 0 l.length c c' ∧ Prog.LogIn out 0 l.length log

/-- What a step at the end of the list leaves. -/
def Rewritten (out : ν) (l l' : List Byte) (c : Cells ν Byte) (r : Int) (c' : Cells ν Byte) : Prop :=
  r = l'.length ∧ Holds c' out l' ∧ Cells.Within out 0 l.length c c'

/-- A case of the `switch`. -/
theorem ends_decodeBehind {l : List Byte} (h : Holds c out l) {k : Nat} (hk : k ≤ l.length)
    {decode : ν → Int → Prog ν Byte Int} {decoded : List Byte → Option (List Byte)}
    (hdecode : Prog.Ends (decode out (l.drop k).length) c (DecodedPair out (l.drop k) (decoded (l.drop k)) c)) :
    Prog.Ends (decodeBehind out l.length k decode) c fun r c' log =>
      Rewritten out l ((decoded (l.drop k)).getD l) c r c' ∧ Prog.LogIn out 0 l.length log := by
  have hdrop : ((l.drop k).length : Int) = l.length - k := by
    rw [List.length_drop]
    omega
  unfold decodeBehind
  rw [hdrop] at hdecode
  simp only [Prog.ends_bind, Prog.ends_value]
  refine hdecode.mono ?_
  rintro d c' log ⟨hr, hwithin, hlog⟩
  rw [hdrop] at hwithin hlog
  have hwithin : Cells.Within out 0 l.length c c' := hwithin.mono (Int.le_refl 0) (by omega)
  have hlog : Prog.LogIn out 0 l.length log := hlog.mono (Int.le_refl 0) (by omega)
  simp only [Prog.ends_pure]
  cases hd : decoded (l.drop k) with
  | none =>
    rw [hd] at hr
    obtain ⟨rfl, rfl⟩ := hr
    refine ⟨⟨rfl, h, hwithin⟩, ?_⟩
    exact (Prog.LogIn.nil.value (by omega)).append (hlog.append (Prog.LogIn.nil.value (by simp)))
  | some l' =>
    rw [hd] at hr
    obtain ⟨rfl, hlen, hholds⟩ := hr
    have hout : (l.length : Int) - k - 1 = l'.length := by omega
    rw [if_pos (by decide), hout]
    refine ⟨⟨rfl, hholds, hwithin⟩, ?_⟩
    exact (Prog.LogIn.nil.value (by omega)).append (hlog.append (Prog.LogIn.nil.value (by omega)))

variable [DecidableEq ν]

/-- The two digits, and the byte that takes their place. -/
theorem Holds.pair {a b : Byte} {l : List Byte} (h : Holds c out (a :: b :: l)) :
    c out ((a :: b :: l).length - 1) = a ∧ c out ((a :: b :: l).length - 2) = b ∧
      ∀ e, Holds (c.set out ((a :: b :: l).length - 2) e) out (e :: l) := by
  have ha := h.cell (i := 0) (by simp) (p := (a :: b :: l).length - 1) (by omega)
  have hb := h.cell (i := 1) (by simp) (p := (a :: b :: l).length - 2) (by omega)
  refine ⟨(Option.some.inj ha).symm, (Option.some.inj hb).symm, fun e => ?_⟩
  have hl : Holds c out l := Holds.suffix (l := [a, b]) h
  exact hl.push (by simp only [List.length_cons]; omega)

theorem ends_percentXxDecodeBackward {l : List Byte} (h : Holds c out l) :
    Prog.Ends (percentXxDecodeBackward out l.length) c (DecodedPair out l (httpPercentXxDecodeBackward l) c) := by
  unfold percentXxDecodeBackward
  rcases l with _ | ⟨a, _ | ⟨b, l⟩⟩
  · exact Prog.ends_pure.mpr ⟨⟨rfl, rfl⟩, Cells.Within.refl _ _ _ _, Prog.LogIn.nil⟩
  · exact Prog.ends_pure.mpr ⟨⟨rfl, rfl⟩, Cells.Within.refl _ _ _ _, Prog.LogIn.nil⟩
  obtain ⟨ha, hb, hset⟩ := h.pair
  have hlen : ((a :: b :: l).length : Int) = l.length + 2 := by
    simp only [List.length_cons]
    omega
  have hread : Prog.LogIn out 0 ((a :: b :: l).length : Int)
      [.read out ((a :: b :: l).length - 1), .read out ((a :: b :: l).length - 2)] :=
    (Prog.LogIn.nil.read (by omega)).read (by omega)
  rw [if_pos (by omega)]
  simp only [Prog.ends_bind, Prog.ends_read, ha, hb]
  rw [httpPercentXxDecodeBackward]
  by_cases hdigits : 0 ≤ httpCharacterToDigit a ∧ 0 ≤ httpCharacterToDigit b
  · rw [if_pos hdigits]
    by_cases hzero : httpCharacterToDigit a = 0 ∧ httpCharacterToDigit b = 0
    · rw [if_pos hzero, if_neg fun hand => hand.2.2 hzero]
      exact Prog.ends_pure.mpr ⟨⟨rfl, rfl⟩, Cells.Within.refl _ _ _ _, hread⟩
    · rw [if_neg hzero, if_pos ⟨hdigits.1, hdigits.2, hzero⟩]
      simp only [Prog.ends_bind, Prog.ends_write, Prog.ends_pure]
      refine ⟨⟨rfl, rfl, hset _⟩, (Cells.Within.refl _ _ _ _).set (by omega) (by omega), ?_⟩
      exact hread.append (Prog.LogIn.nil.write (by omega))
  · rw [if_neg hdigits, if_neg fun hand => hdigits ⟨hand.1, hand.2.1⟩]
    exact Prog.ends_pure.mpr ⟨⟨rfl, rfl⟩, Cells.Within.refl _ _ _ _, hread⟩

theorem ends_percentFFxxDecodeBackward {l : List Byte} (h : Holds c out l) :
    Prog.Ends (percentFFxxDecodeBackward out l.length) c
      (DecodedPair out l (httpPercentFFxxDecodeBackward l) c) := by
  unfold percentFFxxDecodeBackward
  rcases l with _ | ⟨a, _ | ⟨b, l⟩⟩
  · exact Prog.ends_pure.mpr ⟨⟨rfl, rfl⟩, Cells.Within.refl _ _ _ _, Prog.LogIn.nil⟩
  · exact Prog.ends_pure.mpr ⟨⟨rfl, rfl⟩, Cells.Within.refl _ _ _ _, Prog.LogIn.nil⟩
  obtain ⟨ha, hb, hset⟩ := h.pair
  have hlen : ((a :: b :: l).length : Int) = l.length + 2 := by
    simp only [List.length_cons]
    omega
  rw [if_pos (by omega)]
  simp only [Prog.ends_bind, Prog.ends_read, Prog.ends_write, Prog.ends_pure, ha, hb]
  refine ⟨⟨rfl, rfl, hset _⟩, (Cells.Within.refl _ _ _ _).set (by omega) (by omega), ?_⟩
  exact ((Prog.LogIn.nil.write (by omega)).read (by omega)).read (by omega)

/-! ## Encoded percent signs -/

/-- The list decoder compares with the same names. -/
theorem httpPercentCombine_names (l : List Byte) :
    httpPercentCombine l = (encodedPercents.find? fun s => startsWithCase l (str s).reverse).map fun s =>
      ch '%' :: l.drop (str s).length := by
  have h6 : (str "5200u%").reverse = str "%u0025" := by decide
  have h4 : (str "52x%").reverse = str "%x25" := by decide
  have h3 : (str "52%").reverse = str "%25" := by decide
  unfold httpPercentCombine encodedPercents
  simp only [List.find?_cons, h6, h4, h3]
  cases startsWithCase l (str "%u0025") <;> cases startsWithCase l (str "%x25") <;>
    cases startsWithCase l (str "%25") <;> rfl

/-- What the first name that is found makes of the list. -/
def Combined (out : ν) (l : List Byte) (found : Option String) (c : Cells ν Byte) (d : Int) (c' : Cells ν Byte) :
    Prop :=
  match found with
  | some s => d = (str s).length - 1 ∧ (str s).length ≤ l.length ∧ Holds c' out (ch '%' :: l.drop (str s).length)
  | none => d = 0 ∧ c' = c

theorem ends_percentCombineWith {l : List Byte} (h : Holds c out l) :
    ∀ names : List String, (∀ s ∈ names, str s ≠ []) →
    Prog.Ends (percentCombineWith out l.length names) c fun d c' log =>
      Combined out l (names.find? fun s => startsWithCase l (str s).reverse) c d c' ∧
        Cells.Within out 0 l.length c c' ∧ Prog.LogIn out 0 l.length log := by
  intro names
  induction names with
  | nil => exact fun _ => Prog.ends_pure.mpr ⟨⟨rfl, rfl⟩, Cells.Within.refl _ _ _ _, Prog.LogIn.nil⟩
  | cons s names ih =>
    intro hnames
    obtain ⟨hs, hnames⟩ := List.forall_mem_cons.mp hnames
    rw [percentCombineWith, List.find?_cons]
    refine (ends_standsAtEnd h (str s)).bind ?_
    rintro r c' log ⟨rfl, rfl, hlog⟩
    cases hstart : startsWithCase l (str s).reverse with
    | false =>
      rw [if_neg Bool.false_ne_true]
      refine (ih hnames).mono ?_
      rintro d c'' log' ⟨hd, hwithin, hlog'⟩
      exact ⟨hd, hwithin, hlog.append hlog'⟩
    | true =>
      have hfits : (str s).length ≤ l.length := by
        by_contra hlong
        rw [startsWithCase_short _ _ (by rw [List.length_reverse]; omega)] at hstart
        cases hstart
      have hpos := List.length_pos_iff.mpr hs
      have hrest : Holds c' out (l.drop (str s).length) :=
        Holds.suffix (l := l.take (str s).length) (by rw [List.take_append_drop]; exact h)
      rw [if_pos rfl]
      simp only [Prog.ends_bind, Prog.ends_write, Prog.ends_pure]
      refine ⟨⟨rfl, hfits, hrest.push ?_⟩, ?_, ?_⟩
      · rw [List.length_drop]
        omega
      · exact (Cells.Within.refl _ _ _ _).set (by omega) (by omega)
      · exact hlog.append (Prog.LogIn.nil.write (by omega))

theorem ends_percentCombine {l : List Byte} (h : Holds c out l) :
    Prog.Ends (percentCombine out l.length) c fun r c' log =>
      (match httpPercentCombine l with
        | some l' => 0 < r.1 ∧ r.2 = l'.length ∧ l'.length < l.length ∧ Holds c' out l'
        | none => r = (0, (l.length : Int)) ∧ c' = c) ∧
      Cells.Within out 0 l.length c c' ∧ Prog.LogIn out 0 l.length log := by
  have hnames : ∀ s ∈ encodedPercents, 3 ≤ (str s).length := by decide
  unfold percentCombine
  rw [httpPercentCombine_names]
  refine (ends_percentCombineWith h encodedPercents (by decide)).bind ?_
  rintro d c' log ⟨hd, hwithin, hlog⟩
  simp only [Prog.ends_bind, Prog.ends_value, Prog.ends_pure]
  cases hfind : encodedPercents.find? fun s => startsWithCase l (str s).reverse with
  | none =>
    rw [hfind] at hd
    obtain ⟨rfl, rfl⟩ := hd
    refine ⟨⟨?_, rfl⟩, hwithin, hlog.append (Prog.LogIn.nil.value (by omega))⟩
    rw [ite_self, Int.sub_zero]
  | some s =>
    rw [hfind] at hd
    obtain ⟨rfl, hfits, hholds⟩ := hd
    have h3 := hnames s (List.mem_of_find?_eq_some hfind)
    have hlen : (ch '%' :: l.drop (str s).length).length = l.length - (str s).length + 1 := by
      rw [List.length_cons, List.length_drop]
    refine ⟨⟨?_, ?_, ?_, hholds⟩, hwithin, hlog.append (Prog.LogIn.nil.value (by omega))⟩
    · rw [if_pos (by omega)]
      omega
    · rw [hlen]
      omega
    · rw [hlen]
      omega

/-- `while(combine_len >0)`. -/
theorem ends_percentCombineAll : ∀ (n m : Nat) (l : List Byte) (c : Cells ν Byte), Holds c out l → l.length < n →
    l.length ≤ m →
    Prog.Ends (percentCombineAll out n l.length) c fun r c' log =>
      Rewritten out l (httpPercentCombineLoop m l) c r c' ∧ (httpPercentCombineLoop m l).length ≤ l.length ∧
        Prog.LogIn out 0 l.length log := by
  intro n
  induction n with
  | zero => exact fun _ _ _ _ hlt => absurd hlt (Nat.not_lt_zero _)
  | succ n ih =>
    intro m l c h hn hm
    rw [percentCombineAll]
    refine (ends_percentCombine h).bind ?_
    rintro ⟨d, len⟩ c' log ⟨hr, hwithin, hlog⟩
    cases hl : httpPercentCombine l with
    | none =>
      rw [hl] at hr
      obtain ⟨hr, rfl⟩ := hr
      cases hr
      have hstop : httpPercentCombineLoop m l = l := by
        cases m with
        | zero => rfl
        | succ m => rw [httpPercentCombineLoop, hl]
      rw [if_neg (Int.lt_irrefl 0), Prog.ends_pure, hstop, List.append_nil]
      exact ⟨⟨rfl, h, hwithin⟩, Nat.le_refl _, hlog⟩
    | some l' =>
      rw [hl] at hr
      obtain ⟨hpos, rfl, hlt, hholds⟩ := hr
      cases m with
      | zero => omega
      | succ m =>
        rw [if_pos hpos, httpPercentCombineLoop, hl]
        refine (ih m l' c' hholds (by omega) (by omega)).mono ?_
        rintro r c'' log' ⟨⟨rfl, hholds', hwithin'⟩, hle, hlog'⟩
        refine ⟨⟨rfl, hholds', ?_⟩, Nat.le_trans hle (Nat.le_of_lt hlt), ?_⟩
        · exact hwithin.trans (hwithin'.mono (Int.le_refl 0) (by omega))
        · exact hlog.append (hlog'.mono (Int.le_refl 0) (by omega))


/-! ## The type of a sequence -/

/-- The list after step 1. -/
def combined (l : List Byte) (tmpLen : Int) : List Byte :=
  if tmpLen = -1 then httpPercentCombineLoop l.length l else l

/-- Steps 2 to 4 on a list. -/
def percentTypeOf (l : List Byte) (tmpLen : Int) : Option PercentType :=
  if l.length ≤ 2 then some .noPercent
  else if (l[1]? = some (ch 'x') ∨ l[1]? = some (ch 'X')) ∧ (3 ≤ tmpLen ∨ tmpLen = -1) then
    if l.length ≤ 3 then some .noPercent else some .xyy
  else if startsWithCase l (str "%u00") ∧ (5 ≤ tmpLen ∨ tmpLen = -1) then
    if l.length ≤ 5 then some .noPercent else some .u00xx
  else if startsWithCase l (str "%uff") ∧ (5 ≤ tmpLen ∨ tmpLen = -1) then
    if l.length ≤ 5 then some .noPercent else some .uffxx
  else if 2 ≤ tmpLen ∨ tmpLen = -1 then some .xx
  else none

theorem httpStringDecodeTypeBackward_eq (l : List Byte) (tmpLen : Int) :
    httpStringDecodeTypeBackward l tmpLen = (percentTypeOf (combined l tmpLen) tmpLen, combined l tmpLen) := by
  unfold httpStringDecodeTypeBackward percentTypeOf combined
  dsimp only
  repeat' split
  all_goals rfl

/-- With three bytes the comparisons start in front of the buffer. -/
def looksBack (l : List Byte) (tmpLen : Int) : Bool :=
  decide (l.length = 3 ∧ ¬ ((l[1]? = some (ch 'x') ∨ l[1]? = some (ch 'X')) ∧ (3 ≤ tmpLen ∨ tmpLen = -1)))

/-- What is decoded by a type. -/
def decodedAs (l : List Byte) : Option PercentType → List Byte
  | some .xx => (httpPercentXxDecodeBackward (l.drop 1)).getD l
  | some .u00xx => (httpPercentXxDecodeBackward (l.drop 4)).getD l
  | some .uffxx => (httpPercentFFxxDecodeBackward (l.drop 4)).getD l
  | some .xyy => (httpPercentXxDecodeBackward (l.drop 2)).getD l
  | _ => l

theorem httpStringDecodeBackward_eq (l : List Byte) (tmpLen : Int) :
    httpStringDecodeBackward l tmpLen =
      decodedAs (combined l tmpLen) (percentTypeOf (combined l tmpLen) tmpLen) := by
  unfold httpStringDecodeBackward
  rw [httpStringDecodeTypeBackward_eq]
  cases percentTypeOf (combined l tmpLen) tmpLen with
  | none => rfl
  | some t => cases t <;> rfl

/-- There is as much as `out_len` goes back by. -/
def TypeFits (l : List Byte) : Option PercentType → Prop
  | some .xx => 1 ≤ l.length
  | some .u00xx => 4 ≤ l.length
  | some .uffxx => 4 ≤ l.length
  | some .xyy => 2 ≤ l.length
  | _ => True

/-- A `u` is no digit. -/
theorem decodedAs_u {l s : List Byte} (h : startsWithCase l (ch '%' :: ch 'u' :: s) = true) {t : Option PercentType}
    (ht : t = some .xx ∨ t = none) : decodedAs l t = l := by
  rcases ht with rfl | rfl
  · rcases l with _ | ⟨a, _ | ⟨b, _ | ⟨d, l⟩⟩⟩
    · rfl
    · rfl
    · rfl
    · simp only [startsWithCase, Bool.and_eq_true, decide_eq_true_eq] at h
      have hb := httpCharacterToDigit_letter b (Or.inr h.2.1)
      show (httpPercentXxDecodeBackward (b :: d :: l)).getD _ = _
      rw [httpPercentXxDecodeBackward, if_neg fun hand => absurd hand.1 (by omega)]
      rfl
  · rfl

/-- The types that are told by their names. -/
def percentTypeNamed (l : List Byte) (tmpLen : Int) : Option PercentType :=
  if startsWithCase l (str "%u00") ∧ (5 ≤ tmpLen ∨ tmpLen = -1) then
    if l.length ≤ 5 then some .noPercent else some .u00xx
  else if startsWithCase l (str "%uff") ∧ (5 ≤ tmpLen ∨ tmpLen = -1) then
    if l.length ≤ 5 then some .noPercent else some .uffxx
  else if 2 ≤ tmpLen ∨ tmpLen = -1 then some .xx
  else none

/-- A type that is as good as another, and the accesses that told it; `back` if they start in front
of the buffer. -/
def TypeFound (out : ν) (l : List Byte) (same : Option PercentType) (back : Bool) (t : Option PercentType)
    (log : List (Event ν)) : Prop :=
  decodedAs l t = decodedAs l same ∧ TypeFits l t ∧ Prog.LogIn out (if back then -1 else 0) l.length log ∧
    (back = true → .read out (-1) ∈ log)

/-- With fewer than four bytes, no name is there. -/
theorem percentTypeNamed_short {l : List Byte} (h : l.length = 3) (tmpLen : Int) :
    percentTypeNamed l tmpLen = if 2 ≤ tmpLen ∨ tmpLen = -1 then some .xx else none := by
  have hname : ∀ s : List Byte, s.length = 4 → startsWithCase l s = false :=
    fun s hs => startsWithCase_short s l (by omega)
  rw [percentTypeNamed, hname _ rfl, hname _ rfl, if_neg fun hand => Bool.false_ne_true hand.1,
    if_neg fun hand => Bool.false_ne_true hand.1]

theorem ends_percentTypeByName {l : List Byte} (h : Holds c out l) (h3 : 3 ≤ l.length) (tmpLen : Int) :
    Prog.Ends (percentTypeByName out l.length tmpLen) c fun t c' log =>
      c' = c ∧ TypeFound out l (percentTypeNamed l tmpLen) (decide (l.length = 3)) t log := by
  have hu : (str "00u%").reverse = str "%u00" ∧ (str "00u%").tail.reverse =
    ch '%' :: ch 'u' :: [ch '0'] := by decide
  have hf : (str "ffu%").reverse = str "%uff" ∧ (str "ffu%").tail.reverse =
    ch '%' :: ch 'u' :: [ch 'f'] := by decide
  have hlast : (if 2 ≤ tmpLen ∨ tmpLen = -1 then some PercentType.xx else none) = some .xx ∨
      (if 2 ≤ tmpLen ∨ tmpLen = -1 then some PercentType.xx else none) = none := by
    split
    · exact Or.inl rfl
    · exact Or.inr rfl
  have hlo : (if decide (l.length = 3) = true then (-1 : Int) else 0) = if l.length = 3 then -1 else 0 := by simp
  have hneg : (if l.length = 3 then (-1 : Int) else 0) ≤ 0 := by split <;> omega
  unfold percentTypeByName TypeFound
  rw [hlo]
  simp only [decide_eq_true_eq]
  refine (ends_compareFour h h3 (str "00u%") rfl).bind ?_
  rintro r c' log ⟨rfl, hlog, hfour, hthree⟩
  rw [hu.1] at hfour
  rw [hu.2] at hthree
  by_cases hcu : r = true ∧ (5 ≤ tmpLen ∨ tmpLen = -1)
  · obtain ⟨rfl, htmp⟩ := hcu
    rw [if_pos ⟨rfl, htmp⟩]
    rcases Nat.lt_or_ge 5 l.length with h6 | h5
    · have htype : percentTypeNamed l tmpLen = some .u00xx := by
        rw [percentTypeNamed, if_pos ⟨(hfour (by omega)).symm, htmp⟩, if_neg (by omega)]
      rw [if_neg (by omega), htype, Prog.ends_bind, Prog.ends_read, Prog.ends_bind, Prog.ends_read, Prog.ends_pure]
      refine ⟨rfl, rfl, (by omega : 4 ≤ l.length), hlog.append ?_, fun hlen => (by omega)⟩
      exact (Prog.LogIn.nil.read (by omega)).read (by omega)
    · rw [if_pos (by omega), Prog.ends_pure, List.append_nil]
      refine ⟨rfl, ?_, trivial, hlog, fun hlen => (hthree hlen).1⟩
      rcases Nat.lt_or_ge l.length 4 with hlt | hge
      · rw [percentTypeNamed_short (by omega)]
        exact (decodedAs_u ((hthree (by omega)).2 rfl) hlast).symm
      · rw [percentTypeNamed, if_pos ⟨(hfour hge).symm, htmp⟩, if_pos h5]
  · rw [if_neg hcu]
    refine (ends_compareFour h h3 (str "ffu%") rfl).bind ?_
    rintro r' c' log' ⟨rfl, hlog', hfour', hthree'⟩
    rw [hf.1] at hfour'
    rw [hf.2] at hthree'
    have hboth := hlog.append hlog'
    have hnamed : 4 ≤ l.length → percentTypeNamed l tmpLen =
        if r' = true ∧ (5 ≤ tmpLen ∨ tmpLen = -1) then if l.length ≤ 5 then some .noPercent else some .uffxx
        else if 2 ≤ tmpLen ∨ tmpLen = -1 then some .xx else none := by
      intro hge
      rw [percentTypeNamed, ← hfour hge, ← hfour' hge, if_neg hcu]
    by_cases hcf : r' = true ∧ (5 ≤ tmpLen ∨ tmpLen = -1)
    · rw [if_pos hcf, Prog.ends_pure, List.append_nil]
      refine ⟨rfl, ?_, ?_, hboth, fun hlen => List.mem_append_left _ (hthree hlen).1⟩
      · rcases Nat.lt_or_ge l.length 4 with hlt | hge
        · rw [if_pos (by omega), percentTypeNamed_short (by omega)]
          exact (decodedAs_u ((hthree' (by omega)).2 hcf.1) hlast).symm
        · rw [hnamed hge, if_pos hcf]
          have hcast : ((l.length : Int) ≤ 5) ↔ l.length ≤ 5 := by omega
          simp only [hcast]
      · split
        · trivial
        · exact (by omega : 4 ≤ l.length)
    · rw [if_neg hcf, Prog.ends_bind, Prog.ends_read, Prog.ends_bind, Prog.ends_read, Prog.ends_pure]
      refine ⟨rfl, ?_, ?_, ?_, fun hlen => List.mem_append_left _ (hthree hlen).1⟩
      · rcases Nat.lt_or_ge l.length 4 with hlt | hge
        · rw [percentTypeNamed_short (by omega)]
        · rw [hnamed hge, if_neg hcf]
      · split
        · exact (by omega : 1 ≤ l.length)
        · trivial
      · rw [← List.append_assoc]
        exact hboth.append ((Prog.LogIn.nil.read (by omega)).read (by omega))

theorem ends_percentTypeBackward {l : List Byte} (h : Holds c out l) (tmpLen : Int) :
    Prog.Ends (percentTypeBackward out l.length tmpLen) c fun t c' log =>
      c' = c ∧ TypeFound out l (percentTypeOf l tmpLen) (looksBack l tmpLen) t log := by
  unfold percentTypeBackward
  rcases Nat.lt_or_ge 2 l.length with h3 | h2
  · have hx := h.cell (i := 1) (by omega) (p := l.length - 2) (by omega)
    have hcond : ((c out (l.length - 2) = ch 'x' ∨ c out (l.length - 2) = ch 'X') ∧ (3 ≤ tmpLen ∨ tmpLen = -1)) ↔
        ((l[1]? = some (ch 'x') ∨ l[1]? = some (ch 'X')) ∧ (3 ≤ tmpLen ∨ tmpLen = -1)) := by
      rw [hx]
      simp
    rw [if_neg (by omega), Prog.ends_bind, Prog.ends_read]
    by_cases hcx : (l[1]? = some (ch 'x') ∨ l[1]? = some (ch 'X')) ∧ (3 ≤ tmpLen ∨ tmpLen = -1)
    · have hno : looksBack l tmpLen = false := decide_eq_false fun hand => hand.2 hcx
      have htype : percentTypeOf l tmpLen = if l.length ≤ 3 then some .noPercent else some .xyy := by
        rw [percentTypeOf, if_neg (by omega), if_pos hcx]
      rw [if_pos (hcond.mpr hcx), htype, hno]
      rcases Nat.lt_or_ge 3 l.length with h4 | h3'
      · rw [if_neg (by omega), if_neg (by omega), Prog.ends_bind, Prog.ends_read, Prog.ends_bind, Prog.ends_read,
          Prog.ends_pure]
        refine ⟨rfl, rfl, (by omega : 2 ≤ l.length), ?_, fun hyes => (by cases hyes)⟩
        exact ((Prog.LogIn.nil.read (by omega)).read (by omega)).read (by omega)
      · rw [if_pos (by omega), if_pos h3', Prog.ends_pure]
        exact ⟨rfl, rfl, trivial, Prog.LogIn.nil.read (by omega), fun hyes => (by cases hyes)⟩
    · have hback : looksBack l tmpLen = decide (l.length = 3) :=
        decide_eq_decide.mpr ⟨And.left, fun hlen => ⟨hlen, hcx⟩⟩
      have htype : percentTypeOf l tmpLen = percentTypeNamed l tmpLen := by
        rw [percentTypeOf, if_neg (by omega), if_neg hcx]
        rfl
      rw [if_neg fun hand => hcx (hcond.mp hand), hback, htype]
      refine (ends_percentTypeByName h h3 tmpLen).mono ?_
      rintro t c' log ⟨rfl, hsame, hfits, hlog, hread⟩
      refine ⟨rfl, hsame, hfits, ?_, fun hyes => List.mem_cons_of_mem _ (hread hyes)⟩
      refine hlog.read ⟨?_, by omega⟩
      split <;> omega
  · rw [if_pos (by omega), Prog.ends_pure, percentTypeOf, if_pos h2]
    have hno : looksBack l tmpLen = false := decide_eq_false fun hand => by omega
    rw [hno]
    exact ⟨rfl, rfl, trivial, Prog.LogIn.nil, fun hyes => (by cases hyes)⟩


/-! ## One `%` -/

theorem ends_percentCombineStep {l : List Byte} (h : Holds c out l) (tmpLen : Int) :
    Prog.Ends (percentCombineStep out l.length tmpLen) c fun r c' log =>
      Rewritten out l (combined l tmpLen) c r c' ∧ (combined l tmpLen).length ≤ l.length ∧
        Prog.LogIn out 0 l.length log := by
  unfold percentCombineStep combined
  by_cases hlevel : tmpLen = -1
  · rw [if_pos hlevel, if_pos hlevel, Int.toNat_natCast]
    exact ends_percentCombineAll _ _ l c h (Nat.lt_succ_self _) (Nat.le_refl _)
  · rw [if_neg hlevel, if_neg hlevel]
    exact Prog.ends_pure.mpr ⟨⟨rfl, h, Cells.Within.refl _ _ _ _⟩, Nat.le_refl _, Prog.LogIn.nil⟩

/-- The `switch`. -/
theorem ends_decodedAs {l : List Byte} (h : Holds c out l) {t : Option PercentType} (ht : TypeFits l t) :
    Prog.Ends
      (match (t, (l.length : Int)) with
        | (some .xx, outLen) => decodeBehind out outLen 1 percentXxDecodeBackward
        | (some .u00xx, outLen) => decodeBehind out outLen 4 percentXxDecodeBackward
        | (some .uffxx, outLen) => decodeBehind out outLen 4 percentFFxxDecodeBackward
        | (some .xyy, outLen) => decodeBehind out outLen 2 percentXxDecodeBackward
        | (_, outLen) => pure outLen) c fun r c' log =>
      Rewritten out l (decodedAs l t) c r c' ∧ Prog.LogIn out 0 l.length log := by
  have hsuffix : ∀ k, Holds c out (l.drop k) := by
    intro k
    apply Holds.suffix (l := l.take k)
    rw [List.take_append_drop]
    exact h
  have hkeep : Prog.Ends (pure (l.length : Int)) c fun r c' log =>
      Rewritten out l l c r c' ∧ Prog.LogIn out 0 l.length log :=
    Prog.ends_pure.mpr ⟨⟨rfl, h, Cells.Within.refl _ _ _ _⟩, Prog.LogIn.nil⟩
  have hxx := fun (k : Nat) (hk : k ≤ l.length) => ends_decodeBehind h hk (ends_percentXxDecodeBackward (hsuffix k))
  cases t with
  | none => exact hkeep
  | some t =>
    cases t with
    | noPercent => exact hkeep
    | xx => exact hxx 1 ht
    | u00xx => exact hxx 4 ht
    | xyy => exact hxx 2 ht
    | uffxx => exact ends_decodeBehind h ht (ends_percentFFxxDecodeBackward (hsuffix 4))

/-- The comparisons at this `%` start in front of the buffer. -/
def backAt (l : List Byte) (tmpLen : Int) : Bool := looksBack (combined l tmpLen) tmpLen

/-- **One `%`**: the buffer holds what the list decoder makes of the list. -/
theorem ends_stringDecodeBackward {l : List Byte} (h : Holds c out l) (tmpLen : Int) :
    Prog.Ends (stringDecodeBackward out l.length tmpLen) c fun r c' log =>
      Rewritten out l (httpStringDecodeBackward l tmpLen) c r c' ∧
        Prog.LogIn out (if backAt l tmpLen then -1 else 0) l.length log ∧
        (backAt l tmpLen = true → .read out (-1) ∈ log) := by
  have hlo : (if backAt l tmpLen = true then (-1 : Int) else 0) ≤ 0 := by split <;> omega
  rw [httpStringDecodeBackward_eq]
  unfold stringDecodeBackward stringDecodeTypeBackward
  simp only [Prog.ends_bind]
  refine (ends_percentCombineStep h tmpLen).mono ?_
  rintro r c' log ⟨⟨rfl, hholds, hwithin⟩, hle, hlog⟩
  refine (ends_percentTypeBackward hholds tmpLen).mono ?_
  rintro t c'' log' ⟨rfl, hsame, hfits, hlog', hread⟩
  rw [Prog.ends_pure]
  refine (ends_decodedAs hholds hfits).mono ?_
  rintro r c'' log'' ⟨⟨rfl, hholds', hwithin'⟩, hlog''⟩
  rw [hsame] at hholds' ⊢
  refine ⟨⟨rfl, hholds', ?_⟩, ?_, ?_⟩
  · exact hwithin.trans (hwithin'.mono (Int.le_refl 0) (by omega))
  · have hshorter : ((combined l tmpLen).length : Int) ≤ l.length := by omega
    have htype := (hlog'.mono (Int.le_refl _) hshorter).append Prog.LogIn.nil
    exact ((hlog.mono hlo (Int.le_refl _)).append htype).append (hlog''.mono hlo hshorter)
  · exact fun hback => List.mem_append_left _ (List.mem_append_right _ (List.mem_append_left _ (hread hback)))

/-! ## The loop -/

/-- A byte is appended. -/
theorem ends_putByte {l : List Byte} (h : Holds c out l) (b : Byte) :
    Prog.Ends (putByte out l.length b) c fun r c' log =>
      r = ((b :: l).length : Nat) ∧ Holds c' out (b :: l) ∧ Cells.Within out 0 (b :: l).length c c' ∧
        Prog.LogIn out 0 (b :: l).length log := by
  have hlen : ((b :: l).length : Int) = l.length + 1 := by
    rw [List.length_cons]
    omega
  unfold putByte
  rw [Prog.ends_bind, Prog.ends_write, Prog.ends_bind, Prog.ends_value, Prog.ends_pure]
  refine ⟨hlen.symm, h.push rfl, ?_, ?_⟩
  · exact (Cells.Within.refl _ _ _ _).set (by omega) (by omega)
  · exact (Prog.LogIn.nil.write (by omega)).append ((Prog.LogIn.nil.value (by omega)).append Prog.LogIn.nil)

/-- The comparisons at this character start in front of the buffer. -/
def charLooksBack (cic : Bool) (b : Byte) (s : List Byte × Int) : Bool :=
  b = ch '%' && backAt (b :: s.1) (if cic then -1 else s.2)

/-- **One turn** of the loop is one step of the list decoder. -/
theorem ends_stringDecodeChar {l : List Byte} (h : Holds c out l) (cic : Bool) (b : Byte) (tmpLen : Int) :
    Prog.Ends (stringDecodeChar out cic b l.length tmpLen) c fun r c' log =>
      r = some (((httpStringDecodeStep cic b (l, tmpLen)).1.length : Int),
        (httpStringDecodeStep cic b (l, tmpLen)).2) ∧
        Holds c' out (httpStringDecodeStep cic b (l, tmpLen)).1 ∧ Cells.Within out 0 (l.length + 1) c c' ∧
        Prog.LogIn out (if charLooksBack cic b (l, tmpLen) then -1 else 0) (l.length + 1) log ∧
        (charLooksBack cic b (l, tmpLen) = true → .read out (-1) ∈ log) := by
  have hput := fun e => ends_putByte h e
  have hlen : ∀ e : Byte, ((e :: l).length : Int) = l.length + 1 := by
    intro e
    rw [List.length_cons]
    omega
  unfold stringDecodeChar httpStringDecodeStep charLooksBack
  dsimp only
  by_cases hb : b = ch '%'
  · rw [if_pos hb, if_pos hb, decide_eq_true hb, Bool.true_and]
    refine (hput b).bind ?_
    rintro r c' log ⟨rfl, hholds, hwithin, hlog⟩
    refine (ends_stringDecodeBackward hholds _).bind ?_
    rintro r c'' log' ⟨⟨rfl, hholds', hwithin'⟩, hlog', hread⟩
    have hnonneg : ¬ ((httpStringDecodeBackward (b :: l) (if cic then -1 else tmpLen)).length : Int) < 0 := by omega
    rw [Prog.ends_pure, if_neg hnonneg]
    have hlo : (if backAt (b :: l) (if cic then -1 else tmpLen) = true then (-1 : Int) else 0) ≤ 0 := by
      split <;> omega
    rw [hlen] at hwithin hwithin' hlog hlog'
    refine ⟨rfl, hholds', hwithin.trans hwithin', ?_, ?_⟩
    · exact (hlog.mono hlo (Int.le_refl _)).append (hlog'.append Prog.LogIn.nil)
    · exact fun hback => List.mem_append_right _ (List.mem_append_left _ (hread hback))
  · rw [if_neg hb, if_neg hb, decide_eq_false hb, Bool.false_and]
    have hplain : ∀ (e : Byte) (tmpLen' : Int),
        Prog.Ends (putByte out l.length e >>= fun outLen => pure (some (outLen, tmpLen'))) c fun r c' log =>
          r = some (((e :: l).length : Int), tmpLen') ∧ Holds c' out (e :: l) ∧
            Cells.Within out 0 (l.length + 1) c c' ∧
            Prog.LogIn out 0 (l.length + 1) log ∧ (false = true → .read out (-1) ∈ log) := by
      intro e tmpLen'
      refine (hput e).bind ?_
      rintro r c' log ⟨rfl, hholds, hwithin, hlog⟩
      rw [hlen] at hwithin hlog
      exact Prog.ends_pure.mpr ⟨rfl, hholds, hwithin, hlog.append Prog.LogIn.nil, fun hno => (by cases hno)⟩
    by_cases hplus : b = ch '+'
    · rw [if_pos hplus, if_pos hplus]
      exact hplain _ _
    · rw [if_neg hplus, if_neg hplus]
      exact hplain _ _

/-! ### The list decoder, for the bounds -/

theorem httpPercentCombine_length {l l' : List Byte} (h : httpPercentCombine l = some l') :
    l'.length < l.length := by
  have hnames : ∀ s ∈ encodedPercents, 3 ≤ (str s).length := by decide
  rw [httpPercentCombine_names] at h
  obtain ⟨s, hs, rfl⟩ := Option.map_eq_some_iff.mp h
  have h3 := hnames s (List.mem_of_find?_eq_some hs)
  have hfits : (str s).length ≤ l.length := by
    by_contra hlong
    have hstart := List.find?_some (p := fun s : String => startsWithCase l (str s).reverse) hs
    rw [startsWithCase_short _ _ (by rw [List.length_reverse]; omega)] at hstart
    cases hstart
  rw [List.length_cons, List.length_drop]
  omega

theorem httpPercentCombineLoop_length :
    ∀ (n : Nat) (l : List Byte), (httpPercentCombineLoop n l).length ≤ l.length := by
  intro n
  induction n with
  | zero => exact fun _ => Nat.le_refl _
  | succ n ih =>
    intro l
    rw [httpPercentCombineLoop]
    cases h : httpPercentCombine l with
    | none => exact Nat.le_refl _
    | some l' => exact Nat.le_trans (ih l') (Nat.le_of_lt (httpPercentCombine_length h))

theorem decodedAs_length (l : List Byte) (t : Option PercentType) : (decodedAs l t).length ≤ l.length := by
  have hget : ∀ {r : Option (List Byte)} (k : Nat), (∀ l', r = some l' → l'.length < (l.drop k).length) →
      (r.getD l).length ≤ l.length := by
    intro r k hr
    cases r with
    | none => exact Nat.le_refl _
    | some l' =>
      have hlt := hr l' rfl
      have hdrop := (List.drop_suffix k l).length_le
      rw [Option.getD_some]
      omega
  have hxx := fun k => hget k fun _ h => (httpPercentXxDecodeBackward_length (l := l.drop k) h).1
  cases t with
  | none => exact Nat.le_refl _
  | some t =>
    cases t with
    | noPercent => exact Nat.le_refl _
    | xx => exact hxx 1
    | u00xx => exact hxx 4
    | xyy => exact hxx 2
    | uffxx => exact hget 4 fun _ h => (httpPercentFFxxDecodeBackward_length (l := l.drop 4) h).1

theorem httpStringDecodeBackward_length (l : List Byte) (tmpLen : Int) :
    (httpStringDecodeBackward l tmpLen).length ≤ l.length := by
  rw [httpStringDecodeBackward_eq]
  refine Nat.le_trans (decodedAs_length _ _) ?_
  unfold combined
  split
  · exact httpPercentCombineLoop_length _ _
  · exact Nat.le_refl _

theorem httpStringDecodeStep_length (cic : Bool) (b : Byte) (s : List Byte × Int) :
    (httpStringDecodeStep cic b s).1.length ≤ s.1.length + 1 := by
  unfold httpStringDecodeStep
  split
  split
  · exact httpStringDecodeBackward_length _ _
  · split
    · exact Nat.le_refl _
    · exact Nat.le_refl _

/-- Somewhere in the text the comparisons start in front of the buffer. -/
def looksBackIn (cic : Bool) : List Byte → List Byte × Int → Bool
  | [], _ => false
  | b :: text, s => charLooksBack cic b (text.foldr (httpStringDecodeStep cic) s) || looksBackIn cic text s

theorem looksBackIn_concat (cic : Bool) (b : Byte) : ∀ (text : List Byte) (s : List Byte × Int),
    looksBackIn cic (text ++ [b]) s =
      (charLooksBack cic b s || looksBackIn cic text (httpStringDecodeStep cic b s)) := by
  intro text
  induction text with
  | nil => exact fun _ => rfl
  | cons e text ih =>
    intro s
    rw [List.cons_append, looksBackIn, looksBackIn, ih, List.foldr_append, ← Bool.or_assoc, ← Bool.or_assoc]
    congr 1
    exact Bool.or_comm _ _

/-- **The loop**: what stands in front of `i` is decoded on top of the buffer. -/
theorem ends_stringDecodeFrom {inp : ν} {size : ν → Int} (hne : out ≠ inp) (cic : Bool) :
    ∀ (i : Nat) (text l : List Byte) (tmpLen k : Int) (c : Cells ν Byte), text.length = i → c.At inp 0 text →
    Holds c out l → (l.length : Int) ≤ k → (text.length : Int) ≤ size inp → k + text.length ≤ size out →
    Prog.Ends (stringDecodeFrom out inp cic i l.length tmpLen) c fun r c' log =>
      r = (text.foldr (httpStringDecodeStep cic) (l, tmpLen)).1.length ∧
        Holds c' out (text.foldr (httpStringDecodeStep cic) (l, tmpLen)).1 ∧
        Cells.Within out 0 (k + text.length) c c' ∧ Prog.ValuesWithin inp k log ∧
        (Prog.Inside size log ↔ looksBackIn cic text (l, tmpLen) = false) := by
  intro i
  induction i with
  | zero =>
    intro text l tmpLen k c hlen hat h hk hin hout
    obtain rfl := List.eq_nil_of_length_eq_zero hlen
    exact Prog.ends_pure.mpr ⟨rfl, h, Cells.Within.refl _ _ _ _, trivial, fun _ => rfl, fun _ => trivial⟩
  | succ i ih =>
    intro text l tmpLen k c hlen hat h hk hin hout
    obtain ⟨text, b, rfl⟩ : ∃ t b, text = t ++ [b] := by
      rcases List.eq_nil_or_concat text with rfl | ⟨t, b, rfl⟩
      · cases hlen
      · exact ⟨t, b, List.concat_eq_append⟩
    rw [List.length_append, List.length_singleton] at hlen hin hout ⊢
    obtain rfl := Nat.succ.inj hlen
    rw [Cells.at_append] at hat
    have hread : c inp text.length = b := by
      have hcell := Cells.at_singleton.mp hat.2
      rw [Int.zero_add] at hcell
      exact hcell
    have hstep : (httpStringDecodeStep cic b (l, tmpLen)).1.length ≤ l.length + 1 :=
      httpStringDecodeStep_length _ _ _
    rw [stringDecodeFrom, Prog.ends_bind, Prog.ends_read, hread, List.foldr_append, looksBackIn_concat]
    simp only [Prog.ends_bind]
    refine (ends_stringDecodeChar h cic b tmpLen).mono ?_
    rintro r c' log ⟨rfl, hholds, hwithin, hlog, hback⟩
    have hat' : c'.At inp 0 text := hat.1.within hwithin (Or.inl (Ne.symm hne))
    refine (ih text _ _ (k + 1) c' rfl hat' hholds (by omega) (by omega) (by omega)).mono ?_
    rintro r c'' log' ⟨rfl, hholds', hwithin', hvalues, hinside⟩
    refine ⟨rfl, hholds', ?_, ?_, ?_⟩
    · exact (hwithin.mono (Int.le_refl 0) (by omega)).trans (hwithin'.mono (Int.le_refl 0) (by omega))
    · show Prog.ValuesWithin inp (if inp = inp then k + 1 else k) (log ++ log')
      rw [if_pos rfl]
      exact (hlog.mono (Int.le_refl _) (by omega)).valuesWithin hne hvalues
    · rw [List.singleton_append, Prog.inside_read, Prog.inside_append, hinside]
      cases hchar : charLooksBack cic b (l, tmpLen) with
      | false =>
        rw [hchar] at hlog
        have hin' : Prog.Inside size log := hlog.inside (by omega)
        simp only [hin', Bool.false_or, true_and]
        exact ⟨And.right, fun h => ⟨by omega, h⟩⟩
      | true =>
        refine ⟨fun hins => ?_, fun hno => (by cases hno)⟩
        have hneg := hins.2.1.read_mem (hback hchar)
        omega

/-- **`_http_string_decode`**: the buffer holds what the list decoder emits. -/
theorem ends_httpStringDecodeInto {inp : ν} {size : ν → Int} (hne : out ≠ inp) (cic : Bool) {text : List Byte}
    (hat : c.At inp 0 text) (hin : (text.length : Int) ≤ size inp) (hout : (text.length : Int) ≤ size out) :
    Prog.Ends (httpStringDecodeInto out inp text.length cic) c fun r c' log =>
      r = (httpStringDecode text cic).length ∧ Holds c' out (httpStringDecode text cic) ∧
        Cells.Within out 0 text.length c c' ∧ Prog.ValuesWithin inp 0 log ∧
        (Prog.Inside size log ↔ looksBackIn cic text ([], 0) = false) := by
  have hempty : Holds c out [] := trivial
  have hloop := ends_stringDecodeFrom hne cic text.length text [] 0 0 c rfl hat hempty (Int.le_refl 0) hin
    (by omega)
  rw [Int.zero_add] at hloop
  unfold httpStringDecodeInto
  rcases Nat.eq_zero_or_pos text.length with hzero | hpos
  · obtain rfl := List.eq_nil_of_length_eq_zero hzero
    rw [if_pos (show (([] : List Byte).length : Int) ≤ 0 from Int.le_refl 0)]
    exact hloop
  · rw [if_neg (by omega), Int.toNat_natCast]
    exact hloop

/-! ## Reversing -/

/-- The bytes between `i` and the same distance from the end are turned around. -/
theorem ends_reverseFrom {size : ν → Int} {len : Int} (hsize : len ≤ size out) :
    ∀ (n : Nat) (l : List Byte) (i : Int)
    (c : Cells ν Byte), c.At out i l → l.length / 2 = n → 0 ≤ i → i + l.length + i = len →
    Prog.Ends (reverseFrom out len n i) c fun _ c' log =>
      c'.At out i l.reverse ∧ Cells.Within out i (i + l.length) c c' ∧ Prog.Inside size log := by
  intro n
  induction n with
  | zero =>
    intro l i c hat hn hi hlen
    have hrev : l.reverse = l := by
      rcases l with _ | ⟨a, _ | ⟨b, l⟩⟩
      · rfl
      · rfl
      · simp only [List.length_cons] at hn
        omega
    rw [hrev]
    exact Prog.ends_pure.mpr ⟨hat, Cells.Within.refl _ _ _ _, trivial⟩
  | succ n ih =>
    intro l i c hat hn hi hlen
    obtain ⟨a, m, b, rfl⟩ : ∃ a m b, l = a :: (m ++ [b]) := by
      cases l with
      | nil => cases hn
      | cons a t =>
        rcases List.eq_nil_or_concat t with rfl | ⟨m, b, rfl⟩
        · rw [List.length_singleton] at hn
          omega
        · exact ⟨a, m, b, by rw [List.concat_eq_append]⟩
    have hall : (a :: (m ++ [b])).length = m.length + 2 := by simp
    rw [hall] at hn hlen ⊢
    obtain ⟨ha, hrest⟩ := Cells.at_cons.mp hat
    rw [Cells.at_append, Cells.at_singleton] at hrest
    have hlast : len - i - 1 = i + 1 + m.length := by omega
    rw [reverseFrom, hlast]
    simp only [Prog.ends_bind, Prog.ends_read, Prog.ends_write, ha, hrest.2]
    have hmiddle : ((c.set out i b).set out (i + 1 + m.length) a).At out (i + 1) m :=
      (hrest.1.set (Or.inr (Or.inl (by omega)))).set (Or.inr (Or.inr (Int.le_refl _)))
    refine (ih m (i + 1) _ hmiddle (by omega) (by omega) (by omega)).mono ?_
    rintro _ c' log ⟨hat', hwithin, hinside⟩
    have hfirst : c' out i = b := by
      rw [hwithin out i (Or.inr (Or.inl (by omega))), Cells.set_index (by omega)]
      exact Cells.set_same
    have hend : c' out (i + 1 + m.length) = a := by
      rw [hwithin out _ (Or.inr (Or.inr (Int.le_refl _)))]
      exact Cells.set_same
    refine ⟨?_, ?_, ?_⟩
    · rw [List.reverse_cons, List.reverse_append, List.reverse_singleton, List.singleton_append, List.cons_append,
        Cells.at_cons, Cells.at_append, Cells.at_singleton, List.length_reverse]
      exact ⟨hfirst, hat', hend⟩
    · have hset := ((Cells.Within.refl out i (i + (m.length + 2 : Nat)) c).set (Int.le_refl i) (by omega)
        (b := b)).set
        (show i ≤ i + 1 + m.length by omega) (by omega) (b := a)
      exact hset.trans (hwithin.mono (by omega) (by omega))
    · simp only [List.cons_append, List.nil_append, Prog.inside_read, Prog.inside_write]
      exact ⟨by omega, by omega, by omega, by omega, hinside⟩

theorem ends_httpReverseString {size : ν → Int} {l : List Byte} (h : c.At out 0 l)
    (hsize : (l.length : Int) ≤ size out) :
    Prog.Ends (httpReverseString out l.length) c fun _ c' log =>
      c'.At out 0 l.reverse ∧ Cells.Within out 0 l.length c c' ∧ Prog.Inside size log := by
  unfold httpReverseString
  rcases Nat.eq_zero_or_pos l.length with hzero | hpos
  · obtain rfl := List.eq_nil_of_length_eq_zero hzero
    rw [if_pos (show (([] : List Byte).length : Int) ≤ 0 from Int.le_refl 0)]
    exact Prog.ends_pure.mpr ⟨trivial, Cells.Within.refl _ _ _ _, trivial⟩
  · have hfuel : ((l.length : Int) / 2).toNat = l.length / 2 := by omega
    rw [if_neg (by omega), hfuel]
    refine (ends_reverseFrom hsize _ l 0 c h rfl (Int.le_refl 0) (by omega)).mono ?_
    rintro _ c' log ⟨hat, hwithin, hinside⟩
    rw [Int.zero_add] at hwithin
    exact ⟨hat, hwithin, hinside⟩

/-! ## One pass -/

theorem httpStringDecode_length (text : List Byte) (cic : Bool) :
    (httpStringDecode text cic).length ≤ text.length := by
  unfold httpStringDecode
  induction text with
  | nil => exact Nat.le_refl 0
  | cons b text ih => exact Nat.le_trans (httpStringDecodeStep_length _ _ _) (Nat.succ_le_succ ih)

/-- `_http_string_decode` with `ONLY_ONE_DECODE`, and `_http_reverse_string`. -/
def httpStringDecodeOnce (outString inString : ν) (inStringLen : Int) : Prog ν Byte Int := do
  let outLen ← httpStringDecodeInto outString inString inStringLen false
  httpReverseString outString outLen
  pure outLen

/-- The comparisons of a pass start in front of the buffer. -/
def passLooksBack (text : List Byte) : Bool := looksBackIn false text ([], 0)

theorem ends_httpStringDecodeOnce {inp : ν} {size : ν → Int} (hne : out ≠ inp) {text : List Byte}
    (hat : c.At inp 0 text) (hin : (text.length : Int) ≤ size inp) (hout : (text.length : Int) ≤ size out) :
    Prog.Ends (httpStringDecodeOnce out inp text.length) c fun r c' log =>
      r = (httpStringDecode text false).length ∧ c'.At out 0 (httpStringDecode text false) ∧
        Cells.Within out 0 text.length c c' ∧ (Prog.Inside size log ↔ passLooksBack text = false) := by
  have hle := httpStringDecode_length text false
  unfold httpStringDecodeOnce
  refine (ends_httpStringDecodeInto hne false hat hin hout).bind ?_
  rintro r c' log ⟨rfl, hholds, hwithin, -, hinside⟩
  have hlen : (httpStringDecode text false).reverse.length = (httpStringDecode text false).length :=
    List.length_reverse
  have hreverse := @ends_httpReverseString ν out c' _ size _ hholds (by omega)
  rw [hlen, List.reverse_reverse] at hreverse
  refine hreverse.bind ?_
  rintro _ c'' log' ⟨hat', hwithin', hinside'⟩
  refine Prog.ends_pure.mpr ⟨rfl, hat', ?_, ?_⟩
  · exact hwithin.trans (hwithin'.mono (Int.le_refl 0) (by omega))
  · rw [List.append_nil, Prog.inside_append, hinside]
    exact ⟨And.left, fun h => ⟨h, hinside'⟩⟩

/-- The buffer holds the text with every sequence replaced and a space for every `+`. -/
def DecodesPercents (zero : Bool) (out : ν) (text : List Byte) (r : Int) (c' : Cells ν Byte) : Prop :=
  r = (percentDecoded zero text).length ∧ c'.At out 0 (percentDecoded zero text)

/-- **One pass is exact** when no `%` is followed by a loose sequence, whether or not `%uff00` is
counted as a sequence. -/
theorem httpStringDecodeOnce_iff {inp : ν} (hne : out ≠ inp) (zero : Bool) (text : List Byte)
    (hat : c.At inp 0 text) :
    Prog.Ends (httpStringDecodeOnce out inp text.length) c
        (fun r c' _ => DecodesPercents zero out text r c') ↔
      occurs (loosePercent zero) text = false := by
  have hruns := @ends_httpStringDecodeOnce ν out c _ inp (fun _ => text.length) hne text hat (Int.le_refl _)
    (Int.le_refl _)
  rw [← httpStringDecode_eq_iff]
  constructor
  · intro h
    obtain ⟨_, _, ⟨hr, hat', _⟩, hr', hat''⟩ := hruns.and h
    exact hat'.inj hat'' (by omega)
  · intro heq
    rw [heq] at hruns
    exact hruns.mono fun _ _ _ h => ⟨h.1, h.2.1⟩

end

theorem httpStringDecodeOnce_two :
    Prog.Ends (httpStringDecodeOnce true false 15) (Cells.ofList (str "%41+%u0042%4%31") 7) fun r c' _ =>
      r = 6 ∧ c'.At true 0 (str "A B%41") := by
  have hdecoded : percentDecoded true (str "%41+%u0042%4%31") = str "A B%41" := by decide
  refine ((httpStringDecodeOnce_iff (by decide) true (str "%41+%u0042%4%31") (Cells.at_ofList _ _)).mpr
    (by decide)).mono ?_
  rintro r c' _ ⟨rfl, hat⟩
  rw [hdecoded] at hat ⊢
  exact ⟨rfl, hat⟩

/-- What stands behind `%uff` is decoded though it is no number. -/
theorem fullWidth_decodes :
    Prog.Ends (httpStringDecodeOnce true false 6) (Cells.ofList (str "%uffzz") 7)
        (fun r c' _ => r = 1 ∧ c'.At true 0 [15]) ∧
      percentDecoded true (str "%uffzz") = str "%uffzz" ∧ percentDecoded false (str "%uffzz") = str "%uffzz" ∧
      ¬ Prog.Ends (httpStringDecodeOnce true false 6) (Cells.ofList (str "%uffzz") 7)
        (fun r c' _ => DecodesPercents true true (str "%uffzz") r c') ∧
      ¬ Prog.Ends (httpStringDecodeOnce true false 6) (Cells.ofList (str "%uffzz") 7)
        (fun r c' _ => DecodesPercents false true (str "%uffzz") r c') := by
  have hruns : Prog.Ends (httpStringDecodeOnce true false 6) (Cells.ofList (str "%uffzz") 7)
      (fun r c' _ => r = 1 ∧ c'.At true 0 [15]) := by
    have hcode : httpStringDecode (str "%uffzz") false = [15] := by decide
    refine (@ends_httpStringDecodeOnce Bool true (Cells.ofList (str "%uffzz") 7) _ false (fun _ => 6) (by decide)
      (str "%uffzz") (Cells.at_ofList _ _) (by decide) (by decide)).mono ?_
    rintro r c' _ ⟨rfl, hat, _⟩
    rw [hcode] at hat ⊢
    exact ⟨rfl, hat⟩
  have hdecoded : ∀ zero, percentDecoded zero (str "%uffzz") = str "%uffzz" := by decide
  have hno : ∀ zero, ¬ Prog.Ends (httpStringDecodeOnce true false 6) (Cells.ofList (str "%uffzz") 7)
      (fun r c' _ => DecodesPercents zero true (str "%uffzz") r c') := by
    intro zero h
    obtain ⟨_, _, ⟨hr, _⟩, hr', _⟩ := hruns.and h
    rw [hr, hdecoded] at hr'
    exact absurd hr' (by decide)
  exact ⟨hruns, hdecoded true, hdecoded false, hno true, hno false⟩

end WafProxy
