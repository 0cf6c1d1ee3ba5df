import WafProxy.Http.Backward
import WafProxy.Http.References

/-
  The rounds of `http_decode_string` — http_decode.c

  The text is copied to `tmp_buf` and goes through the decoders its flags ask for, up
  to sixteen times. The first two work in place; the percent decoder writes to
  `out_string` and is copied back, and then another round always follows.

  What is proved:
    1. `ends_decodeRound`, `ends_httpDecodeStringInto` — what a round and the whole run
       leave is what the list decoder says; each says which of its accesses lie outside.
    2. `httpDecodeStringInto_fixed` — without the URL flag, decoding the result again
       changes nothing, unless each of sixteen rounds shortened the text.
    3. `httpDecodeStringInto_length` — no length is negative or grows.

  Correspondence (C ↔ Lean):
    `out_string`, `tmp_buf`, `in_string`   ↔ `DecodeArray`
    the two in-place decoders in the loop  ↔ `shortenStep`
    `strlcpy2`                             ↔ `strlcpy2Into`
    one turn of the loop                   ↔ `decodeRound`
    `http_decode_string`                   ↔ `httpDecodeStringInto`
-/

namespace WafProxy
open Lib

/-! ## The model -/

inductive DecodeArray where
  | inString
  | outString
  | tmpBuf
  deriving DecidableEq, Repr

/-- `strlcpy2(dst, dlen, src, slen)`, from the beginning of both. -/
def strlcpy2Into (dst src : DecodeArray) (dlen slen : Int) : Prog DecodeArray Byte Int := do
  Prog.copy dst src (min (dlen - 1) slen).toNat 0 0
  Prog.write dst (min (dlen - 1) slen) 0
  pure (min (dlen - 1) slen)

/-- One of the decoders in place, if its flag is set: `tmp_buf_len`, and whether it changed. -/
def shortenStep (on : Bool) (decode : DecodeArray → Int → Prog DecodeArray Byte Int) (tmpBufLen : Int) :
    Prog DecodeArray Byte (Int × Bool) :=
  if on then do
    let newLen ← decode .tmpBuf tmpBufLen
    Prog.write .tmpBuf newLen 0
    pure (newLen, decide (newLen ≠ tmpBufLen))
  else pure (tmpBufLen, false)

/-- The percent decoder, or a copy of a text that is too short for it: `new_len3`. -/
def urlDecode (maxUrlOutLen inStringLen tmpBufLen : Int) : Prog DecodeArray Byte Int :=
  if 2 < inStringLen then httpStringDecodeOnce .outString .tmpBuf tmpBufLen
  else strlcpy2Into .outString .tmpBuf maxUrlOutLen tmpBufLen

/-- `GET_NEED_URL_DECODE`: `tmp_buf_len`. -/
def urlStep (maxUrlOutLen inStringLen tmpBufLen : Int) : Prog DecodeArray Byte Int := do
  let newLen3 ← urlDecode maxUrlOutLen inStringLen tmpBufLen
  Prog.write .outString newLen3 0
  strlcpy2Into .tmpBuf .outString MAX_DECODE_LEN newLen3

/-- What the third decoder makes of `tmp_buf_len`. -/
def urlStepIf (on : Bool) (maxUrlOutLen inStringLen tmpBufLen : Int) : Prog DecodeArray Byte Int :=
  if on then urlStep maxUrlOutLen inStringLen tmpBufLen else pure tmpBufLen

/-- One turn of the loop: `tmp_buf_len`, `out_string_len`, and `flag`. -/
def decodeRound (flag : DecodeFlag) (maxUrlOutLen inStringLen tmpBufLen : Int) :
    Prog DecodeArray Byte (Int × Int × Bool) := do
  let html ← shortenStep flag.html httpHtmlEntitiesDecodeInplace tmpBufLen
  let escape ← shortenStep flag.escape httpEscapeDecodeInplace html.1
  let tmpBufLen ← urlStepIf flag.url maxUrlOutLen inStringLen escape.1
  let outStringLen ← strlcpy2Into .outString .tmpBuf maxUrlOutLen tmpBufLen
  pure (tmpBufLen, outStringLen, html.2 || escape.2 || flag.url)

/-- `while( flag ==1 && cnt-->0)`: `out_string_len`. -/
def decodeRounds (flag : DecodeFlag) (maxUrlOutLen inStringLen : Int) : Nat → Int → Int → Prog DecodeArray Byte Int
  | 0, _, outStringLen => pure outStringLen
  | cnt + 1, tmpBufLen, _ => do
    let r ← decodeRound flag maxUrlOutLen inStringLen tmpBufLen
    if r.2.2 then decodeRounds flag maxUrlOutLen inStringLen cnt r.1 r.2.1 else pure r.2.1

/-- `http_decode_string`. What `tmp_buf` holds at first is never read. -/
def httpDecodeStringInto (flag : DecodeFlag) (maxUrlOutLen inStringLen : Int) : Prog DecodeArray Byte Int :=
  if maxUrlOutLen < inStringLen then pure 0
  else if inStringLen ≤ 0 then pure 0
  else if MAX_DECODE_LEN < inStringLen then pure (-1)
  else do
    Prog.copy .tmpBuf .inString inStringLen.toNat 0 0
    Prog.write .tmpBuf inStringLen 0
    decodeRounds flag maxUrlOutLen inStringLen 16 inStringLen 0

/-! ## The pieces of a round -/

section
variable {size : DecodeArray → Int} {c : Cells DecodeArray Byte}

theorem ends_strlcpy2Into {dst src : DecodeArray} (hne : dst ≠ src) {l : List Byte} (hat : c.At src 0 l)
    {dlen : Nat}
    (hdlen : 0 < dlen) (hsrc : (l.length : Int) ≤ size src) (hdst : min ((dlen : Int) - 1) l.length < size dst) :
    Prog.Ends (strlcpy2Into dst src dlen l.length) c fun r c' log =>
      r = (l.take (dlen - 1)).length ∧ c'.At dst 0 (l.take (dlen - 1) ++ [0]) ∧
        Cells.Within dst 0 (l.length + 1) c c' ∧ Prog.Inside size log := by
  have hlen : min ((dlen : Int) - 1) l.length = (l.take (dlen - 1)).length := by
    rw [List.length_take]
    omega
  have htake : c.At src 0 (l.take (dlen - 1)) := by
    rw [← List.take_append_drop (dlen - 1) l, Cells.at_append] at hat
    exact hat.1
  have hle : (l.take (dlen - 1)).length ≤ l.length := (List.take_prefix _ _).length_le
  rw [hlen] at hdst
  unfold strlcpy2Into
  rw [hlen, Int.toNat_natCast]
  have hcopy := @Prog.ends_copy DecodeArray Byte _ dst src size hne (l.take (dlen - 1)) 0 0 c htake (Int.le_refl 0)
    (by omega) (Int.le_refl 0) (by omega)
  refine hcopy.bind ?_
  rintro _ c' log ⟨hat', hwithin, hinside⟩
  rw [Prog.ends_bind, Prog.ends_write, Prog.ends_pure]
  refine ⟨rfl, Cells.At.push hat' (Int.zero_add _).symm, ?_, ?_⟩
  · exact (hwithin.mono (Int.le_refl 0) (by omega)).set (by omega) (by omega)
  · exact Prog.inside_append.mpr ⟨hinside, ⟨by omega, hdst⟩, trivial⟩

/-- A decoder in place, as the round uses it. -/
def InPlace (decode : DecodeArray → Int → Prog DecodeArray Byte Int) (f : List Byte → List Byte) : Prop :=
  ∀ (size : DecodeArray → Int) (c : Cells DecodeArray Byte) (text : List Byte), c.At .tmpBuf 0 (text ++ [0]) →
    text.length ≤ MAX_DECODE_LEN → (text.length : Int) < size .tmpBuf →
    Prog.Ends (decode .tmpBuf text.length) c fun r c' log =>
      r = (f text).length ∧ c'.At .tmpBuf 0 (f text) ∧ Prog.Inside size log

theorem httpHtmlEntitiesDecode_inPlace : InPlace httpHtmlEntitiesDecodeInplace httpHtmlEntitiesDecode := by
  intro size c text hat hmax hsize
  rcases List.eq_nil_or_concat text with rfl | ⟨l, b, rfl⟩
  · have hrun : httpHtmlEntitiesDecodeInplace DecodeArray.tmpBuf (([] : List Byte).length : Nat) = pure 0 :=
      if_pos (Or.inl (Int.le_refl 0))
    rw [hrun]
    exact Prog.ends_pure.mpr ⟨rfl, trivial, trivial⟩
  · refine (httpHtmlEntitiesDecodeInplace_refines (by simp) hmax hat hsize).mono ?_
    rintro r c' log ⟨rfl, hat', -, hinside⟩
    exact ⟨rfl, (Cells.at_append.mp hat').1, hinside⟩

theorem httpEscapeDecode_inPlace : InPlace httpEscapeDecodeInplace httpEscapeDecode := by
  intro size c text hat _ hsize
  refine (httpEscapeDecodeInplace_refines hat hsize).mono ?_
  rintro r c' log ⟨rfl, hat', -, hlog⟩
  exact ⟨rfl, hat', hlog.inside⟩

theorem ends_shortenStep {decode : DecodeArray → Int → Prog DecodeArray Byte Int} {f : List Byte → List Byte}
    (hdecode : InPlace decode f) (on : Bool) {text : List Byte} (hf : (f text).length ≤ text.length)
    (hat : c.At .tmpBuf 0 (text ++ [0])) (hmax : text.length ≤ MAX_DECODE_LEN)
    (hsize : (text.length : Int) < size .tmpBuf) :
    Prog.Ends (shortenStep on decode text.length) c fun r c' log =>
      r = (((if on then f text else text).length : Int),
        decide ((if on then f text else text).length ≠ text.length)) ∧
        c'.At .tmpBuf 0 ((if on then f text else text) ++ [0]) ∧ Prog.Inside size log := by
  unfold shortenStep
  cases on with
  | false =>
    refine Prog.ends_pure.mpr ⟨?_, hat, trivial⟩
    simp
  | true =>
    rw [if_pos rfl]
    refine (hdecode size c text hat hmax hsize).bind ?_
    rintro r c' log ⟨rfl, hat', hinside⟩
    rw [Prog.ends_bind, Prog.ends_write, Prog.ends_pure, if_pos rfl]
    refine ⟨?_, Cells.At.push hat' (Int.zero_add _).symm, ?_⟩
    · rw [Prod.mk.injEq]
      exact ⟨rfl, decide_eq_decide.mpr (by omega)⟩
    · exact Prog.inside_append.mpr ⟨hinside, ⟨by omega, by omega⟩, trivial⟩

/-- What the third decoder emits. -/
def urlDecoded (maxUrlOutLen inStringLen : Nat) (text : List Byte) : List Byte :=
  if 2 < inStringLen then httpStringDecode text false else text.take (maxUrlOutLen - 1)

/-- The comparisons of a URL pass stay in the buffer, and so does its NUL. -/
def UrlInside (maxUrlOutLen inStringLen : Nat) (text : List Byte) : Prop :=
  2 < inStringLen → passLooksBack text = false ∧ (httpStringDecode text false).length < maxUrlOutLen

theorem urlDecoded_length {maxUrlOutLen inStringLen : Nat} {text : List Byte} :
    (urlDecoded maxUrlOutLen inStringLen text).length ≤ text.length := by
  unfold urlDecoded
  split
  · exact httpStringDecode_length _ _
  · exact (List.take_prefix _ _).length_le

variable {maxUrlOutLen inStringLen : Nat}

/-- The buffers as the callers size them; the text fits into `tmp_buf` with its NUL. -/
structure Room (size : DecodeArray → Int) (maxUrlOutLen inStringLen : Nat) : Prop where
  text : 0 < inStringLen
  fits : inStringLen ≤ maxUrlOutLen
  limit : inStringLen ≤ MAX_DECODE_LEN
  out : size .outString = maxUrlOutLen
  tmp : (MAX_DECODE_LEN : Int) ≤ size .tmpBuf
  nul : (inStringLen : Int) < size .tmpBuf

theorem ends_urlDecode (h : Room size maxUrlOutLen inStringLen) {text : List Byte}
    (hlen : text.length ≤ inStringLen)
    (hat : c.At .tmpBuf 0 (text ++ [0])) :
    Prog.Ends (urlDecode maxUrlOutLen inStringLen text.length) c fun r c' log =>
      r = (urlDecoded maxUrlOutLen inStringLen text).length ∧
        c'.At .outString 0 (urlDecoded maxUrlOutLen inStringLen text) ∧
        (Prog.Inside size log ↔ (2 < inStringLen → passLooksBack text = false)) := by
  obtain ⟨hpos, hfits, hlimit, hout, htmp, hnul⟩ := h
  have hat := (Cells.at_append.mp hat).1
  unfold urlDecode urlDecoded
  by_cases hlong : 2 < inStringLen
  · rw [if_pos (by omega), if_pos hlong]
    refine (@ends_httpStringDecodeOnce _ .outString c _ .tmpBuf size (by decide) text hat (by omega)
      (by omega)).mono ?_
    rintro r c' log ⟨rfl, hat', -, hinside⟩
    exact ⟨rfl, hat', hinside.trans ⟨fun h _ => h, fun h => h hlong⟩⟩
  · rw [if_neg (by omega), if_neg hlong]
    refine (@ends_strlcpy2Into size c .outString .tmpBuf (by decide) text hat maxUrlOutLen (by omega) (by omega)
      (by omega)).mono ?_
    rintro r c' log ⟨rfl, hat', -, hinside⟩
    exact ⟨rfl, (Cells.at_append.mp hat').1, fun _ hyes => absurd hyes hlong, fun _ => hinside⟩

theorem ends_urlStep (h : Room size maxUrlOutLen inStringLen) {text : List Byte} (hlen : text.length ≤ inStringLen)
    (hat : c.At .tmpBuf 0 (text ++ [0])) :
    Prog.Ends (urlStep maxUrlOutLen inStringLen text.length) c fun r c' log =>
      r = ((urlDecoded maxUrlOutLen inStringLen text).take (MAX_DECODE_LEN - 1)).length ∧
        c'.At .tmpBuf 0 ((urlDecoded maxUrlOutLen inStringLen text).take (MAX_DECODE_LEN - 1) ++ [0]) ∧
        (Prog.Inside size log ↔ UrlInside maxUrlOutLen inStringLen text) := by
  have hdecode := ends_urlDecode h hlen hat
  obtain ⟨hpos, hfits, hlimit, hout, htmp, hnul⟩ := h
  have hle := @urlDecoded_length maxUrlOutLen inStringLen text
  have hmaxlen : MAX_DECODE_LEN = 16384 := rfl
  unfold urlStep
  refine hdecode.bind ?_
  rintro r c' log ⟨rfl, hat', hinside⟩
  rw [Prog.ends_bind, Prog.ends_write]
  have hat'' : (c'.set .outString (urlDecoded maxUrlOutLen inStringLen text).length 0).At .outString 0
      (urlDecoded maxUrlOutLen inStringLen text) := hat'.set (Or.inr (Or.inr (by omega)))
  refine (@ends_strlcpy2Into size _ .tmpBuf .outString (by decide) _ hat'' MAX_DECODE_LEN (by decide) (by omega)
    (by omega)).mono ?_
  rintro r c'' log' ⟨rfl, hcopy, -, hinside'⟩
  refine ⟨rfl, hcopy, ?_⟩
  rw [List.singleton_append, Prog.inside_append, Prog.inside_write, hinside]
  unfold UrlInside
  by_cases hlong : 2 < inStringLen
  · have heq : urlDecoded maxUrlOutLen inStringLen text = httpStringDecode text false := if_pos hlong
    rw [heq]
    refine ⟨fun hin _ => ⟨hin.1 hlong, by omega⟩, fun hin => ⟨fun _ => (hin hlong).1, ?_, hinside'⟩⟩
    have hlt := (hin hlong).2
    omega
  · have heq : urlDecoded maxUrlOutLen inStringLen text = text.take (maxUrlOutLen - 1) := if_neg hlong
    have hshort : (text.take (maxUrlOutLen - 1)).length ≤ maxUrlOutLen - 1 := List.length_take_le _ _
    rw [heq]
    exact ⟨fun _ hyes => absurd hyes hlong, fun _ => ⟨fun hyes => absurd hyes hlong, by omega, hinside'⟩⟩

/-! ## Rounds -/

/-- What the two decoders in place make of the text of a round. -/
def shortened (flag : DecodeFlag) (tmp : List Byte) : List Byte :=
  let tmp1 := if flag.html then httpHtmlEntitiesDecode tmp else tmp
  if flag.escape then httpEscapeDecode tmp1 else tmp1

theorem html_length (flag : DecodeFlag) (tmp : List Byte) :
    (if flag.html then httpHtmlEntitiesDecode tmp else tmp).length ≤ tmp.length :=
  ((httpHtmlEntitiesDecode_shortens tmp).ite flag.html).length_le

theorem shortened_length (flag : DecodeFlag) (tmp : List Byte) : (shortened flag tmp).length ≤ tmp.length :=
  Nat.le_trans ((httpEscapeDecode_shortens _).ite flag.escape).length_le (html_length flag tmp)

theorem httpDecodeRound_url (flag : DecodeFlag) (maxUrlOutLen inStringLen : Nat) (tmp : List Byte) :
    (httpDecodeRound flag maxUrlOutLen inStringLen tmp).1 =
      if flag.url then (urlDecoded maxUrlOutLen inStringLen (shortened flag tmp)).take (MAX_DECODE_LEN - 1)
      else shortened flag tmp := by
  unfold httpDecodeRound urlDecoded shortened
  dsimp only
  split <;> rfl

/-- Another round follows if one of the lengths changed, and always with the URL flag. -/
theorem httpDecodeRound_flag (flag : DecodeFlag) (maxUrlOutLen inStringLen : Nat) (tmp : List Byte) :
    (httpDecodeRound flag maxUrlOutLen inStringLen tmp).2 =
      (decide ((if flag.html then httpHtmlEntitiesDecode tmp else tmp).length ≠ tmp.length) ||
        decide ((shortened flag tmp).length ≠ (if flag.html then httpHtmlEntitiesDecode tmp else tmp).length) ||
        flag.url) := by
  unfold httpDecodeRound shortened
  dsimp only
  cases flag.url with
  | true => simp
  | false => simp

theorem httpDecodeRound_length_le (flag : DecodeFlag) (maxUrlOutLen inStringLen : Nat) (tmp : List Byte) :
    (httpDecodeRound flag maxUrlOutLen inStringLen tmp).1.length ≤ tmp.length := by
  have hle := shortened_length flag tmp
  have hurl := @urlDecoded_length maxUrlOutLen inStringLen (shortened flag tmp)
  rw [httpDecodeRound_url]
  split
  · exact Nat.le_trans (List.take_prefix _ _).length_le (Nat.le_trans hurl hle)
  · exact hle

/-- The accesses of a round stay inside. -/
def RoundInside (flag : DecodeFlag) (maxUrlOutLen inStringLen : Nat) (tmp : List Byte) : Prop :=
  flag.url = true → UrlInside maxUrlOutLen inStringLen (shortened flag tmp)

/-- **One round** does to the buffers what `httpDecodeRound` does to the text. -/
theorem ends_decodeRound (h : Room size maxUrlOutLen inStringLen) (flag : DecodeFlag) {tmp : List Byte}
    (hlen : tmp.length ≤ inStringLen) (hat : c.At .tmpBuf 0 (tmp ++ [0])) :
    Prog.Ends (decodeRound flag maxUrlOutLen inStringLen tmp.length) c fun r c' log =>
      r.1 = (httpDecodeRound flag maxUrlOutLen inStringLen tmp).1.length ∧
        r.2.1 = ((httpDecodeRound flag maxUrlOutLen inStringLen tmp).1.take (maxUrlOutLen - 1)).length ∧
        r.2.2 = (httpDecodeRound flag maxUrlOutLen inStringLen tmp).2 ∧
        c'.At .tmpBuf 0 ((httpDecodeRound flag maxUrlOutLen inStringLen tmp).1 ++ [0]) ∧
        c'.At .outString 0 ((httpDecodeRound flag maxUrlOutLen inStringLen tmp).1.take (maxUrlOutLen - 1) ++ [0]) ∧
        (Prog.Inside size log ↔ RoundInside flag maxUrlOutLen inStringLen tmp) := by
  obtain ⟨hpos, hfits, hlimit, hout, htmp, hnul⟩ := id h
  have hhtml := html_length flag tmp
  have hboth := shortened_length flag tmp
  have hround := httpDecodeRound_length_le flag maxUrlOutLen inStringLen tmp
  unfold decodeRound
  refine (@ends_shortenStep size c _ _ httpHtmlEntitiesDecode_inPlace flag.html tmp
    (httpHtmlEntitiesDecode_shortens tmp).length_le hat (by omega) (by omega)).bind ?_
  rintro _ c₁ log₁ ⟨rfl, hat₁, hinside₁⟩
  refine (@ends_shortenStep size c₁ _ _ httpEscapeDecode_inPlace flag.escape _
    (httpEscapeDecode_shortens _).length_le hat₁ (by omega) (by omega)).bind ?_
  rintro _ c₂ log₂ ⟨rfl, hat₂, hinside₂⟩
  have hurl : Prog.Ends (urlStepIf flag.url maxUrlOutLen inStringLen (shortened flag tmp).length) c₂ fun r d log =>
      r = (httpDecodeRound flag maxUrlOutLen inStringLen tmp).1.length ∧
        d.At .tmpBuf 0 ((httpDecodeRound flag maxUrlOutLen inStringLen tmp).1 ++ [0]) ∧
        (Prog.Inside size log ↔ RoundInside flag maxUrlOutLen inStringLen tmp) := by
    rw [httpDecodeRound_url]
    unfold urlStepIf RoundInside
    cases flag.url with
    | true =>
      rw [if_pos rfl, if_pos rfl]
      refine (ends_urlStep h (Nat.le_trans hboth hlen) hat₂).mono ?_
      rintro r d log ⟨rfl, hat, hinside⟩
      exact ⟨rfl, hat, hinside.trans ⟨fun hin _ => hin, fun hin => hin rfl⟩⟩
    | false =>
      rw [if_neg Bool.false_ne_true, if_neg Bool.false_ne_true]
      exact Prog.ends_pure.mpr ⟨rfl, hat₂, fun _ hno => (by cases hno), fun _ => trivial⟩
  refine hurl.bind ?_
  rintro _ c₃ log₃ ⟨rfl, hat₃, hinside₃⟩
  refine (@ends_strlcpy2Into size c₃ .outString .tmpBuf (by decide) _ (Cells.at_append.mp hat₃).1 maxUrlOutLen
    (by omega) (by omega) (by omega)).bind ?_
  rintro _ c₄ log₄ ⟨rfl, hat₄, hwithin, hinside₄⟩
  refine Prog.ends_pure.mpr ⟨rfl, rfl, ?_, ?_, hat₄, ?_⟩
  · exact (httpDecodeRound_flag flag maxUrlOutLen inStringLen tmp).symm
  · exact hat₃.within hwithin (Or.inl (by decide))
  · rw [List.append_nil, Prog.inside_append, Prog.inside_append, Prog.inside_append, hinside₃]
    exact ⟨fun hin => hin.2.2.1, fun hin => ⟨hinside₁, hinside₂, hin, hinside₄⟩⟩

/-! ## The whole run -/

/-- The accesses of all rounds stay inside. -/
def RoundsInside (flag : DecodeFlag) (maxUrlOutLen inStringLen : Nat) : Nat → List Byte → Prop
  | 0, _ => True
  | cnt + 1, tmp => RoundInside flag maxUrlOutLen inStringLen tmp ∧
      ((httpDecodeRound flag maxUrlOutLen inStringLen tmp).2 = true →
        RoundsInside flag maxUrlOutLen inStringLen cnt (httpDecodeRound flag maxUrlOutLen inStringLen tmp).1)

/-- A text in `out_string`, as far as there is room, and its length. -/
def InOut (maxUrlOutLen : Nat) (tmp : List Byte) (r : Int) (c : Cells DecodeArray Byte) : Prop :=
  r = (tmp.take (maxUrlOutLen - 1)).length ∧ c.At .outString 0 (tmp.take (maxUrlOutLen - 1) ++ [0])

theorem ends_decodeRounds (h : Room size maxUrlOutLen inStringLen) (flag : DecodeFlag) : ∀ (cnt : Nat)
    (tmp : List Byte) (outStringLen : Int) (c : Cells DecodeArray Byte), tmp.length ≤ inStringLen →
    c.At .tmpBuf 0 (tmp ++ [0]) → (cnt = 0 → InOut maxUrlOutLen tmp outStringLen c) →
    Prog.Ends (decodeRounds flag maxUrlOutLen inStringLen cnt tmp.length outStringLen) c fun r c' log =>
      InOut maxUrlOutLen (httpDecodeLoop flag maxUrlOutLen inStringLen cnt tmp) r c' ∧
        (Prog.Inside size log ↔ RoundsInside flag maxUrlOutLen inStringLen cnt tmp) := by
  intro cnt
  induction cnt with
  | zero =>
    intro tmp outStringLen c _ _ hout
    exact Prog.ends_pure.mpr ⟨hout rfl, fun _ => trivial, fun _ => trivial⟩
  | succ cnt ih =>
    intro tmp outStringLen c hlen hat _
    have hround := httpDecodeRound_length_le flag maxUrlOutLen inStringLen tmp
    rw [decodeRounds, httpDecodeLoop_succ, RoundsInside]
    refine (ends_decodeRound h flag hlen hat).bind ?_
    rintro ⟨r, out, again⟩ c₁ log₁ ⟨rfl, rfl, rfl, hat₁, hout₁, hinside₁⟩
    cases hagain : (httpDecodeRound flag maxUrlOutLen inStringLen tmp).2 with
    | true =>
      rw [if_pos rfl, if_pos rfl]
      refine (ih _ _ c₁ (Nat.le_trans hround hlen) hat₁ fun _ => ⟨rfl, hout₁⟩).mono ?_
      rintro r c₂ log₂ ⟨hin, hinside₂⟩
      refine ⟨hin, ?_⟩
      rw [Prog.inside_append, hinside₁, hinside₂]
      exact and_congr_right fun _ => ⟨fun hrest _ => hrest, fun hrest => hrest rfl⟩
    | false =>
      rw [if_neg Bool.false_ne_true, if_neg Bool.false_ne_true]
      refine Prog.ends_pure.mpr ⟨⟨rfl, hout₁⟩, ?_⟩
      rw [List.append_nil, hinside₁]
      exact ⟨fun hin => ⟨hin, fun hno => (by cases hno)⟩, And.left⟩

/-- **The run** leaves the decoded text, and its accesses lie inside if those of all rounds do. -/
theorem ends_httpDecodeStringInto (flag : DecodeFlag) {text : List Byte} (h : Room size maxUrlOutLen text.length)
    (hinp : (text.length : Int) ≤ size .inString) (hat : c.At .inString 0 text) :
    Prog.Ends (httpDecodeStringInto flag maxUrlOutLen text.length) c fun r c' log =>
      r = (httpDecodeString maxUrlOutLen text flag).length ∧
        c'.At .outString 0 (httpDecodeString maxUrlOutLen text flag ++ [0]) ∧
        (Prog.Inside size log ↔ RoundsInside flag maxUrlOutLen text.length 16 text) := by
  obtain ⟨hpos, hfits, hlimit, hout, htmp, hnul⟩ := id h
  have hlist : httpDecodeString maxUrlOutLen text flag =
      (httpDecodeLoop flag maxUrlOutLen text.length 16 text).take (maxUrlOutLen - 1) := by
    rw [httpDecodeString, if_neg (by omega)]
  rw [hlist]
  unfold httpDecodeStringInto
  rw [if_neg (by omega), if_neg (by omega), if_neg (by omega), Int.toNat_natCast]
  refine (@Prog.ends_copy DecodeArray Byte _ .tmpBuf .inString size (by decide) text 0 0 c hat (Int.le_refl 0)
    (by omega) (Int.le_refl 0) (by omega)).bind ?_
  rintro _ c₁ log₁ ⟨hat₁, -, hinside₁⟩
  rw [Prog.ends_bind, Prog.ends_write]
  have hat₂ : (c₁.set .tmpBuf text.length 0).At .tmpBuf 0 (text ++ [0]) := Cells.At.push hat₁ (Int.zero_add _).symm
  refine (ends_decodeRounds h flag 16 text 0 _ (Nat.le_refl _) hat₂ fun hno => (by cases hno)).mono ?_
  rintro r c₂ log₂ ⟨⟨rfl, hat₃⟩, hinside₂⟩
  refine ⟨rfl, hat₃, ?_⟩
  rw [List.singleton_append, Prog.inside_append, Prog.inside_write, hinside₂]
  exact ⟨fun hin => hin.2.2, fun hin => ⟨hinside₁, by omega, hin⟩⟩

end

/-- Buffers that are large enough for any text. -/
def roomy (maxUrlOutLen : Nat) : DecodeArray → Int
  | .inString => MAX_DECODE_LEN
  | .outString => maxUrlOutLen
  | .tmpBuf => MAX_DECODE_LEN + 1

theorem roomy_room {maxUrlOutLen : Nat} {text : List Byte} (hne : text ≠ []) (hfits : text.length ≤ maxUrlOutLen)
    (hlimit : text.length ≤ MAX_DECODE_LEN) : Room (roomy maxUrlOutLen) maxUrlOutLen text.length where
  text := List.length_pos_iff.mpr hne
  fits := hfits
  limit := hlimit
  out := rfl
  tmp := Int.le_add_one (Int.le_refl _)
  nul := by
    show (text.length : Int) < MAX_DECODE_LEN + 1
    omega

/-- Whatever the buffers' sizes, the text and its length. -/
theorem ends_httpDecodeStringInto_text {c : Cells DecodeArray Byte} (flag : DecodeFlag) {maxUrlOutLen : Nat}
    {text : List Byte} (hfits : text.length ≤ maxUrlOutLen) (hlimit : text.length ≤ MAX_DECODE_LEN)
    (hat : c.At .inString 0 text) :
    Prog.Ends (httpDecodeStringInto flag maxUrlOutLen text.length) c fun r c' _ =>
      r = (httpDecodeString maxUrlOutLen text flag).length ∧
        c'.At .outString 0 (httpDecodeString maxUrlOutLen text flag) := by
  by_cases hne : text = []
  · subst hne
    have hlist : ∀ cnt, httpDecodeLoop flag maxUrlOutLen 0 cnt [] = [] := by
      intro cnt
      induction cnt with
      | zero => rfl
      | succ cnt ih =>
        have hround : (httpDecodeRound flag maxUrlOutLen 0 []).1 = [] :=
          List.eq_nil_of_length_eq_zero (Nat.le_zero.mp (httpDecodeRound_length_le flag maxUrlOutLen 0 []))
        rw [httpDecodeLoop_succ, hround, ih]
        split <;> rfl
    have hnil : httpDecodeString maxUrlOutLen [] flag = [] := by
      unfold httpDecodeString
      split
      · rfl
      · rw [List.length_nil, hlist, List.take_nil]
    have hrun : httpDecodeStringInto flag maxUrlOutLen (([] : List Byte).length : Nat) = pure 0 := by
      unfold httpDecodeStringInto
      rw [List.length_nil, if_neg (by omega), if_pos (show ((0 : Nat) : Int) ≤ 0 from Int.le_refl 0)]
    rw [hrun, hnil]
    exact Prog.ends_pure.mpr ⟨rfl, trivial⟩
  · refine (ends_httpDecodeStringInto flag (roomy_room hne hfits hlimit) ?_ hat).mono ?_
    · show (text.length : Int) ≤ MAX_DECODE_LEN
      omega
    · rintro r c' log ⟨rfl, hat', -⟩
      exact ⟨rfl, (Cells.at_append.mp hat').1⟩

theorem httpDecodeLoop_length_le (flag : DecodeFlag) (maxUrlOutLen inStringLen : Nat) :
    ∀ (cnt : Nat) (tmp : List Byte),
    (httpDecodeLoop flag maxUrlOutLen inStringLen cnt tmp).length ≤ tmp.length := by
  intro cnt
  induction cnt with
  | zero => exact fun _ => Nat.le_refl _
  | succ cnt ih =>
    intro tmp
    have hround := httpDecodeRound_length_le flag maxUrlOutLen inStringLen tmp
    rw [httpDecodeLoop_succ]
    split
    · exact Nat.le_trans (ih _) hround
    · exact hround

theorem httpDecodeString_length_le (maxUrlOutLen : Nat) (text : List Byte) (flag : DecodeFlag) :
    (httpDecodeString maxUrlOutLen text flag).length ≤ text.length := by
  unfold httpDecodeString
  split
  · exact Nat.zero_le _
  · exact Nat.le_trans (List.take_prefix _ _).length_le (httpDecodeLoop_length_le _ _ _ _ _)

/-- **No length grows or is negative**: neither the one that is returned, nor those the percent
decoder keeps, which never pass the bytes it has read. -/
theorem httpDecodeStringInto_length (flag : DecodeFlag) {maxUrlOutLen : Nat} {text : List Byte}
    (hlen : 1 ≤ text.length ∧ text.length ≤ 8191) (hmax : text.length < maxUrlOutLen) {c : Cells DecodeArray Byte}
    (hat : c.At .inString 0 text) :
    Prog.Ends (httpDecodeStringInto flag maxUrlOutLen text.length) c
        (fun r _ _ => 0 ≤ r ∧ r ≤ text.length) ∧
      ∀ (tmp : List Byte) (cic : Bool) (d : Cells DecodeArray Byte), d.At .tmpBuf 0 tmp →
        Prog.Ends (httpStringDecodeInto .outString .tmpBuf tmp.length cic) d fun r _ log =>
          0 ≤ r ∧ r ≤ tmp.length ∧ Prog.ValuesWithin .tmpBuf 0 log := by
  have hlimit : MAX_DECODE_LEN = 16384 := rfl
  constructor
  · refine (ends_httpDecodeStringInto_text flag (Nat.le_of_lt hmax) (by omega) hat).mono ?_
    rintro r c' _ ⟨rfl, -⟩
    have hle := httpDecodeString_length_le maxUrlOutLen text flag
    omega
  · intro tmp cic d hd
    refine (@ends_httpStringDecodeInto _ .outString d _ .tmpBuf (fun _ => tmp.length) (by decide) cic tmp hd
      (Int.le_refl _) (Int.le_refl _)).mono ?_
    rintro r d' log ⟨rfl, -, -, hvalues, -⟩
    have hle := httpStringDecode_length tmp cic
    exact ⟨by omega, by omega, hvalues⟩

theorem httpDecodeStringInto_length_five :
    Prog.Ends (httpDecodeStringInto { url := true } 6 5) (Cells.ofList (str "a%41b") 7) fun r _ _ =>
      0 ≤ r ∧ r ≤ 5 :=
  (httpDecodeStringInto_length { url := true }
    (show 1 ≤ (str "a%41b").length ∧ (str "a%41b").length ≤ 8191 by decide)
    (by decide) (Cells.at_ofList _ _)).1

/-! ## Without the URL flag -/

/-- The text before a round. -/
def roundText (flag : DecodeFlag) (maxUrlOutLen inStringLen : Nat) : Nat → List Byte → List Byte
  | 0, tmp => tmp
  | i + 1, tmp => roundText flag maxUrlOutLen inStringLen i (httpDecodeRound flag maxUrlOutLen inStringLen tmp).1

/-- Neither of the selected decoders changes the text. -/
def Settled (flag : DecodeFlag) (tmp : List Byte) : Prop :=
  (flag.html = true → httpHtmlEntitiesDecode tmp = tmp) ∧ (flag.escape = true → httpEscapeDecode tmp = tmp)

theorem Shortens.eq_of_length {enc : Bool} {same out : List Byte} (h : Shortens enc same out)
    (hlen : out.length = same.length) : out = same := by
  cases henc : enc with
  | false => exact h.unchanged henc
  | true =>
    have hlt := (h.shorter henc).1
    omega

/-- **A round** without the URL decoder shortens the text, or neither decoder changes it. -/
theorem httpDecodeRound_settled {flag : DecodeFlag} (hurl : flag.url = false) (maxUrlOutLen inStringLen : Nat)
    (tmp : List Byte) :
    if (httpDecodeRound flag maxUrlOutLen inStringLen tmp).2 = true then
      (httpDecodeRound flag maxUrlOutLen inStringLen tmp).1.length < tmp.length
    else (httpDecodeRound flag maxUrlOutLen inStringLen tmp).1 = tmp ∧ Settled flag tmp := by
  have hescape := (httpEscapeDecode_shortens (if flag.html then httpHtmlEntitiesDecode tmp else tmp)).ite
    flag.escape
  have hhtml := (httpHtmlEntitiesDecode_shortens tmp).ite flag.html
  have hshort : shortened flag tmp = if flag.escape then
      httpEscapeDecode (if flag.html then httpHtmlEntitiesDecode tmp else tmp)
      else if flag.html then httpHtmlEntitiesDecode tmp else tmp := rfl
  rw [httpDecodeRound_flag, httpDecodeRound_url, hurl, if_neg Bool.false_ne_true, Bool.or_false]
  obtain ⟨tmp1, htmp1⟩ : ∃ tmp1, (if flag.html then httpHtmlEntitiesDecode tmp else tmp) = tmp1 := ⟨_, rfl⟩
  rw [htmp1] at hescape hhtml hshort ⊢
  rw [← hshort] at hescape
  have hle := hhtml.length_le
  have hle' := hescape.length_le
  by_cases hagain : tmp1.length ≠ tmp.length ∨ (shortened flag tmp).length ≠ tmp1.length
  · rw [if_pos (by simpa using hagain)]
    omega
  · rw [if_neg (by simpa using hagain)]
    rw [not_or, not_not, not_not] at hagain
    have hsame := hhtml.eq_of_length hagain.1
    have hsame' := hescape.eq_of_length hagain.2
    rw [hsame] at hsame' hshort htmp1
    refine ⟨hsame', fun hon => ?_, fun hon => ?_⟩
    · rw [if_pos hon] at htmp1
      exact htmp1
    · rw [hsame', if_pos hon] at hshort
      exact hshort.symm

/-- The rounds end with a settled text, or all of them shorten it. -/
theorem httpDecodeLoop_settled {flag : DecodeFlag} (hurl : flag.url = false) (maxUrlOutLen inStringLen : Nat) :
    ∀ (cnt : Nat) (tmp : List Byte),
    Settled flag (httpDecodeLoop flag maxUrlOutLen inStringLen cnt tmp) ∨
      ∀ i < cnt, (roundText flag maxUrlOutLen inStringLen (i + 1) tmp).length <
        (roundText flag maxUrlOutLen inStringLen i tmp).length := by
  intro cnt
  induction cnt with
  | zero => exact fun _ => Or.inr fun i hi => absurd hi (Nat.not_lt_zero i)
  | succ cnt ih =>
    intro tmp
    have hround := httpDecodeRound_settled hurl maxUrlOutLen inStringLen tmp
    rw [httpDecodeLoop_succ]
    split at hround
    next hagain =>
      rw [if_pos hagain]
      refine (ih _).imp_right fun hrest i hi => ?_
      cases i with
      | zero => exact hround
      | succ i => exact hrest i (Nat.lt_of_succ_lt_succ hi)
    next hstop =>
      rw [if_neg hstop, hround.1]
      exact Or.inl hround.2

/-- A settled text is decoded in one round, to itself. -/
theorem Settled.httpDecodeString {flag : DecodeFlag} {tmp : List Byte} (h : Settled flag tmp)
    (hurl : flag.url = false)
    {maxUrlOutLen : Nat} (hmax : tmp.length < maxUrlOutLen) (hlimit : tmp.length ≤ MAX_DECODE_LEN) :
    httpDecodeString maxUrlOutLen tmp flag = tmp := by
  have htmp1 : (if flag.html then httpHtmlEntitiesDecode tmp else tmp) = tmp := by
    split
    next hon => exact h.1 hon
    next => rfl
  have htmp2 : shortened flag tmp = tmp := by
    show (if flag.escape then httpEscapeDecode (if flag.html then httpHtmlEntitiesDecode tmp else tmp)
      else if flag.html then httpHtmlEntitiesDecode tmp else tmp) = tmp
    rw [htmp1]
    split
    next hon => exact h.2 hon
    next => rfl
  have hloop : httpDecodeLoop flag maxUrlOutLen tmp.length 16 tmp = tmp := by
    rw [httpDecodeLoop_succ, httpDecodeRound_flag, httpDecodeRound_url, htmp2, htmp1, hurl]
    simp
  rw [WafProxy.httpDecodeString, if_neg (by omega), hloop, List.take_of_length_le (by omega)]

/-- **Comparing lengths is enough**: what `http_decode_string` returns without the URL flag is not
changed by decoding it again, unless each of sixteen rounds shortened the text. -/
theorem httpDecodeStringInto_fixed {flag : DecodeFlag} (hurl : flag.url = false) {maxUrlOutLen : Nat}
    {text : List Byte}
    (hlen : text.length < maxUrlOutLen) (hmax : maxUrlOutLen ≤ 8192) {c : Cells DecodeArray Byte}
    (hat : c.At .inString 0 text) :
    Prog.Ends (httpDecodeStringInto flag maxUrlOutLen text.length) c fun r c' _ =>
      ∃ s : List Byte, r = s.length ∧ c'.At .outString 0 s ∧
        ((Settled flag s ∧ httpDecodeString maxUrlOutLen s flag = s) ∨
          ∀ i < 16, (roundText flag maxUrlOutLen text.length (i + 1) text).length <
            (roundText flag maxUrlOutLen text.length i text).length) := by
  have hlimit : MAX_DECODE_LEN = 16384 := rfl
  have hle := httpDecodeLoop_length_le flag maxUrlOutLen text.length 16 text
  have hlist : httpDecodeString maxUrlOutLen text flag = httpDecodeLoop flag maxUrlOutLen text.length 16 text := by
    rw [httpDecodeString, if_neg (by omega), List.take_of_length_le (by omega)]
  refine (ends_httpDecodeStringInto_text flag (Nat.le_of_lt hlen) (by omega) hat).mono ?_
  rintro r c' _ ⟨rfl, hat'⟩
  refine ⟨_, rfl, hat', ?_⟩
  rw [hlist]
  refine (httpDecodeLoop_settled hurl maxUrlOutLen text.length 16 text).imp_left fun hsettled => ?_
  exact ⟨hsettled, hsettled.httpDecodeString hurl (by omega) (by omega)⟩

theorem httpDecodeStringInto_fixed_two :
    Prog.Ends (httpDecodeStringInto { html := true, escape := true } 8192 8) (Cells.ofList (str "&lt;\\x41") 7)
      fun r c' _ => ∃ s : List Byte, r = s.length ∧ c'.At .outString 0 s ∧
        Settled { html := true, escape := true } s := by
  have hrun := @httpDecodeStringInto_fixed { html := true, escape := true } rfl 8192 (str "&lt;\\x41")
    (show (str "&lt;\\x41").length < 8192 by decide) (Nat.le_refl _) _ (Cells.at_ofList _ 7)
  refine hrun.mono ?_
  rintro r c' _ ⟨s, rfl, hat, ⟨hsettled, -⟩ | hall⟩
  · exact ⟨s, rfl, hat, hsettled⟩
  · exact absurd (hall 2 (by decide)) (by decide)

end WafProxy
