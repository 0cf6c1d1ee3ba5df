import WafProxy.Http.DecodeRuns

/-
  Which accesses of `http_decode_string` lie outside its buffers — http_decode.c

  `tmp_buf` has `MAX_DECODE_LEN` bytes, and a NUL is written behind a text that may have
  as many. The URL decoder writes its NUL behind what it emitted, though `out_string` may
  be full. And at a `%` with two bytes behind it, it compares four bytes that start in
  front of `out_string`.

  What is proved:
    1. `passLooksBack_occurs` — the comparisons look back exactly at such a `%`.
    2. `roundsInside_iff` — the accesses of all rounds, by the texts of the URL passes.
    3. `httpDecodeStringInto_inside_iff` — every access is inside exactly when the text
       is shorter than `tmp_buf` and no URL pass meets a full buffer or such a `%`.

  Correspondence (C ↔ Lean):
    the sizes of `out_string`, `tmp_buf`, `in_string`   ↔ `bufferSize`
    `http_decode_string`                                ↔ `httpDecodeStringInto`
-/

namespace WafProxy
open Lib

/-! ## Looking back -/

/-- What is left behind the next byte that is emitted. -/
def afterUnit : List Byte → Option (List Byte)
  | [] => none
  | c :: text => some (if c = ch '%' then ((percentCode text).map Prod.snd).getD text else text)

/-- The text is a `%` with two bytes behind it, each a byte of its own or an escape. -/
def twoBehind : List Byte → Bool
  | [] => false
  | c :: text => c = ch '%' && (afterUnit text).bind afterUnit = some []

example : twoBehind (str "%41") = true ∧ twoBehind (str "%a%41") = true ∧
    twoBehind (str "%414") = false := by decide

/-- One byte is emitted for each unit. -/
theorem percentCodes_unit (text : List Byte) :
    (percentCodes.decode text).length = (afterUnit text).elim 0 fun rest =>
      (percentCodes.decode rest).length + 1 := by
  cases text with
  | nil => rfl
  | cons c text =>
    rw [afterUnit]
    by_cases hc : c = ch '%'
    · rw [hc, percentCodes_mark, if_pos rfl]
      cases percentCode text <;> rfl
    · rw [percentCodes.decode_other hc, if_neg hc]
      rfl

theorem percentCodes_two (text : List Byte) :
    (percentCodes.decode text).length = 2 ↔ (afterUnit text).bind afterUnit = some [] := by
  have hnil : ∀ l : List Byte, (percentCodes.decode l).length = 0 ↔ l = [] := by
    intro l
    rw [percentCodes_unit]
    cases l <;> simp [afterUnit]
  rw [percentCodes_unit]
  cases afterUnit text with
  | none => simp
  | some rest =>
    rw [Option.bind_some, Option.elim_some, percentCodes_unit rest]
    cases afterUnit rest with
    | none => simp
    | some rest' =>
      rw [Option.elim_some, Option.some.injEq, ← hnil rest']
      omega

/-- **The comparisons of a pass** start in front of the buffer exactly at a `%` with two bytes
behind it. -/
theorem passLooksBack_occurs (text : List Byte) : passLooksBack text = occurs twoBehind text := by
  unfold passLooksBack
  induction text with
  | nil => rfl
  | cons c text ih =>
    have hdecoded : text.foldr (httpStringDecodeStep false) ([], 0) = stringDecoded text := rfl
    have htwo : twoBehind (c :: text) =
      (decide (c = ch '%') && decide ((afterUnit text).bind afterUnit = some [])) := rfl
    rw [looksBackIn, occurs, ih, hdecoded, stringDecoded_percentCode, htwo]
    congr 1
    unfold charLooksBack backAt combined looksBack
    by_cases hc : c = ch '%'
    · have hlevel : ((percentSpan text : Nat) : Int) ≠ -1 := by omega
      have hspan := @percentCodes_length text (percentSpan text) (Nat.le_refl _)
      rw [decide_eq_true hc, Bool.true_and, Bool.true_and]
      simp only [Bool.false_eq_true, if_false, hlevel, or_false]
      refine decide_eq_decide.mpr ?_
      rw [← percentCodes_two, List.length_cons]
      refine ⟨fun h => by omega, fun h => ⟨by omega, fun hand => ?_⟩⟩
      have h3 := hand.2
      omega
    · rw [decide_eq_false hc, Bool.false_and, Bool.false_and]

/-! ## All rounds -/

/-- The text a URL pass is given. -/
def urlText (flag : DecodeFlag) (maxUrlOutLen inStringLen i : Nat) (text : List Byte) : List Byte :=
  shortened flag (roundText flag maxUrlOutLen inStringLen i text)

/-- No `%` of the text has two bytes behind it, and `out_string` has room for the NUL, or gets
some since something in the text is encoded. -/
def PassInside (maxUrlOutLen : Nat) (text : List Byte) : Prop :=
  occurs twoBehind text = false ∧ (text.length < maxUrlOutLen ∨ occurs isPercent text = true)

theorem urlInside_iff {maxUrlOutLen inStringLen : Nat} {text : List Byte} (hlen : text.length ≤ maxUrlOutLen) :
    UrlInside maxUrlOutLen inStringLen text ↔ (2 < inStringLen → PassInside maxUrlOutLen text) := by
  have hshort := (httpStringDecode_shortens text).length_lt_iff
  have hle := httpStringDecode_length text false
  rw [unplus_length] at hshort
  unfold UrlInside PassInside
  rw [passLooksBack_occurs, ← hshort]
  refine forall_congr' fun _ => and_congr_right fun _ => ?_
  omega

/-- **The accesses of all rounds** stay inside if those of each URL pass do. -/
theorem roundsInside_iff (flag : DecodeFlag) {maxUrlOutLen inStringLen : Nat} : ∀ (cnt : Nat) (tmp : List Byte),
    tmp.length ≤ maxUrlOutLen →
    (RoundsInside flag maxUrlOutLen inStringLen cnt tmp ↔
      (flag.url = true → 2 < inStringLen → ∀ i < cnt,
        PassInside maxUrlOutLen (urlText flag maxUrlOutLen inStringLen i tmp))) := by
  intro cnt
  induction cnt with
  | zero => exact fun tmp _ => ⟨fun _ _ _ i hi => absurd hi (Nat.not_lt_zero i), fun _ => trivial⟩
  | succ cnt ih =>
    intro tmp hlen
    have hround := httpDecodeRound_length_le flag maxUrlOutLen inStringLen tmp
    have hpass := @urlInside_iff maxUrlOutLen inStringLen (shortened flag tmp)
      (Nat.le_trans (shortened_length flag tmp) hlen)
    have hagain : flag.url = true → (httpDecodeRound flag maxUrlOutLen inStringLen tmp).2 = true := by
      intro hurl
      rw [httpDecodeRound_flag, hurl, Bool.or_true]
    rw [RoundsInside, RoundInside, hpass, ih _ (Nat.le_trans hround hlen)]
    constructor
    · rintro ⟨hfirst, hrest⟩ hurl hlong i hi
      cases i with
      | zero => exact hfirst hurl hlong
      | succ i => exact hrest (hagain hurl) hurl hlong i (Nat.lt_of_succ_lt_succ hi)
    · intro hall
      refine ⟨fun hurl hlong => hall hurl hlong 0 (Nat.succ_pos cnt), fun _ hurl hlong i hi => ?_⟩
      exact hall hurl hlong (i + 1) (Nat.succ_lt_succ hi)

/-! ## The buffers -/

/-- The size of each buffer. -/
def bufferSize (maxUrlOutLen inStringLen : Nat) : DecodeArray → Int
  | .inString => inStringLen
  | .outString => maxUrlOutLen
  | .tmpBuf => MAX_DECODE_LEN

/-- A text that fits into `tmp_buf` with its NUL. -/
theorem ends_inside {c : Cells DecodeArray Byte} (flag : DecodeFlag) {maxUrlOutLen : Nat} {text : List Byte}
    (hne : text ≠ []) (hfits : text.length ≤ maxUrlOutLen) (hlimit : text.length < MAX_DECODE_LEN)
    (hat : c.At .inString 0 text) :
    Prog.Ends (httpDecodeStringInto flag maxUrlOutLen text.length) c
        (fun _ _ log => Prog.Inside (bufferSize maxUrlOutLen text.length) log) ↔
      RoundsInside flag maxUrlOutLen text.length 16 text := by
  have hnul : (text.length : Int) < MAX_DECODE_LEN := by omega
  have hroom : Room (bufferSize maxUrlOutLen text.length) maxUrlOutLen text.length :=
    ⟨List.length_pos_iff.mpr hne, hfits, Nat.le_of_lt hlimit, rfl, Int.le_refl _, hnul⟩
  have hruns := ends_httpDecodeStringInto flag hroom (Int.le_refl _) hat
  constructor
  · intro h
    obtain ⟨_, _, ⟨_, _, hiff⟩, hinside⟩ := hruns.and h
    exact hiff.mp hinside
  · exact fun h => hruns.mono fun _ _ _ hin => hin.2.2.mpr h

/-- A text as long as `tmp_buf` has its NUL written behind it. -/
theorem ends_not_inside {c : Cells DecodeArray Byte} (flag : DecodeFlag) {maxUrlOutLen : Nat} {text : List Byte}
    (hfits : text.length ≤ maxUrlOutLen) (hfull : text.length = MAX_DECODE_LEN) (hat : c.At .inString 0 text) :
    Prog.Ends (httpDecodeStringInto flag maxUrlOutLen text.length) c
      fun _ _ log => ¬ Prog.Inside (bufferSize maxUrlOutLen text.length) log := by
  have hpos : 0 < MAX_DECODE_LEN := by decide
  have hne : text ≠ [] := List.length_pos_iff.mp (by omega)
  have hroom := roomy_room hne hfits (Nat.le_of_eq hfull)
  unfold httpDecodeStringInto
  rw [if_neg (by omega), if_neg (by omega), if_neg (by omega), Int.toNat_natCast]
  refine (@Prog.ends_copy DecodeArray Byte _ .tmpBuf .inString (fun _ => text.length) (by decide) text 0 0 c hat
    (Int.le_refl 0) (by omega) (Int.le_refl 0) (by omega)).bind ?_
  rintro _ c₁ log₁ ⟨hat₁, -, -⟩
  rw [Prog.ends_bind, Prog.ends_write]
  have hat₂ : (c₁.set .tmpBuf text.length 0).At .tmpBuf 0 (text ++ [0]) := Cells.At.push hat₁ (Int.zero_add _).symm
  refine (ends_decodeRounds hroom flag 16 text 0 _ (Nat.le_refl _) hat₂ fun hno => (by cases hno)).mono ?_
  intro r c₂ log₂ _
  rw [List.singleton_append, Prog.inside_append, Prog.inside_write]
  rintro ⟨-, ⟨-, hlt⟩, -⟩
  have hsize : bufferSize maxUrlOutLen text.length .tmpBuf = MAX_DECODE_LEN := rfl
  omega

/-- **`http_decode_string` keeps to its buffers** exactly when the text is shorter than `tmp_buf`
and every URL pass finds room for its NUL and no `%` with two bytes behind it. -/
theorem httpDecodeStringInto_inside_iff {c : Cells DecodeArray Byte} (flag : DecodeFlag) {maxUrlOutLen : Nat}
    {text : List Byte} (hlen : 1 ≤ text.length ∧ text.length ≤ maxUrlOutLen) (hmax : maxUrlOutLen ≤ MAX_DECODE_LEN)
    (hat : c.At .inString 0 text) :
    Prog.Ends (httpDecodeStringInto flag maxUrlOutLen text.length) c
        (fun _ _ log => Prog.Inside (bufferSize maxUrlOutLen text.length) log) ↔
      text.length < MAX_DECODE_LEN ∧
        (flag.url = true → 2 < text.length → ∀ i < 16,
          PassInside maxUrlOutLen (urlText flag maxUrlOutLen text.length i text)) := by
  rcases Nat.lt_or_ge text.length MAX_DECODE_LEN with hlt | hge
  · rw [ends_inside flag (List.length_pos_iff.mp hlen.1) hlen.2 hlt hat, roundsInside_iff flag 16 text hlen.2]
    exact ⟨fun h => ⟨hlt, h⟩, And.right⟩
  · refine ⟨fun h => ?_, fun h => absurd h.1 (Nat.not_lt.mpr hge)⟩
    obtain ⟨_, _, hno, hinside⟩ := (ends_not_inside flag hlen.2 (by omega) hat).and h
    exact absurd hinside hno

theorem httpDecodeStringInto_inside_four :
    Prog.Ends (httpDecodeStringInto { url := true } 5 4) (Cells.ofList (str "%41b") 7)
      fun _ _ log => Prog.Inside (bufferSize 5 4) log :=
  (httpDecodeStringInto_inside_iff { url := true }
    (show 1 ≤ (str "%41b").length ∧ (str "%41b").length ≤ 5 by decide)
    (by decide) (Cells.at_ofList (str "%41b") 7)).mpr
    ⟨by decide, fun _ _ => by unfold PassInside; decide⟩

/-- With `%41` the comparisons start at `out_string[-1]`. -/
theorem percent_looks_back :
    ¬ Prog.Ends (httpDecodeStringInto { url := true } 10 3) (Cells.ofList (str "%41") 7)
      fun _ _ log => Prog.Inside (bufferSize 10 3) log := by
  intro h
  have hrounds := (@ends_inside _ { url := true } 10 (str "%41") (by decide) (by decide) (by decide)
    (Cells.at_ofList _ _)).mp h
  have hpass := hrounds.1 rfl (by decide)
  exact absurd hpass.1 (by decide)

end WafProxy
