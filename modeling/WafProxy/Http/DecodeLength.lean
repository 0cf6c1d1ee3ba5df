import WafProxy.Http.Basic

/-
  How long a decoded text is — `http_decode_string` of http_decode.c

  Both places that store a decoded text compare its length with the length
  before. Each of the three decoders either finds something encoded, and then
  its output is shorter, or it leaves the text as it is, except that the percent
  decoder writes a space for a `+`. So two rounds tell whether `http_decode_string`
  shortens its input: the second sees the spaces the first one wrote.

  What is proved:
    1. What one pass of each decoder does (`httpHtmlEntitiesDecode_shortens`,
       `httpEscapeDecode_shortens`, `httpStringDecode_shortens`).
    2. What one round does (`httpDecodeRound_shortens`), and from it all of them
       (`httpDecodeLoop_shortens`).
    3. The decoded text is never longer than the text and never empty; it is as
       long exactly when nothing is encoded, and then it is the text with its `+`
       signs replaced (`httpDecodeString_shortens`).
-/

namespace WafProxy
open Lib

/-! ## What is encoded -/

/-- The text from some byte on has the property. -/
def occurs (p : List Byte → Bool) : List Byte → Bool
  | [] => false
  | c :: text => p (c :: text) || occurs p text

/-- The text starts with an HTML reference. -/
def isReference : List Byte → Bool
  | [] => false
  | c :: input => c = ch '&' && (httpHtmlReference input).isLeft

/-- The text starts with a backslash escape. -/
def isEscape : List Byte → Bool
  | c :: d :: input =>
    c = ch '\\' && ((escapeChar d).isSome || isodigit d ||
      ((d = ch 'x' || d = ch 'X') && 2 ≤ input.length && (input.take 2).all isxdigit))
  | _ => false

/-- The text with a space for every `+`. -/
def unplus (text : List Byte) : List Byte := text.map fun c => if c = ch '+' then ch ' ' else c

/-- `tmp_len` when the decoder comes to a `%`: the bytes up to the next `%`, a `+` not counted. -/
def percentSpan (text : List Byte) : Nat := (text.takeWhile (· ≠ ch '%')).countP (· ≠ ch '+')

/-- The text starts with a percent sequence that is decoded. -/
def isPercent : List Byte → Bool
  | [] => false
  | c :: rest =>
    c = ch '%' && httpStringDecodeBackward (c :: unplus rest) (percentSpan rest) != c :: unplus rest

/-- A decoder the flags ask for finds something in the text. -/
def encoded (flag : DecodeFlag) (text : List Byte) : Bool :=
  (flag.html && occurs isReference text) || (flag.escape && occurs isEscape text) ||
    (flag.url && occurs isPercent text)

/-- What becomes of a text in which nothing is encoded. -/
def plain (flag : DecodeFlag) (text : List Byte) : List Byte :=
  if flag.url ∧ 2 < text.length then unplus text else text

/-- Something is encoded, in the text itself or behind a `+` that became a space. -/
def shrinks (flag : DecodeFlag) (text : List Byte) : Bool :=
  encoded flag text || encoded flag (plain flag text)

example : shrinks { url := true } (str "a%2fb") = true := by decide
example : shrinks { url := true } (str "a+b%2") = false := by decide

@[simp] theorem unplus_length (text : List Byte) : (unplus text).length = text.length :=
  List.length_map _

theorem unplus_unplus (text : List Byte) : unplus (unplus text) = unplus text := by
  unfold unplus
  rw [List.map_map]
  apply List.map_congr_left
  intro c _
  by_cases h : c = ch '+'
  · have hspace : ch ' ' ≠ ch '+' := by decide
    simp [h, hspace]
  · simp [h]

@[simp] theorem unplus_cons (c : Byte) (text : List Byte) :
    unplus (c :: text) = (if c = ch '+' then ch ' ' else c) :: unplus text := rfl

theorem unplus_eq_self {text : List Byte} : unplus text = text ↔ ch '+' ∉ text := by
  have hspace : ch ' ' ≠ ch '+' := by decide
  induction text with
  | nil => simp [unplus]
  | cons c text ih =>
    by_cases h : c = ch '+'
    · simp [h, hspace]
    · simp [h, ih, Ne.symm h]

@[simp] theorem plain_length (flag : DecodeFlag) (text : List Byte) :
    (plain flag text).length = text.length := by
  unfold plain
  split <;> simp

theorem plain_plain (flag : DecodeFlag) (text : List Byte) :
    plain flag (plain flag text) = plain flag text := by
  by_cases h : flag.url = true ∧ 2 < text.length
  · have hplain : plain flag text = unplus text := if_pos h
    rw [hplain, plain, unplus_length, if_pos h, unplus_unplus]
  · have hplain : plain flag text = text := if_neg h
    rw [hplain, hplain]

/-- `out` is `same`, or shorter and not empty if something is encoded. -/
structure Shortens (enc : Bool) (same out : List Byte) : Prop where
  shorter : enc = true → out.length < same.length ∧ out ≠ []
  unchanged : enc = false → out = same

namespace Shortens
variable {enc : Bool} {same out : List Byte}

theorem length_le (h : Shortens enc same out) : out.length ≤ same.length := by
  cases henc : enc with
  | true => exact Nat.le_of_lt (h.shorter henc).1
  | false => exact Nat.le_of_eq (congrArg List.length (h.unchanged henc))

theorem ne_nil (h : Shortens enc same out) (hne : same ≠ []) : out ≠ [] := by
  cases henc : enc with
  | true => exact (h.shorter henc).2
  | false => rw [h.unchanged henc]; exact hne

theorem length_lt_iff (h : Shortens enc same out) : out.length < same.length ↔ enc = true := by
  constructor
  · intro hlt
    cases henc : enc with
    | true => rfl
    | false =>
      rw [h.unchanged henc] at hlt
      exact absurd hlt (Nat.lt_irrefl _)
  · intro henc
    exact (h.shorter henc).1

end Shortens

/-! ## HTML references -/

theorem skipSemicolon_length (l : List Byte) :
    (if l.head? = some (ch ';') then l.tail else l).length ≤ l.length := by
  split
  · rw [List.length_tail]
    exact Nat.sub_le _ _
  · exact Nat.le_refl _

theorem httpHtmlReference_inl {input rest : List Byte} {b : Byte}
    (h : httpHtmlReference input = .inl (b, rest)) : rest.length < input.length := by
  have hskip := fun (p : Byte → Bool) (l : List Byte) =>
    Nat.le_trans (skipSemicolon_length (l.dropWhile p)) (List.dropWhile_suffix p).length_le
  cases input with
  | nil => cases h
  | cons c input =>
    simp only [httpHtmlReference] at h
    split at h
    next =>
      cases input with
      | nil => cases h
      | cons x hex =>
        simp only at h
        split at h
        · split at h <;> cases h
          have hle := hskip isxdigit hex
          simp only [List.length_cons]
          omega
        · split at h <;> cases h
          exact Nat.lt_succ_of_le (hskip isdigit (x :: hex))
    next =>
      split at h
      · cases h
      next hname =>
        have hlt : ((c :: input).dropWhile isalnum).length < (c :: input).length := by
          have hsplit := congrArg List.length (List.takeWhile_append_dropWhile (p := isalnum) (l := c :: input))
          have hpos := List.length_pos_iff.mpr hname
          rw [List.length_append] at hsplit
          omega
        have hle := skipSemicolon_length ((c :: input).dropWhile isalnum)
        generalize (if ((c :: input).dropWhile isalnum).head? = some (ch ';')
          then ((c :: input).dropWhile isalnum).tail else (c :: input).dropWhile isalnum) = skipped at h hle
        repeat' split at h
        all_goals cases h
        all_goals exact Nat.lt_of_le_of_lt hle hlt

/-- What is copied behind the `&` holds no second `&`. -/
theorem httpHtmlReference_inr {input : List Byte} {copy : Nat}
    (h : httpHtmlReference input = .inr copy) :
    0 < copy ∧ ∀ c ∈ input.take (copy - 1), c ≠ ch '&' := by
  have hsharp : ch '#' ≠ ch '&' := by decide
  have hx : ch 'x' ≠ ch '&' ∧ ch 'X' ≠ ch '&' := by decide
  have hname : isalnum (ch '&') = false := by decide
  cases input with
  | nil =>
    cases h
    simp
  | cons c input =>
    simp only [httpHtmlReference] at h
    split at h
    next hc =>
      subst hc
      cases input with
      | nil =>
        cases h
        simpa using hsharp
      | cons x hex =>
        simp only at h
        split at h
        next hxx =>
          split at h <;> cases h
          rcases hxx with rfl | rfl <;> simp [hsharp, hx]
        next =>
          split at h <;> cases h
          simpa using hsharp
    next =>
      split at h
      · cases h
        simp
      · repeat' split at h
        all_goals cases h
        refine ⟨Nat.succ_pos _, ?_⟩
        intro d hd heq
        rw [Nat.add_sub_cancel, ← List.prefix_iff_eq_take.mp (List.takeWhile_prefix isalnum)] at hd
        have hin := List.all_eq_true.mp List.all_takeWhile d hd
        rw [heq, hname] at hin
        cases hin

theorem occurs_append_of_not {p : List Byte → Bool} {pre text : List Byte}
    (h : ∀ c ∈ pre, ∀ t, p (c :: t) = false) : occurs p (pre ++ text) = occurs p text := by
  induction pre with
  | nil => rfl
  | cons c pre ih =>
    have hc := h c List.mem_cons_self (pre ++ text)
    rw [List.cons_append, occurs, hc, Bool.false_or]
    exact ih fun d hd => h d (List.mem_cons_of_mem _ hd)

theorem isReference_of_ne {c : Byte} (h : c ≠ ch '&') (t : List Byte) : isReference (c :: t) = false := by
  simp [isReference, h]

/-- A first byte that stays as it is. -/
theorem Shortens.cons {enc : Bool} {same out : List Byte} (h : Shortens enc same out) (c : Byte) :
    Shortens enc (c :: same) (c :: out) where
  shorter := fun henc => ⟨Nat.succ_lt_succ (h.shorter henc).1, List.cons_ne_nil _ _⟩
  unchanged := fun henc => by rw [h.unchanged henc]

theorem httpHtmlEntitiesLoop_shortens : ∀ (n : Nat) (text : List Byte), text.length ≤ n →
    Shortens (occurs isReference text) text (httpHtmlEntitiesLoop n text) := by
  intro n
  induction n with
  | zero =>
    intro text h
    rw [List.eq_nil_of_length_eq_zero (Nat.le_zero.mp h)]
    exact ⟨fun henc => (by cases henc), fun _ => rfl⟩
  | succ n ih =>
    intro text h
    cases text with
    | nil => exact ⟨fun henc => (by cases henc), fun _ => rfl⟩
    | cons c input =>
      rw [List.length_cons] at h
      rw [httpHtmlEntitiesLoop]
      split
      next hamp =>
        obtain ⟨rfl, _⟩ := hamp
        split
        next b rest hinl =>
          have hlt := httpHtmlReference_inl hinl
          have hle := (ih rest (by omega)).length_le
          have henc : occurs isReference (ch '&' :: input) = true := by
            rw [occurs, isReference, hinl]
            simp
          refine ⟨fun _ => ⟨?_, List.cons_ne_nil _ _⟩, fun hno => ?_⟩
          · simp only [List.length_cons]
            omega
          · rw [henc] at hno
            cases hno
        next copy hinr =>
          obtain ⟨hpos, hcopy⟩ := httpHtmlReference_inr hinr
          have hsucc : copy = (copy - 1) + 1 := by omega
          have hrest := ih (input.drop (copy - 1)) (by rw [List.length_drop]; omega)
          have henc : occurs isReference (ch '&' :: input) =
              occurs isReference (input.drop (copy - 1)) := by
            have hpre : occurs isReference (input.take (copy - 1) ++ input.drop (copy - 1)) =
                occurs isReference (input.drop (copy - 1)) :=
              occurs_append_of_not fun d hd => isReference_of_ne (hcopy d hd)
            rw [List.take_append_drop] at hpre
            rw [occurs, isReference, hinr, hpre]
            simp
          rw [hsucc, List.take_succ_cons, List.drop_succ_cons, henc]
          have happ : ∀ pre : List Byte, Shortens (occurs isReference (input.drop (copy - 1)))
              (pre ++ input.drop (copy - 1)) (pre ++ httpHtmlEntitiesLoop n (input.drop (copy - 1))) := by
            intro pre
            induction pre with
            | nil => exact hrest
            | cons d pre ihpre => exact ihpre.cons d
          have hout := (happ (input.take (copy - 1))).cons (ch '&')
          rw [List.take_append_drop] at hout
          exact hout
      next hno =>
        have hhead : isReference (c :: input) = false := by
          cases input with
          | nil => simp [isReference, httpHtmlReference]
          | cons d input => exact isReference_of_ne (fun hc => hno ⟨hc, List.cons_ne_nil _ _⟩) _
        rw [occurs, hhead, Bool.false_or]
        exact (ih input (by omega)).cons c

theorem httpHtmlEntitiesDecode_shortens (text : List Byte) :
    Shortens (occurs isReference text) text (httpHtmlEntitiesDecode text) :=
  httpHtmlEntitiesLoop_shortens _ _ (Nat.le_refl _)

/-! ## Backslash escapes -/

theorem isEscape_of_ne {c : Byte} (h : c ≠ ch '\\') (t : List Byte) : isEscape (c :: t) = false := by
  cases t with
  | nil => rfl
  | cons d t => simp [isEscape, h]

theorem occurs_cons_of_not {p : List Byte → Bool} {c : Byte} {t : List Byte}
    (h : p (c :: t) = false) : occurs p (c :: t) = occurs p t := by
  rw [occurs, h, Bool.false_or]

/-- A first sequence that is replaced by one byte. -/
theorem Shortens.replaced {enc enc' : Bool} {same same' out : List Byte} (h : Shortens enc same out)
    (henc : enc' = true) (hlt : same.length + 1 < same'.length) (b : Byte) :
    Shortens enc' same' (b :: out) where
  shorter := fun _ => ⟨Nat.lt_of_le_of_lt (Nat.succ_le_succ h.length_le) hlt, List.cons_ne_nil _ _⟩
  unchanged := fun hno => by
    rw [henc] at hno
    cases hno

theorem httpEscapeLoop_shortens : ∀ (n : Nat) (text : List Byte), text.length ≤ n →
    Shortens (occurs isEscape text) text (httpEscapeLoop n text) := by
  have hslash : (escapeChar (ch '\\')).isSome = true := by decide
  intro n
  induction n with
  | zero =>
    intro text h
    rw [List.eq_nil_of_length_eq_zero (Nat.le_zero.mp h)]
    exact ⟨fun henc => (by cases henc), fun _ => rfl⟩
  | succ n ih =>
    intro text h
    rcases text with _ | ⟨c, _ | ⟨d, input⟩⟩
    · exact ⟨fun henc => (by cases henc), fun _ => rfl⟩
    · exact ⟨fun henc => (by cases henc), fun _ => rfl⟩
    · simp only [List.length_cons] at h
      unfold httpEscapeLoop
      split
      next hc =>
        rw [occurs_cons_of_not (isEscape_of_ne hc _)]
        exact (ih (d :: input) (by rw [List.length_cons]; omega)).cons c
      next hc =>
        obtain rfl : c = ch '\\' := not_not.mp hc
        -- an escape that is not replaced: the byte behind the backslash is no backslash
        have hkeep : escapeChar d = none → isEscape (ch '\\' :: d :: input) = false →
            Shortens (occurs isEscape (ch '\\' :: d :: input)) (ch '\\' :: d :: input)
              (ch '\\' :: d :: httpEscapeLoop n input) := by
          intro hnone hno
          have hd : d ≠ ch '\\' := by
            intro heq
            rw [heq] at hnone
            rw [hnone] at hslash
            cases hslash
          rw [occurs_cons_of_not hno, occurs_cons_of_not (isEscape_of_ne hd _)]
          exact ((ih input (by omega)).cons d).cons (ch '\\')
        split
        next e he =>
          refine (ih input (by omega)).replaced ?_ (by simp only [List.length_cons]; omega) e
          simp [occurs, isEscape, he]
        next hnone =>
          split
          next hx =>
            have hdigit : isodigit d = false := by
              rcases hx with rfl | rfl <;> decide
            split
            next a b rest =>
              simp only [List.length_cons] at h
              split
              next hhex =>
                refine (ih rest (by omega)).replaced ?_ (by simp only [List.length_cons]; omega) _
                rcases hx with rfl | rfl <;> simp [occurs, isEscape, hhex]
              next hhex =>
                refine hkeep hnone ?_
                have hall : ([a, b].all isxdigit) = false := by
                  simpa using hhex
                simp [isEscape, hnone, hdigit, hall]
            next hshort =>
              refine hkeep hnone ?_
              have hlen : input.length < 2 := by
                rcases input with _ | ⟨a, _ | ⟨b, rest⟩⟩
                · exact Nat.zero_lt_two
                · exact Nat.one_lt_two
                · exact absurd rfl (hshort a b rest)
              simp [isEscape, hnone, hdigit, Nat.not_le.mpr hlen]
          next hx =>
            split
            next hdigit =>
              have hbuf : 0 < (((d :: input).take 3).takeWhile isodigit).length := by
                simp [hdigit]
              refine (ih ((d :: input).drop _) ?_).replaced ?_ ?_ _
              · simp only [List.length_drop, List.length_cons]
                omega
              · simp [occurs, isEscape, hdigit]
              · simp only [List.length_drop, List.length_cons]
                omega
            next hdigit =>
              refine hkeep hnone ?_
              have hnox : (d = ch 'x' || d = ch 'X') = false := by
                simpa using hx
              simp [isEscape, hnone, hdigit, hnox]

theorem httpEscapeDecode_shortens (text : List Byte) :
    Shortens (occurs isEscape text) text (httpEscapeDecode text) :=
  httpEscapeLoop_shortens _ _ (Nat.le_refl _)

/-! ## Percent decoding -/

theorem httpPercentXxDecodeBackward_length {l r : List Byte}
    (h : httpPercentXxDecodeBackward l = some r) : r.length < l.length ∧ r ≠ [] := by
  match l, h with
  | a :: b :: string, h =>
    simp only [httpPercentXxDecodeBackward] at h
    split at h <;> cases h
    simp

theorem httpPercentFFxxDecodeBackward_length {l r : List Byte}
    (h : httpPercentFFxxDecodeBackward l = some r) : r.length < l.length ∧ r ≠ [] := by
  match l, h with
  | a :: b :: string, h =>
    cases h
    simp

/-- Decoding behind a `%` leaves the text or shortens it. -/
theorem httpStringDecodeBackward_shortens (string : List Byte) {tmpLen : Int} (h : 0 ≤ tmpLen) :
    Shortens (httpStringDecodeBackward string tmpLen != string) string
      (httpStringDecodeBackward string tmpLen) := by
  have hcombine : tmpLen ≠ -1 := by omega
  have hget : ∀ {x : Option (List Byte)} {l : List Byte}, l.length ≤ string.length →
      (∀ r, x = some r → r.length < l.length ∧ r ≠ []) →
      Shortens (x.getD string != string) string (x.getD string) := by
    intro x l hl hx
    cases x with
    | none => exact ⟨fun henc => (by simp at henc), fun _ => rfl⟩
    | some r =>
      obtain ⟨hlt, hne⟩ := hx r rfl
      refine ⟨fun _ => ⟨Nat.lt_of_lt_of_le hlt hl, hne⟩, fun henc => ?_⟩
      simpa using henc
  have hdrop : ∀ k, (string.drop k).length ≤ string.length := fun k => (List.drop_suffix k string).length_le
  have hsnd : (httpStringDecodeTypeBackward string tmpLen).2 = string := by
    unfold httpStringDecodeTypeBackward
    simp only [hcombine, if_false]
    repeat' split
    all_goals rfl
  unfold httpStringDecodeBackward
  rcases htype : httpStringDecodeTypeBackward string tmpLen with ⟨type, string'⟩
  rw [htype] at hsnd
  obtain rfl : string' = string := hsnd
  match type with
  | some .xx => exact hget (hdrop 1) fun _ hr => httpPercentXxDecodeBackward_length hr
  | some .u00xx => exact hget (hdrop 4) fun _ hr => httpPercentXxDecodeBackward_length hr
  | some .uffxx => exact hget (hdrop 4) fun _ hr => httpPercentFFxxDecodeBackward_length hr
  | some .xyy => exact hget (hdrop 2) fun _ hr => httpPercentXxDecodeBackward_length hr
  | some .noPercent => exact ⟨fun henc => (by simp at henc), fun _ => rfl⟩
  | none => exact ⟨fun henc => (by simp at henc), fun _ => rfl⟩

/-- The output and `tmp_len` of the loop of `_http_string_decode`. -/
def stringDecoded (text : List Byte) : List Byte × Int := text.foldr (httpStringDecodeStep false) ([], 0)

theorem stringDecoded_cons (c : Byte) (text : List Byte) :
    stringDecoded (c :: text) = httpStringDecodeStep false c (stringDecoded text) := rfl

theorem percentSpan_percent (text : List Byte) : percentSpan (ch '%' :: text) = 0 := by
  simp [percentSpan]

theorem percentSpan_plus (text : List Byte) : percentSpan (ch '+' :: text) = percentSpan text := by
  have hne : ch '+' ≠ ch '%' := by decide
  simp [percentSpan, hne]

theorem percentSpan_other {c : Byte} (h : c ≠ ch '%') (hplus : c ≠ ch '+') (text : List Byte) :
    percentSpan (c :: text) = percentSpan text + 1 := by
  simp [percentSpan, h, hplus]

/-- As long as nothing was decoded, `tmp_len` is the distance to the next `%`. -/
theorem stringDecoded_shortens (text : List Byte) :
    Shortens (occurs isPercent text) (unplus text) (stringDecoded text).1 ∧
    0 ≤ (stringDecoded text).2 ∧
    (occurs isPercent text = false → (stringDecoded text).2 = percentSpan text) := by
  induction text with
  | nil => exact ⟨⟨fun henc => (by cases henc), fun _ => rfl⟩, Int.le_refl 0, fun _ => rfl⟩
  | cons c text ih =>
    obtain ⟨hshort, hpos, hspan⟩ := ih
    rw [stringDecoded_cons, httpStringDecodeStep]
    split
    next hpercent =>
      obtain rfl := hpercent
      have hne : ch '%' ≠ ch '+' := by decide
      refine ⟨?_, Int.le_refl 0, fun _ => by rw [percentSpan_percent]; rfl⟩
      have hstep := httpStringDecodeBackward_shortens (ch '%' :: (stringDecoded text).1) hpos
      rw [unplus_cons, if_neg hne, occurs]
      simp only [Bool.false_eq_true, if_false]
      cases henc : occurs isPercent text with
      | true =>
        have hlt := (hshort.shorter henc).1
        have hle := hstep.length_le
        refine ⟨fun _ => ⟨?_, hstep.ne_nil (List.cons_ne_nil _ _)⟩, fun hno => ?_⟩
        · simp only [List.length_cons] at hle ⊢
          omega
        · rw [Bool.or_true] at hno
          cases hno
      | false =>
        have hout := hshort.unchanged henc
        rw [hout, hspan henc] at hstep ⊢
        simpa [isPercent] using hstep
    next hpercent =>
      have hhead : isPercent (c :: text) = false := by
        simp [isPercent, hpercent]
      rw [occurs_cons_of_not hhead, unplus_cons]
      split
      next hplus =>
        obtain rfl := hplus
        exact ⟨hshort.cons (ch ' '), hpos, fun henc => by rw [percentSpan_plus]; exact hspan henc⟩
      next hplus =>
        refine ⟨hshort.cons c, ?_, fun henc => ?_⟩
        · show 0 ≤ (stringDecoded text).2 + 1
          omega
        · rw [percentSpan_other hpercent hplus]
          show (stringDecoded text).2 + 1 = _
          rw [hspan henc]
          rfl

theorem httpStringDecode_shortens (text : List Byte) :
    Shortens (occurs isPercent text) (unplus text) (httpStringDecode text false) :=
  (stringDecoded_shortens text).1

/-! ## `http_decode_string` -/

/-- One decoder behind another. -/
theorem Shortens.trans {enc : Bool} (enc' : List Byte → Bool) {p : List Byte → List Byte}
    {a b c : List Byte} (hp : ∀ l, (p l).length = l.length) (h : Shortens enc a b)
    (h' : Shortens (enc' b) (p b) c) : Shortens (enc || enc' a) (p a) c := by
  cases enc with
  | true =>
    obtain ⟨hlt, hne⟩ := h.shorter rfl
    have hle := h'.length_le
    have hpne : p b ≠ [] := by
      intro hnil
      rw [← List.length_eq_zero_iff, hp, List.length_eq_zero_iff] at hnil
      exact hne hnil
    refine ⟨fun _ => ⟨?_, h'.ne_nil hpne⟩, fun hno => (by cases hno)⟩
    rw [hp] at hle ⊢
    omega
  | false =>
    obtain rfl := h.unchanged rfl
    exact h'

/-- A decoder that runs only if its flag is set. -/
theorem Shortens.ite {enc : Bool} {text out : List Byte} (f : Bool) (h : Shortens enc text out) :
    Shortens (f && enc) text (if f then out else text) := by
  cases f with
  | true => exact h
  | false => exact ⟨fun henc => (by cases henc), fun _ => rfl⟩

theorem occurs_isPercent_short {text : List Byte} (h : text.length ≤ 2) : occurs isPercent text = false := by
  have hkeep : ∀ {string : List Byte} {n : Nat}, string.length ≤ 2 →
      httpStringDecodeBackward string n = string := by
    intro string n hlen
    have hne : (n : Int) ≠ -1 := by omega
    unfold httpStringDecodeBackward httpStringDecodeTypeBackward
    simp only [hne, if_false, if_pos hlen]
  induction text with
  | nil => rfl
  | cons c text ih =>
    rw [List.length_cons] at h
    have hlen : (c :: unplus text).length ≤ 2 := by
      rw [List.length_cons, unplus_length]
      exact h
    rw [occurs, isPercent, hkeep hlen, ih (by omega)]
    simp

/-- `tmp` has at most the `in_string_len` bytes of the whole text. -/
theorem httpDecodeRound_shortens (flag : DecodeFlag) {inStringLen : Nat} {tmp : List Byte}
    (h : tmp.length ≤ inStringLen) (hmax : inStringLen < DECODE_BUF) :
    Shortens (encoded flag tmp) (if flag.url ∧ 2 < inStringLen then unplus tmp else tmp)
      (httpDecodeRound flag DECODE_BUF inStringLen tmp).1 := by
  have hbuf : DECODE_BUF = 8192 ∧ MAX_DECODE_LEN = 16384 := ⟨rfl, rfl⟩
  have h1 := (httpHtmlEntitiesDecode_shortens tmp).ite flag.html
  generalize htmp1 : (if flag.html then httpHtmlEntitiesDecode tmp else tmp) = tmp1 at h1
  have h2 := (httpEscapeDecode_shortens tmp1).ite flag.escape
  generalize htmp2 : (if flag.escape then httpEscapeDecode tmp1 else tmp1) = tmp2 at h2
  have h12 := h1.trans (fun l => flag.escape && occurs isEscape l) (p := id) (fun _ => rfl) h2
  have hlen : tmp2.length ≤ inStringLen := Nat.le_trans h12.length_le h
  rw [httpDecodeRound, htmp1, htmp2]
  unfold encoded
  cases hurl : flag.url with
  | false => simpa [hurl] using h12
  | true =>
    by_cases hlong : 2 < inStringLen
    · have h3 := httpStringDecode_shortens tmp2
      have hle := h3.length_le
      rw [unplus_length] at hle
      have htake : (httpStringDecode tmp2 false).take (MAX_DECODE_LEN - 1) = httpStringDecode tmp2 false :=
        List.take_of_length_le (by omega)
      have hall := h12.trans (occurs isPercent) unplus_length h3
      simp only [if_true, htake, Bool.true_and, hlong, and_self]
      exact hall
    · have hno : occurs isPercent tmp = false := occurs_isPercent_short (by omega)
      have htake : (tmp2.take (DECODE_BUF - 1)).take (MAX_DECODE_LEN - 1) = tmp2 := by
        rw [List.take_take]
        exact List.take_of_length_le (by omega)
      simp only [if_true, htake, hno, hlong, and_false, Bool.and_false, Bool.or_false, if_false]
      exact h12

theorem httpDecodeLoop_succ (flag : DecodeFlag) (maxUrlOutLen inStringLen n : Nat) (tmp : List Byte) :
    httpDecodeLoop flag maxUrlOutLen inStringLen (n + 1) tmp =
      if (httpDecodeRound flag maxUrlOutLen inStringLen tmp).2 then
        httpDecodeLoop flag maxUrlOutLen inStringLen n (httpDecodeRound flag maxUrlOutLen inStringLen tmp).1
      else (httpDecodeRound flag maxUrlOutLen inStringLen tmp).1 := by
  rw [httpDecodeLoop]
  split
  next heq => rw [heq, if_pos rfl]
  next heq => rw [heq, if_neg Bool.false_ne_true]

section
variable {flag : DecodeFlag} {inStringLen : Nat}

theorem httpDecodeRound_length {tmp : List Byte} (hne : tmp ≠ []) (h : tmp.length ≤ inStringLen)
    (hmax : inStringLen < DECODE_BUF) :
    (httpDecodeRound flag DECODE_BUF inStringLen tmp).1.length ≤ tmp.length ∧
    (httpDecodeRound flag DECODE_BUF inStringLen tmp).1 ≠ [] := by
  have hround := httpDecodeRound_shortens flag h hmax
  split at hround
  · refine ⟨?_, hround.ne_nil ?_⟩
    · have hle := hround.length_le
      rw [unplus_length] at hle
      exact hle
    · intro hnil
      rw [← List.length_eq_zero_iff, unplus_length, List.length_eq_zero_iff] at hnil
      exact hne hnil
  · exact ⟨hround.length_le, hround.ne_nil hne⟩

theorem httpDecodeLoop_length (hmax : inStringLen < DECODE_BUF) : ∀ (n : Nat) (tmp : List Byte), tmp ≠ [] →
    tmp.length ≤ inStringLen →
    (httpDecodeLoop flag DECODE_BUF inStringLen n tmp).length ≤ tmp.length ∧
    httpDecodeLoop flag DECODE_BUF inStringLen n tmp ≠ [] := by
  intro n
  induction n with
  | zero => exact fun tmp hne _ => ⟨Nat.le_refl _, hne⟩
  | succ n ih =>
    intro tmp hne h
    obtain ⟨hle, hout⟩ := httpDecodeRound_length hne h hmax
    rw [httpDecodeLoop_succ]
    split
    · obtain ⟨hrest, hrestne⟩ := ih _ hout (Nat.le_trans hle h)
      exact ⟨Nat.le_trans hrest hle, hrestne⟩
    · exact ⟨hle, hout⟩

/-- The first round shortens a text in which something is encoded. -/
theorem httpDecodeLoop_encoded {tmp : List Byte} (h : tmp.length ≤ inStringLen)
    (hmax : inStringLen < DECODE_BUF) (henc : encoded flag tmp = true) (n : Nat) :
    (httpDecodeLoop flag DECODE_BUF inStringLen (n + 1) tmp).length < tmp.length ∧
    httpDecodeLoop flag DECODE_BUF inStringLen (n + 1) tmp ≠ [] := by
  have hround := httpDecodeRound_shortens flag h hmax
  obtain ⟨hlt, hne⟩ := hround.shorter henc
  have hlt : (httpDecodeRound flag DECODE_BUF inStringLen tmp).1.length < tmp.length := by
    split at hlt
    · rw [unplus_length] at hlt
      exact hlt
    · exact hlt
  rw [httpDecodeLoop_succ]
  split
  · obtain ⟨hrest, hrestne⟩ := httpDecodeLoop_length hmax n _ hne (by omega)
    exact ⟨Nat.lt_of_le_of_lt hrest hlt, hrestne⟩
  · exact ⟨hlt, hne⟩

end

theorem httpDecodeRound_plain {flag : DecodeFlag} {text : List Byte} (h : text.length < DECODE_BUF)
    (henc : encoded flag text = false) :
    (httpDecodeRound flag DECODE_BUF text.length text).1 = plain flag text :=
  (httpDecodeRound_shortens flag (Nat.le_refl _) h).unchanged henc

/-- Nothing is encoded, and there is no `+` left to replace: every round is the last one. -/
theorem httpDecodeLoop_fixed {flag : DecodeFlag} {text : List Byte} (h : text.length < DECODE_BUF)
    (henc : encoded flag text = false) (hplain : plain flag text = text) :
    ∀ n, httpDecodeLoop flag DECODE_BUF text.length n text = text := by
  intro n
  induction n with
  | zero => rfl
  | succ n ih =>
    rw [httpDecodeLoop_succ, httpDecodeRound_plain h henc, hplain, ih]
    split <;> rfl

/-- Two rounds are enough to see whether the text becomes shorter. -/
theorem httpDecodeLoop_shortens {flag : DecodeFlag} {text : List Byte} (h : text.length < DECODE_BUF)
    (n : Nat) : Shortens (shrinks flag text) (plain flag text)
      (httpDecodeLoop flag DECODE_BUF text.length (n + 2) text) := by
  unfold shrinks
  cases henc : encoded flag text with
  | true =>
    obtain ⟨hlt, hne⟩ := httpDecodeLoop_encoded (Nat.le_refl _) h henc (n + 1)
    exact ⟨fun _ => ⟨(plain_length flag text).symm ▸ hlt, hne⟩, fun hno => (by cases hno)⟩
  | false =>
    have hq : (plain flag text).length < DECODE_BUF := by
      rw [plain_length]
      exact h
    cases hurl : flag.url with
    | false =>
      have hplain : plain flag text = text := if_neg fun hif => by
        rw [hurl] at hif
        cases hif.1
      rw [hplain, henc, httpDecodeLoop_fixed h henc hplain]
      exact ⟨fun hno => (by cases hno), fun _ => rfl⟩
    | true =>
      have hagain : (httpDecodeRound flag DECODE_BUF text.length text).2 = true := by
        simp [httpDecodeRound, hurl]
      rw [httpDecodeLoop_succ, if_pos hagain, httpDecodeRound_plain h henc, Bool.false_or]
      refine ⟨fun hyes => httpDecodeLoop_encoded (Nat.le_of_eq (plain_length flag text)) h hyes n, fun hno => ?_⟩
      have hfixed := httpDecodeLoop_fixed hq hno (plain_plain flag text) (n + 1)
      rw [plain_length] at hfixed
      exact hfixed

/-- **`http_decode_string` shortens a text exactly when something in it is encoded**; any other
text keeps its length, and its `+` signs become spaces if the `url` flag is set. -/
theorem httpDecodeString_shortens (flag : DecodeFlag) {text : List Byte} (h : text.length < DECODE_BUF) :
    Shortens (shrinks flag text) (plain flag text) (httpDecodeString DECODE_BUF text flag) := by
  have hbuf : DECODE_BUF = 8192 ∧ MAX_DECODE_LEN = 16384 := ⟨rfl, rfl⟩
  have hroom : ¬ (DECODE_BUF < text.length ∨ MAX_DECODE_LEN < text.length) := by omega
  have hloop : Shortens (shrinks flag text) (plain flag text)
      (httpDecodeLoop flag DECODE_BUF text.length 16 text) := httpDecodeLoop_shortens h 14
  have hle := hloop.length_le
  rw [plain_length] at hle
  rw [httpDecodeString, if_neg hroom, List.take_of_length_le (by omega)]
  exact hloop

end WafProxy
