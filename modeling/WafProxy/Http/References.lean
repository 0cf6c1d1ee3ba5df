import WafProxy.Http.EntityText
import WafProxy.Lib.Escapes

/-
  What HTML references stand for — http_decode.c

  A reference is a number or a name behind an `&`, with a semicolon that may be
  missing. The decoder reads a number with `strtol`, which takes `0x` and the
  digits behind it for one number where the decoder's own run ends at the `0`;
  and behind a name it skips every letter and digit that follows.

  What is proved:
    1. `httpHtmlReference_agrees` — the decoder replaces the references and nothing
       else, and differs from them only where one of the two is misread.
    2. `httpHtmlEntitiesDecode_length_le` — it never emits more.
    3. `httpHtmlEntitiesDecodeInplace_iff` — the buffer holds the text with every
       reference replaced exactly when no reference is misread.

  Correspondence (C ↔ Lean):
    `_http_html_entities_decode_inplace`   ↔ `httpHtmlEntitiesDecodeInplace`
-/

namespace WafProxy
open Lib

/-! ## References -/

/-- The number of a run of digits, and the text behind it. -/
def numberReference (base : Nat) (digit : Byte → Bool) (text : List Byte) : Option (Byte × List Byte) :=
  if text.takeWhile digit = [] then none
  else some (UInt8.ofInt (spelled base (text.takeWhile digit)), behindSemicolon (text.dropWhile digit))

/-- The character of the name that stands there, and the text behind it. -/
def nameReference (text : List Byte) : Option (Byte × List Byte) :=
  (entityNames.find? fun e => startsWithCase text (str e.1)).map fun e =>
    (e.2, behindSemicolon (text.drop (str e.1).length))

/-- What an `&` in front of the text stands for. -/
def charReference : List Byte → Option (Byte × List Byte)
  | [] => none
  | c :: input =>
    if c = ch '#' then
      match input with
      | [] => none
      | x :: hex =>
        if x = ch 'x' ∨ x = ch 'X' then numberReference 16 isxdigit hex
        else numberReference 10 isdigit (x :: hex)
    else nameReference (c :: input)

/-! ## What is misread -/

/-- Behind the name stands a letter or a digit. -/
def nameGoesOn (text : List Byte) : Bool :=
  (entityNames.find? fun e => startsWithCase text (str e.1)).any fun e =>
    (text.drop (str e.1).length).head?.any isalnum

/-- Behind the digit `0` stand `x` and a number of another byte than 0. -/
def secondNumber : List Byte → Bool
  | z :: x :: hex =>
    z = ch '0' && tolower x = ch 'x' && UInt8.ofInt (spelled 16 hex) != 0
  | _ => false

/-- Behind an `&`, the decoder skips or reads more than the reference. -/
def misreadBehind : List Byte → Bool
  | [] => false
  | s :: input =>
    if s = ch '#' then
      match input with
      | [] => false
      | x :: hex => (x = ch 'x' || x = ch 'X') && secondNumber hex
    else nameGoesOn (s :: input)

/-- The text starts with a reference that is misread. -/
def misread : List Byte → Bool
  | [] => false
  | c :: input => c = ch '&' && misreadBehind input

/-! ## The decoder and the references -/

/-- A number is the one its run of digits spells. -/
theorem spelled_run {base : Nat} {digit : Byte → Bool}
    (hdigit : ∀ b, digit b = false → ∀ d, digitValue b = some d → base ≤ d) (l : List Byte) :
    spelled base (l.takeWhile digit) = spelled base l := by
  have hrun : ∀ (l : List Byte) (acc : Nat), digits base acc (l.takeWhile digit) = digits base acc l := by
    intro l
    induction l with
    | nil => exact fun _ => rfl
    | cons b l ih =>
      intro acc
      cases hb : digit b with
      | true =>
        rw [List.takeWhile_cons, if_pos hb, digits, digits]
        cases digitValue b with
        | none => rfl
        | some d =>
          dsimp only
          rw [ih]
      | false =>
        rw [List.takeWhile_cons, hb, if_neg Bool.false_ne_true, digits, digits]
        cases hd : digitValue b with
        | none => rfl
        | some d =>
          have hle := hdigit b hb d hd
          dsimp only
          rw [if_neg (by omega)]
  rw [spelled, hrun, spelled]

theorem digitValue_decimal (b : Byte) (hb : isdigit b = false) (d : Nat) (hd : digitValue b = some d) : 10 ≤ d :=
  (digitValue_letter hb hd).1

theorem spelled_hexRun (l : List Byte) : spelled 16 (l.takeWhile isxdigit) = spelled 16 l := by
  apply spelled_run
  intro b hb d hd
  rw [digitValue_noHex hb] at hd
  cases hd

/-- A decimal number is read as its run spells it. -/
theorem strtol_decimal {b : Byte} (hb : isdigit b = true) (l : List Byte) :
    strtol (b :: l) 10 = spelled 10 ((b :: l).takeWhile isdigit) := by
  have hmark : skipHexMark 10 (b :: l) = b :: l := by
    rcases l with _ | ⟨x, _ | ⟨d, rest⟩⟩
    · rfl
    · rfl
    · rw [skipHexMark, if_neg fun h => absurd h.1 (show ¬ 10 = 16 by decide)]
  rw [strtol_digit (isdigit_isxdigit b hb), hmark, spelled_run digitValue_decimal]

/-- No digit, no number. -/
theorem spelled_of_not {b : Byte} (hb : isxdigit b = false) (base : Nat) (l : List Byte) :
    spelled base (b :: l) = 0 := by
  rw [spelled, digits, digitValue_noHex hb]
  rfl

/-- So is a hexadecimal number, but for a second one behind `0x`. -/
theorem strtol_hex {b : Byte} (hb : isxdigit b = true) (l : List Byte) :
    UInt8.ofInt (strtol (b :: l) 16) = UInt8.ofInt (spelled 16 ((b :: l).takeWhile isxdigit)) ↔
      secondNumber (b :: l) = false := by
  rw [strtol_digit hb, spelled_hexRun]
  have hbyte : UInt8.ofInt 0 = 0 := rfl
  have hplain : skipHexMark 16 (b :: l) = b :: l → secondNumber (b :: l) = false →
      (UInt8.ofInt (spelled 16 (skipHexMark 16 (b :: l))) = UInt8.ofInt (spelled 16 (b :: l)) ↔
        secondNumber (b :: l) = false) := fun hskip hno => by simp [hskip, hno]
  rcases l with _ | ⟨x, _ | ⟨d, rest⟩⟩
  · exact hplain rfl rfl
  · apply hplain rfl
    have hzero : UInt8.ofInt (spelled 16 []) = 0 := rfl
    simp [secondNumber, hzero]
  · by_cases hmark : b = ch '0' ∧ tolower x = ch 'x'
    · have hx : isxdigit x = false := Bool.eq_false_iff.mpr fun hdigit => (isxdigit_plain hdigit).2.2.2.1 hmark.2
      have hzero : spelled 16 (b :: x :: d :: rest) = 0 := by
        rw [hmark.1]
        exact spelled_of_not hx 16 (d :: rest)
      cases hd : isxdigit d with
      | true =>
        have hskip : skipHexMark 16 (b :: x :: d :: rest) = d :: rest := if_pos ⟨rfl, hmark.1, hmark.2, hd⟩
        rw [hskip, hzero]
        simp [secondNumber, hmark, hbyte]
      | false =>
        apply hplain
        · exact if_neg fun h => absurd (hd.symm.trans h.2.2.2) Bool.false_ne_true
        · simp [secondNumber, spelled_of_not hd, hbyte]
    · apply hplain
      · exact if_neg fun h => hmark ⟨h.2.1, h.2.2.1⟩
      · rw [secondNumber]
        simp only [Bool.and_eq_false_imp, Bool.and_eq_true, decide_eq_true_eq]
        exact fun h => absurd h hmark

theorem secondNumber_of_not {hex : List Byte} (h : hex.takeWhile isxdigit = []) : secondNumber hex = false := by
  rcases hex with _ | ⟨z, _ | ⟨x, rest⟩⟩
  · rfl
  · rfl
  · have hz : z ≠ ch '0' := by
      rintro rfl
      cases h
    simp [secondNumber, hz]

theorem behindSemicolon_suffix (l : List Byte) :
    ∃ semi, l = semi ++ behindSemicolon l ∧ ∀ c ∈ semi, c ≠ ch '&' := by
  have hsemi : ch ';' ≠ ch '&' := by decide
  unfold behindSemicolon
  split
  next h =>
    cases l with
    | nil => cases h
    | cons c l =>
      obtain rfl := Option.some.inj h
      exact ⟨[ch ';'], rfl, by simp [hsemi]⟩
  next => exact ⟨[], rfl, by simp⟩

/-- A run and a semicolon behind it. -/
theorem consumed_run {p : Byte → Bool} (hp : p (ch '&') = false) (l : List Byte) :
    Consumed (ch '&') l (behindSemicolon (l.dropWhile p)) := by
  obtain ⟨semi, hsemi, hmem⟩ := behindSemicolon_suffix (l.dropWhile p)
  refine ⟨l.takeWhile p ++ semi, ?_, ?_⟩
  · rw [List.append_assoc, ← hsemi, List.takeWhile_append_dropWhile]
  · intro c hc heq
    rcases List.mem_append.mp hc with hrun | hsemi
    · have hin := List.all_eq_true.mp List.all_takeWhile c hrun
      rw [heq, hp] at hin
      cases hin
    · exact hmem c hsemi heq

/-- What the decoder makes of an `&` in front of the input, beside what it stands for. -/
def Agrees (input : List Byte) : (Byte × List Byte) ⊕ Nat → Option (Byte × List Byte) → Prop
  | .inr _, r => r = none ∧ misreadBehind input = false
  | .inl (b, rest), r => ∃ b' rest', r = some (b', rest') ∧ Consumed (ch '&') input rest' ∧
    Consumed (ch '&') rest' rest ∧
      ((misreadBehind input = false ∧ b = b' ∧ rest = rest') ∨
        (misreadBehind input = true ∧ (b ≠ b' ∨ rest.length < rest'.length)))

/-- Decimal and hexadecimal numbers. -/
theorem agrees_number {input : List Byte} (b : Byte) {base : Nat} {digit : Byte → Bool} {text : List Byte}
    (hdigit : digit (ch '&') = false) (hinput : ∀ rest, Consumed (ch '&') text rest → Consumed (ch '&') input rest)
    (hmis : b = UInt8.ofInt (spelled base (text.takeWhile digit)) ↔ misreadBehind input = false)
    (hne : text.takeWhile digit ≠ []) :
    Agrees input (.inl (b, behindSemicolon (text.dropWhile digit))) (numberReference base digit text) := by
  rw [numberReference, if_neg hne]
  refine ⟨_, _, rfl, hinput _ (consumed_run hdigit text), Consumed.refl _ _, ?_⟩
  cases h : misreadBehind input with
  | false => exact Or.inl ⟨rfl, hmis.mpr h, rfl⟩
  | true =>
    refine Or.inr ⟨rfl, Or.inl fun heq => ?_⟩
    rw [hmis.mp heq] at h
    cases h

/-- The letters of a name are letters of the text, in either case. -/
theorem startsWithCase_alnum : ∀ (s text : List Byte), (∀ c ∈ s, isalnum (tolower c) = true) →
    startsWithCase text s = true → ∃ name rest, text = name ++ rest ∧ name.length = s.length ∧ ∀ c ∈ name,
      isalnum c = true := by
  intro s
  -- on the name; each letter of the text is one of the name in some case
  induction s with
  | nil => exact fun text _ _ => ⟨[], text, rfl, rfl, by simp⟩
  | cons c s ih =>
    intro text hs hstart
    obtain ⟨hc, hs⟩ := List.forall_mem_cons.mp hs
    cases text with
    | nil => cases hstart
    | cons b text =>
      rw [startsWithCase, Bool.and_eq_true, decide_eq_true_eq] at hstart
      obtain ⟨name, rest, rfl, hlen, hname⟩ := ih text hs hstart.2
      refine ⟨b :: name, rest, rfl, by rw [List.length_cons, List.length_cons, hlen], ?_⟩
      refine List.forall_mem_cons.mpr ⟨?_, hname⟩
      rw [← isalnum_tolower, hstart.1, hc]

theorem entityNames_alnum : ∀ e ∈ entityNames, str e.1 ≠ [] ∧ ∀ c ∈ str e.1, isalnum (tolower c) = true := by
  have hall : (entityNames.all fun e =>
      str e.1 ≠ [] && (str e.1).all fun c => decide (isalnum (tolower c) = true)) = true := by decide
  intro e he
  have hname := List.all_eq_true.mp hall e he
  rw [Bool.and_eq_true, decide_eq_true_eq] at hname
  exact ⟨hname.1, forall_text hname.2⟩

/-- Names. -/
theorem agrees_name {c : Byte} (hc : c ≠ ch '#') (input : List Byte) :
    Agrees (c :: input) (httpHtmlReference (c :: input)) (nameReference (c :: input)) := by
  have hamp : isalnum (ch '&') = false := by decide
  have hmis : misreadBehind (c :: input) = nameGoesOn (c :: input) := by
    unfold misreadBehind
    exact if_neg hc
  rw [httpHtmlReference_name hc, nameReference]
  unfold nameGoesOn at hmis
  cases hfind : entityNames.find? fun e => startsWithCase (c :: input) (str e.1) with
  | none =>
    rw [hfind] at hmis
    split
    · exact ⟨rfl, hmis⟩
    · exact ⟨rfl, hmis⟩
  | some e =>
    rw [hfind] at hmis
    obtain ⟨hne, hletters⟩ := entityNames_alnum e (List.mem_of_find?_eq_some hfind)
    obtain ⟨name, rest, htext, hlen, hname⟩ :=
      startsWithCase_alnum (str e.1) (c :: input) hletters
        (List.find?_some (p := fun e : String × Byte => startsWithCase (c :: input) (str e.1)) hfind)
    have hdrop : (c :: input).drop (str e.1).length = rest := by
      rw [htext, ← hlen, List.drop_left]
    have htake : (c :: input).takeWhile isalnum ≠ [] := by
      rw [htext, List.takeWhile_append_of_pos hname]
      intro hnil
      have hzero := congrArg List.length (List.append_eq_nil_iff.mp hnil).1
      rw [hlen, List.length_nil] at hzero
      exact hne (List.eq_nil_of_length_eq_zero hzero)
    have hskip : (c :: input).dropWhile isalnum = rest.dropWhile isalnum := by
      rw [htext, List.dropWhile_append_of_pos hname]
    have hused : ∀ b ∈ name, b ≠ ch '&' := by
      intro b hb heq
      have hin := hname b hb
      rw [heq, hamp] at hin
      cases hin
    rw [if_neg htake, hskip]
    have hmis : misreadBehind (c :: input) = rest.head?.any isalnum := by
      rw [hmis, Option.any_some, hdrop]
    have hname : Consumed (ch '&') (c :: input) rest := ⟨name, htext, hused⟩
    obtain ⟨semi, hsemi, hsemicolon⟩ := behindSemicolon_suffix rest
    refine ⟨e.2, behindSemicolon rest, by rw [Option.map_some, hdrop], ?_⟩
    -- the name ends here, or it is the front of a longer run of letters and digits
    cases hgo : rest.head?.any isalnum with
    | false =>
      have hstop : rest.dropWhile isalnum = rest := by
        cases rest with
        | nil => rfl
        | cons b rest =>
          have hb : isalnum b = false := hgo
          rw [List.dropWhile_cons, hb, if_neg Bool.false_ne_true]
      rw [hstop]
      exact ⟨hname.trans ⟨semi, hsemi, hsemicolon⟩, Consumed.refl _ _, Or.inl ⟨hmis.trans hgo, rfl, rfl⟩⟩
    | true =>
      obtain ⟨b, t, rfl, hb⟩ : ∃ b t, rest = b :: t ∧ isalnum b = true := by
        cases rest with
        | nil => cases hgo
        | cons b t => exact ⟨b, t, rfl, hgo⟩
      have hkeep : behindSemicolon (b :: t) = b :: t := by
        refine if_neg fun h => ?_
        obtain rfl := Option.some.inj h
        exact absurd hb (by decide)
      have hlt := (consumed_run hamp t).length_le
      have hskip : (b :: t).dropWhile isalnum = t.dropWhile isalnum := by
        rw [List.dropWhile_cons, if_pos hb]
      rw [hkeep]
      refine ⟨hname, consumed_run hamp (b :: t), Or.inr ⟨hmis.trans hgo, Or.inr ?_⟩⟩
      rw [hskip, List.length_cons]
      omega

/-- **The decoder and the reference.** -/
theorem httpHtmlReference_agrees (input : List Byte) :
    Agrees input (httpHtmlReference input) (charReference input) := by
  have hsharp : ch '#' ≠ ch '&' := by decide
  rcases input with _ | ⟨c, input⟩
  · exact ⟨rfl, rfl⟩
  -- a number behind the sharp, or a name
  by_cases hc : c = ch '#'
  · subst hc
    rcases input with _ | ⟨x, hex⟩
    · exact ⟨rfl, rfl⟩
    unfold httpHtmlReference charReference
    dsimp only
    rw [if_pos rfl, if_pos rfl]
    have hmis : misreadBehind (ch '#' :: x :: hex) = ((x = ch 'x' || x = ch 'X') && secondNumber hex) := rfl
    by_cases hx : x = ch 'x' ∨ x = ch 'X'
    · have hmis : misreadBehind (ch '#' :: x :: hex) = secondNumber hex := by
        rw [hmis]
        simp [hx]
      have hxamp : x ≠ ch '&' := by
        rintro rfl
        exact absurd hx (by decide)
      rw [if_pos hx, if_pos hx]
      by_cases hne : hex.takeWhile isxdigit = []
      · rw [if_pos hne, numberReference, if_pos hne]
        exact ⟨rfl, hmis.trans (secondNumber_of_not hne)⟩
      · rw [if_neg hne]
        refine agrees_number _ (by decide) (fun rest h => (h.cons hxamp).cons hsharp) ?_ hne
        obtain ⟨b, l, rfl, hb⟩ := takeWhile_ne_nil hne
        rw [hmis]
        exact strtol_hex hb l
    · have hmis : misreadBehind (ch '#' :: x :: hex) = false := by
        rw [hmis]
        simp [not_or.mp hx]
      rw [if_neg hx, if_neg hx]
      by_cases hne : (x :: hex).takeWhile isdigit = []
      · rw [if_pos hne, numberReference, if_pos hne]
        exact ⟨rfl, hmis⟩
      · rw [if_neg hne]
        refine agrees_number _ (by decide) (fun rest h => h.cons hsharp) ?_ hne
        obtain ⟨b, l, hl, hb⟩ := takeWhile_ne_nil hne
        rw [hl] at hmis ⊢
        rw [strtol_decimal hb]
        exact ⟨fun _ => hmis, fun _ => rfl⟩
  · have hname : charReference (c :: input) = nameReference (c :: input) := by
      unfold charReference
      exact if_neg hc
    rw [hname]
    exact agrees_name hc input

/-! ## Whole texts -/

theorem charReference_consumed (input : List Byte) (b : Byte) (rest : List Byte)
    (h : charReference input = some (b, rest)) : Consumed (ch '&') input rest := by
  have hagrees := httpHtmlReference_agrees input
  cases hr : httpHtmlReference input with
  | inr copy =>
    rw [hr] at hagrees
    rw [hagrees.1] at h
    cases h
  | inl out =>
    rw [hr] at hagrees
    obtain ⟨b', rest', hsome, hin, _⟩ := hagrees
    rw [h] at hsome
    cases hsome
    exact hin

theorem getLeft_consumed (input : List Byte) (b : Byte) (rest : List Byte)
    (h : (httpHtmlReference input).getLeft? = some (b, rest)) : Consumed (ch '&') input rest := by
  have hagrees := httpHtmlReference_agrees input
  rw [Sum.getLeft?_eq_some_iff.mp h] at hagrees
  obtain ⟨b', rest', _, hin, hout, _⟩ := hagrees
  exact hin.trans hout

/-- A reference is one byte; any other byte stays. -/
def references : Decoder Byte where
  mark := ch '&'
  other := id
  escape := charReference
  consumed := charReference_consumed

/-- What the code makes of the text, as a decoder of marked sequences. -/
def entities : Decoder Byte where
  mark := ch '&'
  other := id
  escape := fun input => (httpHtmlReference input).getLeft?
  consumed := getLeft_consumed

/-- The text with every reference replaced. -/
def referencesDecoded (text : List Byte) : List Byte := references.decode text

example : referencesDecoded (str "&lt;&#65&ampx&#x0x41") = str "<A&x" ++ [0] ++ str "x41" := by decide

theorem entities_greedier : Greedier entities references where
  mark := rfl
  other := rfl
  nothing := by
    intro input h
    have hagrees := httpHtmlReference_agrees input
    obtain ⟨copy, hr⟩ := Sum.isRight_iff.mp (Sum.getLeft?_eq_none_iff.mp h)
    rw [hr] at hagrees
    exact hagrees.1
  behind := by
    intro input b rest b' rest' h h'
    have hagrees := httpHtmlReference_agrees input
    rw [Sum.getLeft?_eq_some_iff.mp h] at hagrees
    obtain ⟨_, _, hsome, _, hout, _⟩ := hagrees
    cases h'.symm.trans hsome
    exact hout
  more := by
    intro input b rest h h'
    have hagrees := httpHtmlReference_agrees input
    rw [Sum.getLeft?_eq_some_iff.mp h] at hagrees
    obtain ⟨_, _, hsome, _⟩ := hagrees
    cases h'.symm.trans hsome

theorem entityStep_consumes : Consumes entityStep := by
  intro c input
  rw [entityStep]
  split
  · cases hr : httpHtmlReference input with
    | inl out => exact Nat.le_of_lt (httpHtmlReference_inl hr)
    | inr copy =>
      have hpos := (httpHtmlReference_inr hr).1
      dsimp only
      rw [List.length_drop, List.length_cons]
      omega
  · exact Nat.le_refl _

theorem httpHtmlEntitiesDecode_cons (c : Byte) (input : List Byte) :
    httpHtmlEntitiesDecode (c :: input) =
      (entityStep (c :: input)).1 ++ httpHtmlEntitiesDecode (entityStep (c :: input)).2 := by
  have hloop : ∀ text, httpHtmlEntitiesDecode text = rewriting entityStep text :=
    fun text => httpHtmlEntitiesLoop_rewritten _ _
  rw [hloop, hloop, rewriting_cons entityStep_consumes]

/-- What the code copies behind an `&` holds no other one. -/
theorem httpHtmlEntitiesDecode_entities (text : List Byte) :
    httpHtmlEntitiesDecode text = entities.decode text := by
  induction text using entities.decode_induction with
  | hnil => rfl
  | hother c input hc ih =>
    rw [entities.decode_other hc, httpHtmlEntitiesDecode_cons, entityStep, if_neg fun h => hc h.1, ← ih]
    rfl
  | hmark input ih =>
    rw [entities.decode_mark, httpHtmlEntitiesDecode_cons, entityStep]
    by_cases hne : input = []
    · subst hne
      rfl
    · rw [if_pos ⟨rfl, hne⟩]
      cases hr : httpHtmlReference input with
      | inl out =>
        have hescape : entities.escape input = some out := congrArg Sum.getLeft? hr
        have hle := (entities.consumed input out.1 out.2 hescape).length_le
        rw [hescape]
        exact congrArg (out.1 :: ·) (ih out.2 hle)
      | inr copy =>
        have hescape : entities.escape input = none := congrArg Sum.getLeft? hr
        obtain ⟨hpos, hcopied⟩ := httpHtmlReference_inr hr
        obtain ⟨k, rfl⟩ : ∃ k, copy = k + 1 := ⟨copy - 1, by omega⟩
        rw [Nat.add_sub_cancel] at hcopied
        rw [hescape]
        have hsplit := entities.decode_append hcopied (input.drop k)
        rw [List.take_append_drop] at hsplit
        have hrest := ih (input.drop k) (by rw [List.length_drop]; omega)
        dsimp only
        rw [List.take_succ_cons, List.drop_succ_cons, hrest, hsplit]
        simp [entities]

/-- An `&` behind which the code finds what stands there. -/
theorem entities_eq_iff (input : List Byte) :
    entities.escape input = references.escape input ↔ misreadBehind input = false := by
  have hagrees := httpHtmlReference_agrees input
  show (httpHtmlReference input).getLeft? = charReference input ↔ _
  cases hr : httpHtmlReference input with
  | inr copy =>
    rw [hr] at hagrees
    rw [hagrees.1]
    exact ⟨fun _ => hagrees.2, fun _ => rfl⟩
  | inl out =>
    obtain ⟨b, rest⟩ := out
    rw [hr] at hagrees
    obtain ⟨b', rest', hsome, _, _, hcase⟩ := hagrees
    rw [hsome, Sum.getLeft?_inl, Option.some.injEq, Prod.mk.injEq]
    rcases hcase with ⟨hno, hb, hrest⟩ | ⟨hyes, hdiffers⟩
    · exact ⟨fun _ => hno, fun _ => ⟨hb, hrest⟩⟩
    · refine ⟨fun heq => ?_, fun hno => ?_⟩
      · rcases hdiffers with hne | hlt
        · exact absurd heq.1 hne
        · rw [heq.2] at hlt
          exact absurd hlt (Nat.lt_irrefl _)
      · rw [hyes] at hno
        cases hno

theorem alike_iff_misread (text : List Byte) : Alike entities references text ↔ occurs misread text = false := by
  induction text with
  | nil => exact ⟨fun _ => rfl, fun _ => trivial⟩
  | cons c input ih =>
    rw [Alike, ih, occurs, Bool.or_eq_false_iff, entities_eq_iff]
    show (c = ch '&' → _) ∧ _ ↔ _
    simp [misread]

/-- The decoder never emits more than the text with its references replaced. -/
theorem httpHtmlEntitiesDecode_length_le (text : List Byte) :
    (httpHtmlEntitiesDecode text).length ≤ (referencesDecoded text).length := by
  rw [httpHtmlEntitiesDecode_entities]
  exact entities_greedier.decode_length_le text

/-- **The decoder replaces the references and drops nothing** exactly when none is misread. -/
theorem httpHtmlEntitiesDecode_eq_iff (text : List Byte) :
    httpHtmlEntitiesDecode text = referencesDecoded text ↔ occurs misread text = false := by
  rw [httpHtmlEntitiesDecode_entities, ← alike_iff_misread]
  exact entities_greedier.decode_eq_iff text

/-! ## The decoder in place -/

/-- The decoder leaves the text with every reference replaced, and its length. -/
def DecodesReferences {ν : Type} (input : ν) (text : List Byte) (r : Int) (c' : Cells ν Byte) : Prop :=
  r = (referencesDecoded text).length ∧ c'.At input 0 (referencesDecoded text ++ [0])

/-- **`_http_html_entities_decode_inplace` drops nothing** exactly when the text is no longer than
`MAX_DECODE_LEN` and none of its references is misread. -/
theorem httpHtmlEntitiesDecodeInplace_iff {ν : Type} [DecidableEq ν] {input : ν} {c : Cells ν Byte}
    (text : List Byte) (hat : c.At input 0 (text ++ [0])) :
    Prog.Ends (httpHtmlEntitiesDecodeInplace input text.length) c
        (fun r c' _ => DecodesReferences input text r c') ↔
      text.length ≤ MAX_DECODE_LEN ∧ occurs misread text = false := by
  rcases List.eq_nil_or_concat text with rfl | hconcat
  · have hrun : httpHtmlEntitiesDecodeInplace input (([] : List Byte).length : Nat) = pure 0 :=
      if_pos (Or.inl (Int.le_refl 0))
    rw [hrun, Prog.ends_pure]
    exact ⟨fun _ => ⟨Nat.zero_le _, rfl⟩, fun _ => ⟨rfl, hat⟩⟩
  have hne : text ≠ [] := by
    rintro rfl
    obtain ⟨l, b, hnil⟩ := hconcat
    simp at hnil
  have hle := httpHtmlEntitiesDecode_length_le text
  rcases Nat.lt_or_ge MAX_DECODE_LEN text.length with hlong | hmax
  · -- the guard: nothing is decoded, and 0 is returned
    have hrun : httpHtmlEntitiesDecodeInplace input (text.length : Nat) = pure 0 :=
      if_pos (Or.inr (by omega))
    rw [hrun, Prog.ends_pure]
    have hpos := List.length_pos_iff.mpr ((httpHtmlEntitiesDecode_shortens text).ne_nil hne)
    refine ⟨fun h => ?_, fun h => absurd h.1 (by omega)⟩
    have hlen := h.1
    omega
  · have hruns := @httpHtmlEntitiesDecodeInplace_refines ν _ input (fun _ => (text.length : Int) + 1) c text hne
      hmax hat (by omega)
    rw [← httpHtmlEntitiesDecode_eq_iff]
    constructor
    · intro h
      obtain ⟨_, _, ⟨hr, hat', _⟩, hr', hat''⟩ := hruns.and h
      have hlen : (httpHtmlEntitiesDecode text ++ [0]).length = (referencesDecoded text ++ [0]).length := by
        rw [List.length_append, List.length_append]
        omega
      exact ⟨hmax, List.append_cancel_right (hat'.inj hat'' hlen)⟩
    · rintro ⟨_, heq⟩
      rw [heq] at hruns
      exact hruns.mono fun _ _ _ h => ⟨h.1, h.2.1⟩

theorem httpHtmlEntitiesDecodeInplace_two :
    Prog.Ends (httpHtmlEntitiesDecodeInplace () 8) (Cells.ofList (str "&lt;&#65" ++ [0]) 7) fun r c' _ =>
      r = 2 ∧ c'.At () 0 (str "<A" ++ [0]) := by
  have hdecoded : referencesDecoded (str "&lt;&#65") = str "<A" := by decide
  refine ((httpHtmlEntitiesDecodeInplace_iff (str "&lt;&#65") (Cells.at_ofList _ _)).mpr
    ⟨by decide, by decide⟩).mono ?_
  rintro r c' _ ⟨rfl, hat⟩
  rw [hdecoded] at hat ⊢
  exact ⟨rfl, hat⟩

/-- `&ltx` becomes `<`, and the `x` is lost. -/
theorem entityName_drops :
    Prog.Ends (httpHtmlEntitiesDecodeInplace () 4) (Cells.ofList (str "&ltx" ++ [0]) 7)
        (fun r c' _ => r = 1 ∧ c'.At () 0 (str "<" ++ [0])) ∧
      referencesDecoded (str "&ltx") = str "<x" ∧
      ¬ Prog.Ends (httpHtmlEntitiesDecodeInplace () 4) (Cells.ofList (str "&ltx" ++ [0]) 7)
        (fun r c' _ => DecodesReferences () (str "&ltx") r c') := by
  have hruns : Prog.Ends (httpHtmlEntitiesDecodeInplace () 4) (Cells.ofList (str "&ltx" ++ [0]) 7)
      (fun r c' _ => r = 1 ∧ c'.At () 0 (str "<" ++ [0])) := by
    have hcode : httpHtmlEntitiesDecode (str "&ltx") = str "<" := by decide
    refine (@httpHtmlEntitiesDecodeInplace_refines Unit _ () (fun _ => 5) _ (str "&ltx") (by decide) (by decide)
      (Cells.at_ofList _ _) (by decide)).mono ?_
    rintro r c' _ ⟨rfl, hat, _⟩
    rw [hcode] at hat ⊢
    exact ⟨rfl, hat⟩
  have hdecoded : referencesDecoded (str "&ltx") = str "<x" := by decide
  refine ⟨hruns, hdecoded, fun h => ?_⟩
  obtain ⟨_, _, ⟨hr, _⟩, hr', _⟩ := hruns.and h
  rw [hr, hdecoded] at hr'
  exact absurd hr' (by decide)

end WafProxy
