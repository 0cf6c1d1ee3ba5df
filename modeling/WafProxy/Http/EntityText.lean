import WafProxy.Http.DecodeLength
import WafProxy.Lib.InPlace

/-
  HTML references in place — http_decode.c

  Behind an `&` the decoder looks for a number or a name. A number is read with
  `strtol` from its first digit on, a name is compared from the first letter on,
  and what is skipped is the whole run of digits or of letters and digits.

  What is proved:
    1. `httpHtmlReference_name` — the comparisons of `httpHtmlReference`, with the names
       as a table.
    2. `httpHtmlEntitiesDecodeInplace_refines` — the buffer holds what
       `httpHtmlEntitiesDecode` makes of the text.

  Correspondence (C ↔ Lean):
    `_http_html_entities_decode_inplace`   ↔ `httpHtmlEntitiesDecodeInplace`
    `d`                                    ↔ `input + count`
    `strtol(x, NULL, base)` on the buffer  ↔ `strtol` of `cStringAt`
    the copying loop                       ↔ `copyOut`
-/

namespace WafProxy
open Lib

variable {ν : Type}

/-! ## The model -/

/-- The string at `p`. `strtol` is given it, and reads no further than its NUL. -/
def cStringAt (a : ν) : Nat → Int → Prog ν Byte (List Byte)
  | 0, _ => Prog.stuck
  | n + 1, p => do
    let b ← Prog.read a p
    if b = 0 then pure []
    else do
      let l ← cStringAt a n (p + 1)
      pure (b :: l)

/-- `strncasecmp(p, s, strlen(s)) == 0`; it stops at the first difference. -/
def strncasecmpAt (a : ν) : Int → List Byte → Prog ν Byte Bool
  | _, [] => pure true
  | p, c :: s => do
    let b ← Prog.read a p
    if tolower b = tolower c then strncasecmpAt a (p + 1) s else pure false

/-- Skip over the semicolon if it is there. -/
def skipSemicolon (input : ν) (inputLen j : Int) : Prog ν Byte Int :=
  if j < inputLen then do
    let b ← Prog.read input j
    pure (if b = ch ';' then j + 1 else j)
  else pure j

/-- The comparisons with the names, in their order. -/
def entityName (input : ν) (x : Int) : List (String × Byte) → Prog ν Byte (Option Byte)
  | [] => pure none
  | (name, b) :: names => do
    if ← strncasecmpAt input x (str name) then pure (some b) else entityName input x names

/-- `quot`, `amp`, `lt`, `gt` and `nbsp`; `NBSP` is a space. -/
def entityNames : List (String × Byte) :=
  [("quot", ch '"'), ("amp", ch '&'), ("lt", ch '<'), ("gt", ch '>'), ("nbsp", 32)]

section
variable [DecidableEq ν]

/-- A number from `k` on; without a digit, how many bytes are copied instead. -/
def numericEntity (input : ν) (inputLen count k : Int) (digit : Byte → Bool) (base copy : Nat) :
    Prog ν Byte ((Int × Int) ⊕ Nat) := do
  let j ← scan digit input inputLen (inputLen - k).toNat k
  if k < j then do
    let x ← cStringAt input ((inputLen - k).toNat + 1) k
    Prog.write input count (UInt8.ofInt (strtol x base))
    let i ← skipSemicolon input inputLen j
    pure (.inl (i, count + 1))
  else pure (.inr copy)

/-- What stands behind the `&` at `j - 1`: the next `i` and `count`, or how many bytes are
copied from the `&` on. -/
def entityAt (input : ν) (inputLen count j : Int) : Prog ν Byte ((Int × Int) ⊕ Nat) := do
  let b ← Prog.read input j
  if b = ch '#' then
    if j + 1 < inputLen then do
      let x ← Prog.read input (j + 1)
      if x = ch 'x' ∨ x = ch 'X' then
        if j + 2 < inputLen then numericEntity input inputLen count (j + 2) isxdigit 16 3
        else pure (.inr 3)
      else numericEntity input inputLen count (j + 1) isdigit 10 2
    else pure (.inr 2)
  else do
    let k ← scan isalnum input inputLen (inputLen - j).toNat j
    if j < k then do
      match ← entityName input j entityNames with
      | some b => do
        Prog.write input count b
        let i ← skipSemicolon input inputLen k
        pure (.inl (i, count + 1))
      | none => pure (.inr (k - j + 1).toNat)
    else pure (.inr 1)

/-- One turn of the loop, from `i` and `count`; at the end of the input, `count`. -/
def entityTurn (input : ν) (inputLen : Int) : Int × Int → Prog ν Byte ((Int × Int) ⊕ Int)
  | (i, count) =>
    if i < inputLen ∧ count < inputLen then do
      let b ← Prog.read input i
      let r ← if b = ch '&' ∧ i + 1 < inputLen then entityAt input inputLen count (i + 1) else pure (.inr 1)
      match r with
      | .inl s => pure (.inl s)
      | .inr copy => do
        let s ← copyOut input inputLen copy (i, count)
        pure (.inl s)
    else pure (.inr count)

/-- `_http_html_entities_decode_inplace`. A turn consumes a byte. -/
def httpHtmlEntitiesDecodeInplace (input : ν) (inputLen : Int) : Prog ν Byte Int :=
  if inputLen ≤ 0 ∨ MAX_DECODE_LEN < inputLen then pure 0
  else do
    let count ← Prog.loop (entityTurn input inputLen) (inputLen.toNat + 1) (0, 0)
    Prog.write input count 0
    pure count

end

/-! ## The C library on the buffer -/

section
variable {input : ν} {size : ν → Int} {c : Cells ν Byte} {len : Int}

/-- The string at `p` ends with the text or within it. -/
theorem ends_cStringAt (i : Int) (hsize : len < size input) : ∀ (text : List Byte) (p : Int),
    c.At input p (text ++ [0]) → p + text.length = len → 0 ≤ p → i ≤ p →
    Prog.Ends (cStringAt input (text.length + 1) p) c fun x c' log =>
      x = text.takeWhile (· ≠ 0) ∧ c' = c ∧ ∀ k, TurnLog size i k log := by
  intro text
  induction text with
  | nil =>
    intro p hat hlen hp hi
    rw [List.length_nil] at hlen
    rw [cStringAt]
    simp only [Prog.ends_bind, Prog.ends_read, (Cells.at_cons.mp hat).1, if_true]
    exact Prog.ends_pure.mpr ⟨rfl, rfl, fun _ => TurnLog.nil.read hi (by omega)⟩
  | cons b text ih =>
    intro p hat hlen hp hi
    rw [List.length_cons] at hlen
    rw [List.cons_append, Cells.at_cons] at hat
    rw [cStringAt]
    simp only [Prog.ends_bind, Prog.ends_read, hat.1]
    by_cases hb : b = 0
    · rw [if_pos hb]
      refine Prog.ends_pure.mpr ⟨?_, rfl, fun _ => TurnLog.nil.read hi (by omega)⟩
      rw [List.takeWhile_cons, if_neg (by simp [hb])]
    · rw [if_neg hb]
      refine (ih (p + 1) hat.2 (by omega) (by omega) (by omega)).bind ?_
      rintro x c' log ⟨rfl, rfl, hlog⟩
      refine Prog.ends_pure.mpr ⟨?_, rfl, fun k => ?_⟩
      · rw [List.takeWhile_cons, if_pos (by simp [hb])]
      · rw [List.append_nil]
        exact (hlog k).read hi (by omega)

/-- The comparison stops at the NUL at the latest. -/
theorem ends_strncasecmpAt (i : Int) (hsize : len < size input) : ∀ (s : List Byte), (∀ e ∈ s, tolower e ≠ 0) →
    ∀ (text : List Byte) (p : Int), c.At input p (text ++ [0]) → p + text.length = len → 0 ≤ p → i ≤ p →
    Prog.Ends (strncasecmpAt input p s) c fun r c' log =>
      r = startsWithCase text s ∧ c' = c ∧ ∀ k, TurnLog size i k log := by
  intro s
  induction s with
  | nil =>
    intro _ text p _ _ _ _
    refine Prog.ends_pure.mpr ⟨?_, rfl, fun _ => TurnLog.nil⟩
    cases text <;> rfl
  | cons e s ih =>
    intro hs text p hat hlen hp hi
    obtain ⟨he, hs⟩ := List.forall_mem_cons.mp hs
    rw [strncasecmpAt]
    cases text with
    | nil =>
      rw [List.length_nil] at hlen
      have hnul : tolower 0 = 0 := by decide
      simp only [Prog.ends_bind, Prog.ends_read, (Cells.at_cons.mp hat).1, hnul]
      rw [if_neg (Ne.symm he)]
      exact Prog.ends_pure.mpr ⟨rfl, rfl, fun _ => TurnLog.nil.read hi (by omega)⟩
    | cons b text =>
      rw [List.length_cons] at hlen
      rw [List.cons_append, Cells.at_cons] at hat
      simp only [Prog.ends_bind, Prog.ends_read, hat.1]
      by_cases hb : tolower b = tolower e
      · rw [if_pos hb]
        refine (ih hs text (p + 1) hat.2 (by omega) (by omega) (by omega)).mono ?_
        rintro r c' log ⟨rfl, rfl, hlog⟩
        refine ⟨?_, rfl, fun k => (hlog k).read hi (by omega)⟩
        rw [startsWithCase, decide_eq_true hb, Bool.true_and]
      · rw [if_neg hb]
        refine Prog.ends_pure.mpr ⟨?_, rfl, fun _ => TurnLog.nil.read hi (by omega)⟩
        rw [startsWithCase, decide_eq_false hb, Bool.false_and]

/-- The semicolon. -/
theorem ends_skipSemicolon (i : Int) (hsize : len < size input) (text : List Byte) (p : Int)
    (hat : c.At input p (text ++ [0])) (hlen : p + text.length = len) (hp : 0 ≤ p) (hi : i ≤ p) :
    Prog.Ends (skipSemicolon input len p) c fun r c' log => ∃ used rest, text = used ++ rest ∧
      rest = (if text.head? = some (ch ';') then text.tail else text) ∧ r = p + used.length ∧ c' = c ∧
      ∀ k, TurnLog size i k log := by
  unfold skipSemicolon
  cases text with
  | nil =>
    rw [List.length_nil] at hlen
    rw [if_neg (by omega)]
    exact Prog.ends_pure.mpr ⟨[], [], rfl, rfl, by simp, rfl, fun _ => TurnLog.nil⟩
  | cons b text =>
    rw [List.length_cons] at hlen
    rw [if_pos (by omega)]
    rw [Prog.ends_bind, Prog.ends_read, Prog.ends_pure, (Cells.at_cons.mp hat).1]
    have hlog : ∀ k, TurnLog size i k [.read input p] := fun _ => TurnLog.nil.read hi (by omega)
    by_cases hb : b = ch ';'
    · exact ⟨[b], text, rfl, by simp [hb], by simp [hb], rfl, hlog⟩
    · exact ⟨[], b :: text, rfl, by simp [hb], by simp [hb], rfl, hlog⟩

/-- The names. -/
theorem ends_entityName (i : Int) (hsize : len < size input) {text : List Byte} {p : Int}
    (hat : c.At input p (text ++ [0])) (hlen : p + text.length = len) (hp : 0 ≤ p) (hi : i ≤ p) :
    ∀ names : List (String × Byte), (∀ e ∈ names, ∀ b ∈ str e.1, tolower b ≠ 0) →
    Prog.Ends (entityName input p names) c fun r c' log =>
      r = (names.find? fun e => startsWithCase text (str e.1)).map Prod.snd ∧ c' = c ∧
        ∀ k, TurnLog size i k log := by
  intro names
  induction names with
  | nil => exact fun _ => Prog.ends_pure.mpr ⟨rfl, rfl, fun _ => TurnLog.nil⟩
  | cons e names ih =>
    intro hnames
    obtain ⟨he, hrest⟩ := List.forall_mem_cons.mp hnames
    obtain ⟨name, b⟩ := e
    rw [entityName]
    refine (ends_strncasecmpAt i hsize (str name) he text p hat hlen hp hi).bind ?_
    rintro r c' log ⟨rfl, rfl, hlog⟩
    rw [List.find?_cons]
    cases startsWithCase text (str name) with
    | true =>
      rw [if_pos rfl]
      exact Prog.ends_pure.mpr ⟨rfl, rfl, by rw [List.append_nil]; exact hlog⟩
    | false =>
      rw [if_neg Bool.false_ne_true]
      refine (ih hrest).mono ?_
      rintro r c'' log' ⟨rfl, rfl, hlog'⟩
      exact ⟨rfl, rfl, fun k => (hlog' k).behind hlog⟩

end

/-! ## Numbers -/

theorem digits_takeWhile (base : Nat) : ∀ (l : List Byte) (acc : Nat),
    digits base acc (l.takeWhile (· ≠ 0)) = digits base acc l := by
  have hnul : digitValue 0 = none := by decide
  intro l
  induction l with
  | nil => exact fun _ => rfl
  | cons b l ih =>
    intro acc
    by_cases hb : b = 0
    · rw [List.takeWhile_cons, if_neg (by simp [hb]), digits, digits, hb, hnul]
    · rw [List.takeWhile_cons, if_pos (by simp [hb]), digits, digits]
      cases digitValue b with
      | none => rfl
      | some d =>
        dsimp only
        rw [ih]

theorem skipHexMark_takeWhile (base : Nat) (l : List Byte) :
    skipHexMark base (l.takeWhile (· ≠ 0)) = (skipHexMark base l).takeWhile (· ≠ 0) := by
  have hzero : (0 : Byte) ≠ ch '0' := by decide
  have hmark : tolower 0 ≠ ch 'x' ∧ isxdigit 0 = false := by decide
  rcases l with _ | ⟨z, _ | ⟨x, _ | ⟨d, rest⟩⟩⟩
  · rfl
  · by_cases hz : z = 0 <;> simp [skipHexMark, hz]
  · by_cases hz : z = 0 <;> by_cases hx : x = 0 <;> simp [skipHexMark, hz, hx]
  · by_cases hz : z = 0
    · simp [skipHexMark, hz, hzero]
    · by_cases hx : x = 0
      · simp [skipHexMark, hz, hx, hmark.1]
      · by_cases hd : d = 0
        · simp [skipHexMark, hz, hx, hd, hmark.2]
        · simp only [List.takeWhile_cons, hz, hx, hd, ne_eq, not_false_eq_true, decide_true, if_true, skipHexMark]
          split <;> simp [hz, hx, hd]

/-- The number the leading digits spell, saturated as `strtol` does it. -/
def spelled (base : Nat) (l : List Byte) : Int := min (digits base 0 l : Int) LONG_MAX

/-- From a digit on, `strtol` finds neither a space nor a sign. -/
theorem strtol_digit {b : Byte} (hb : isxdigit b = true) (l : List Byte) (base : Nat) :
    strtol (b :: l) base = spelled base (skipHexMark base (b :: l)) := by
  obtain ⟨hspace, hminus, hplus, -⟩ := isxdigit_plain hb
  unfold strtol
  rw [List.dropWhile_cons, hspace, if_neg Bool.false_ne_true]
  dsimp only
  rw [if_neg hminus, if_neg hplus]
  rfl

/-- `strtol` reads no further than the NUL. -/
theorem strtol_takeWhile {b : Byte} (hb : isxdigit b = true) (l : List Byte) (base : Nat) :
    strtol ((b :: l).takeWhile (· ≠ 0)) base = strtol (b :: l) base := by
  have hnul : b ≠ 0 := by
    intro hzero
    rw [hzero] at hb
    exact absurd hb (by decide)
  have htake : (b :: l).takeWhile (· ≠ 0) = b :: l.takeWhile (· ≠ 0) := by
    rw [List.takeWhile_cons, if_pos (by simp [hnul])]
  rw [htake, strtol_digit hb, strtol_digit hb, ← htake, skipHexMark_takeWhile, spelled, spelled, digits_takeWhile]

/-- The text behind a semicolon, if one is there. -/
def behindSemicolon (l : List Byte) : List Byte := if l.head? = some (ch ';') then l.tail else l

section
variable {input : ν} {size : ν → Int} {c c' : Cells ν Byte} {i count k : Int} {text rest : List Byte}
  {b : Byte} {r : (Int × Int) ⊕ Nat} {log log' : List (Event ν)}

/-- A byte is written at `count`, and what stands at `k` and the text up to `rest` is consumed. -/
def Replaced (input : ν) (size : ν → Int) (i count k : Int) (text rest : List Byte) (b : Byte)
    (c : Cells ν Byte) (r : (Int × Int) ⊕ Nat) (c' : Cells ν Byte) (log : List (Event ν)) : Prop :=
  ∃ used, text = used ++ rest ∧ r = .inl (k + used.length, count + 1) ∧ c'.At input count [b] ∧
    Cells.Within input count (count + 1) c c' ∧ TurnLog size i (k + used.length) log

theorem Replaced.cons (h : Replaced input size i count (k + 1) text rest b c r c' log) (e : Byte) :
    Replaced input size i count k (e :: text) rest b c r c' log := by
  obtain ⟨used, rfl, rfl, hat, hwithin, hlog⟩ := h
  have hend : k + 1 + (used.length : Int) = k + ((e :: used).length : Int) := by
    rw [List.length_cons]
    omega
  rw [hend] at hlog ⊢
  exact ⟨e :: used, rfl, rfl, hat, hwithin, hlog⟩

/-- Accesses in front that only read. -/
theorem Replaced.behind (h : Replaced input size i count k text rest b c r c' log)
    (hlog : ∀ i', TurnLog size i i' log') :
    Replaced input size i count k text rest b c r c' (log' ++ log) := by
  obtain ⟨used, rfl, rfl, hat, hwithin, hlog'⟩ := h
  exact ⟨used, rfl, rfl, hat, hwithin, hlog'.behind hlog⟩

end

section
variable [DecidableEq ν] {input : ν} {size : ν → Int} {c : Cells ν Byte} {i len count : Int}

/-- The end of a reference: the byte is written, and a semicolon is skipped. -/
theorem ends_replace (hsize : len < size input) {k : Int} {text rest used : List Byte} (b : Byte)
    (hat : c.At input k (text ++ [0])) (hlen : k + text.length = len) (hcount : 0 ≤ count ∧ count < k)
    (hi : 0 ≤ i ∧ i ≤ k) (htext : text = used ++ rest) :
    Prog.Ends (do
        Prog.write input count b
        let i ← skipSemicolon input len (k + used.length)
        pure (.inl (i, count + 1) : (Int × Int) ⊕ Nat)) c
      (Replaced input size i count k text (behindSemicolon rest) b c) := by
  have hall := congrArg List.length htext
  rw [List.length_append] at hall
  simp only [Prog.ends_bind, Prog.ends_write]
  have hrest : (c.set input count b).At input (k + used.length) (rest ++ [0]) := by
    rw [htext, List.append_assoc, Cells.at_append] at hat
    exact hat.2.set (Or.inr (Or.inl (by omega)))
  refine (ends_skipSemicolon (k + used.length) hsize rest _ hrest (by omega) (by omega) (Int.le_refl _)).mono ?_
  rintro j c' log ⟨semi, rest', hrest', hbehind, rfl, rfl, hlog⟩
  rw [Prog.ends_pure, List.append_nil]
  have hbehind : rest' = behindSemicolon rest := hbehind
  have hsemi := congrArg List.length hrest'
  rw [List.length_append] at hsemi
  have hend : k + (used.length : Int) + semi.length = k + ((used ++ semi).length : Int) := by
    rw [List.length_append]
    omega
  rw [hend]
  refine ⟨used ++ semi, ?_, rfl, Cells.at_singleton.mpr Cells.set_same, ?_, ?_⟩
  · rw [← hbehind, List.append_assoc, ← hrest', htext]
  · exact (Cells.Within.refl _ _ _ _).set (Int.le_refl _) (by omega)
  · have hstep : TurnLog size i (k + used.length) [.write input count] :=
      TurnLog.nil.write List.not_mem_nil (by omega) (by omega)
    exact hstep.append (hlog _) (by omega) (by omega)

theorem takeWhile_ne_nil {digit : Byte → Bool} {text : List Byte} (h : text.takeWhile digit ≠ []) :
    ∃ b rest, text = b :: rest ∧ digit b = true := by
  cases text with
  | nil => exact absurd rfl h
  | cons b rest =>
    refine ⟨b, rest, rfl, ?_⟩
    by_contra hno
    exact h (by rw [List.takeWhile_cons, if_neg hno])

/-- **A number** is replaced; what is skipped is its run of digits. -/
theorem ends_numericEntity (hsize : len < size input) {k : Int} {text : List Byte} {digit : Byte → Bool}
    (hdigit : ∀ b, digit b = true → isxdigit b = true) (base copy : Nat) (hat : c.At input k (text ++ [0]))
    (hlen : k + text.length = len) (hcount : 0 ≤ count ∧ count < k) (hi : 0 ≤ i ∧ i ≤ k) :
    Prog.Ends (numericEntity input len count k digit base copy) c fun r c' log =>
      if text.takeWhile digit = [] then r = .inr copy ∧ c' = c ∧ ∀ i', TurnLog size i i' log
      else Replaced input size i count k text (behindSemicolon (text.dropWhile digit))
        (UInt8.ofInt (strtol text base)) c r c' log := by
  have hfuel : (len - k).toNat = text.length := by omega
  unfold numericEntity
  rw [hfuel]
  refine (ends_scan (Int.le_of_lt hsize) text k c (Cells.at_append.mp hat).1 hlen (by omega)).bind ?_
  rintro j c' log ⟨rfl, rfl, hlog⟩
  by_cases hnone : text.takeWhile digit = []
  · rw [hnone, List.length_nil, if_neg (by omega)]
    rw [Prog.ends_pure, List.append_nil, if_pos rfl]
    exact ⟨rfl, rfl, fun i' => (hlog i').mono hi.2 (Int.le_refl i')⟩
  · have hpos := List.length_pos_iff.mpr hnone
    rw [if_pos (by omega)]
    obtain ⟨b, rest, rfl, hb⟩ := takeWhile_ne_nil hnone
    refine (ends_cStringAt i hsize (b :: rest) k hat hlen (by omega) hi.2).bind ?_
    rintro x c'' log' ⟨rfl, rfl, hlog'⟩
    rw [strtol_takeWhile (hdigit b hb)]
    refine (ends_replace hsize _ hat hlen hcount hi (List.takeWhile_append_dropWhile (p := digit)).symm).mono ?_
    rintro r d log'' ⟨used, htext, rfl, hat'', hwithin, hlog''⟩
    rw [if_neg hnone]
    refine ⟨used, htext, rfl, hat'', hwithin, ?_⟩
    exact (hlog''.behind hlog').behind fun i' => (hlog i').mono hi.2 (Int.le_refl i')

/-! ## References -/

theorem entityNames_nonzero : ∀ e ∈ entityNames, ∀ b ∈ str e.1, tolower b ≠ 0 := by
  have hall : (entityNames.all fun e => (str e.1).all fun b => decide (tolower b ≠ 0)) = true := by decide
  exact fun e he => forall_text (List.all_eq_true.mp hall e he)

/-- The comparisons of the list decoder are those with the names. -/
theorem httpHtmlReference_name {b : Byte} (hb : b ≠ ch '#') (text : List Byte) :
    httpHtmlReference (b :: text) =
      if (b :: text).takeWhile isalnum = [] then .inr 1
      else
        match (entityNames.find? fun e => startsWithCase (b :: text) (str e.1)).map Prod.snd with
        | some e => .inl (e, behindSemicolon ((b :: text).dropWhile isalnum))
        | none => .inr (((b :: text).takeWhile isalnum).length + 1) := by
  unfold httpHtmlReference
  dsimp only
  rw [if_neg hb]
  by_cases hnone : (b :: text).takeWhile isalnum = []
  · rw [if_pos hnone, if_pos hnone]
  · rw [if_neg hnone, if_neg hnone]
    simp only [entityNames, List.find?_cons]
    cases startsWithCase (b :: text) (str "quot") <;> cases startsWithCase (b :: text) (str "amp") <;>
      cases startsWithCase (b :: text) (str "lt") <;> cases startsWithCase (b :: text) (str "gt") <;>
      cases startsWithCase (b :: text) (str "nbsp") <;> rfl

/-- A reference by number. -/
theorem ends_entityNumber (hsize : len < size input) {text : List Byte} {j : Int}
    (hat : c.At input j (ch '#' :: text ++ [0])) (hlen : j + (text.length + 1 : Nat) = len)
    (hcount : 0 ≤ count ∧ count < j) (hi : 0 ≤ i ∧ i ≤ j) :
    Prog.Ends (entityAt input len count j) c fun r c' log =>
      match httpHtmlReference (ch '#' :: text) with
      | .inl (b, rest) => Replaced input size i count j (ch '#' :: text) rest b c r c' log
      | .inr copy => r = .inr copy ∧ c' = c ∧ ∀ i', TurnLog size i i' log := by
  have hfirst := Cells.at_cons.mp hat
  unfold entityAt httpHtmlReference
  rw [Prog.ends_bind, Prog.ends_read, hfirst.1]
  dsimp only
  rw [if_pos rfl, if_pos rfl]
  cases text with
  | nil =>
    rw [if_neg (by simp at hlen; omega)]
    exact Prog.ends_pure.mpr ⟨rfl, rfl, fun _ => TurnLog.nil.read hi.2 (by omega)⟩
  | cons x hex =>
    rw [List.length_cons] at hlen
    have hsecond := Cells.at_cons.mp hfirst.2
    have hlog : ∀ i', TurnLog size i i' [.read input j, .read input (j + 1)] := fun _ =>
      (TurnLog.nil.read (by omega) (by omega)).read hi.2 (by omega)
    rw [if_pos (by omega), Prog.ends_bind, Prog.ends_read, hsecond.1]
    dsimp only
    -- base 16 behind an x, otherwise base 10
    by_cases hx : x = ch 'x' ∨ x = ch 'X'
    · rw [if_pos hx, if_pos hx]
      have hk : j + 1 + 1 = j + 2 := by omega
      have hhex : c.At input (j + 2) (hex ++ [0]) := hk ▸ hsecond.2
      rcases Nat.eq_zero_or_pos hex.length with hzero | hpos
      · obtain rfl := List.eq_nil_of_length_eq_zero hzero
        rw [if_neg (by simp at hlen; omega), if_pos List.takeWhile_nil]
        exact Prog.ends_pure.mpr ⟨rfl, rfl, hlog⟩
      · rw [if_pos (by omega)]
        refine (ends_numericEntity (i := i) hsize (fun _ h => h) 16 3 hhex (by omega) (by omega)
          (by omega)).mono ?_
        intro r c' log hr
        by_cases hnone : hex.takeWhile isxdigit = []
        · rw [if_pos hnone] at hr ⊢
          obtain ⟨rfl, rfl, hlog'⟩ := hr
          exact ⟨rfl, rfl, fun i' => (hlog' i').behind hlog⟩
        · rw [if_neg hnone] at hr ⊢
          rw [← hk] at hr
          have hreplaced := ((hr.cons x).cons (ch '#')).behind hlog
          exact hreplaced
    · rw [if_neg hx, if_neg hx]
      refine (ends_numericEntity (i := i) hsize isdigit_isxdigit 10 2 hfirst.2 (by rw [List.length_cons]; omega)
        (by omega) (by omega)).mono ?_
      intro r c' log hr
      by_cases hnone : (x :: hex).takeWhile isdigit = []
      · rw [if_pos hnone] at hr ⊢
        obtain ⟨rfl, rfl, hlog'⟩ := hr
        exact ⟨rfl, rfl, fun i' => (hlog' i').behind hlog⟩
      · rw [if_neg hnone] at hr ⊢
        have hreplaced := (hr.cons (ch '#')).behind hlog
        exact hreplaced

/-- A reference by name. -/
theorem ends_entityNamed (hsize : len < size input) {b : Byte} {text : List Byte} (hsharp : b ≠ ch '#')
    {j : Int} (hat : c.At input j (b :: text ++ [0])) (hlen : j + (text.length + 1 : Nat) = len)
    (hcount : 0 ≤ count ∧ count < j) (hi : 0 ≤ i ∧ i ≤ j) :
    Prog.Ends (entityAt input len count j) c fun r c' log =>
      match httpHtmlReference (b :: text) with
      | .inl (e, rest) => Replaced input size i count j (b :: text) rest e c r c' log
      | .inr copy => r = .inr copy ∧ c' = c ∧ ∀ i', TurnLog size i i' log := by
  have hfirst := Cells.at_cons.mp hat
  unfold entityAt
  rw [Prog.ends_bind, Prog.ends_read, hfirst.1]
  have hfuel : (len - j).toNat = (b :: text).length := by
    rw [List.length_cons]
    omega
  have hstop : j + ((b :: text).length : Int) = len := by
    rw [List.length_cons]
    exact hlen
  have hlog : ∀ i', TurnLog size i i' [.read input j] := fun _ => TurnLog.nil.read hi.2 (by omega)
  rw [if_neg hsharp, httpHtmlReference_name hsharp, hfuel]
  refine (ends_scan (Int.le_of_lt hsize) (b :: text) j c (Cells.at_append.mp hat).1 hstop (by omega)).bind ?_
  rintro k c' log ⟨rfl, rfl, hscan⟩
  have hscan : ∀ i', TurnLog size i i' log := fun i' => (hscan i').mono hi.2 (Int.le_refl i')
  by_cases hnone : (b :: text).takeWhile isalnum = []
  · rw [hnone, List.length_nil, if_neg (by omega), if_pos rfl, Prog.ends_pure, List.append_nil]
    exact ⟨rfl, rfl, fun i' => (hscan i').behind hlog⟩
  · have hpos := List.length_pos_iff.mpr hnone
    rw [if_pos (by omega), if_neg hnone]
    refine (ends_entityName i hsize hat hstop (by omega) hi.2 entityNames entityNames_nonzero).bind ?_
    rintro r c'' log' ⟨rfl, rfl, hname⟩
    cases (entityNames.find? fun e => startsWithCase (b :: text) (str e.1)).map Prod.snd with
    | some e =>
      refine (ends_replace hsize e hat hstop hcount hi
        (List.takeWhile_append_dropWhile (p := isalnum)).symm).mono ?_
      intro r d log'' hr
      have hreplaced := ((hr.behind hname).behind hscan).behind hlog
      exact hreplaced
    | none =>
      rw [Prog.ends_pure, List.append_nil]
      refine ⟨?_, rfl, fun i' => ((hname i').behind hscan).behind hlog⟩
      congr 1
      omega

/-- **A reference** is replaced as `httpHtmlReference` says. -/
theorem ends_entityAt (hsize : len < size input) {text : List Byte} (hne : text ≠ []) {j : Int}
    (hat : c.At input j (text ++ [0])) (hlen : j + text.length = len) (hcount : 0 ≤ count ∧ count < j)
    (hi : 0 ≤ i ∧ i ≤ j) :
    Prog.Ends (entityAt input len count j) c fun r c' log =>
      match httpHtmlReference text with
      | .inl (b, rest) => Replaced input size i count j text rest b c r c' log
      | .inr copy => r = .inr copy ∧ c' = c ∧ ∀ i', TurnLog size i i' log := by
  cases text with
  | nil => exact absurd rfl hne
  | cons b text =>
    rw [List.length_cons] at hlen
    by_cases hsharp : b = ch '#'
    · subst hsharp
      exact ends_entityNumber hsize hat hlen hcount hi
    · exact ends_entityNamed hsize hsharp hat hlen hcount hi

end

/-! ## The whole text -/

/-- What one turn emits of the text, and the text behind it. -/
def entityStep : List Byte → List Byte × List Byte
  | [] => ([], [])
  | c :: input =>
    if c = ch '&' ∧ input ≠ [] then
      match httpHtmlReference input with
      | .inl (b, rest) => ([b], rest)
      | .inr copy => ((c :: input).take copy, (c :: input).drop copy)
    else ([c], input)

theorem httpHtmlEntitiesLoop_rewritten : ∀ (n : Nat) (text : List Byte),
    httpHtmlEntitiesLoop n text = rewritten entityStep n text := by
  intro n
  induction n with
  | zero => exact fun _ => rfl
  | succ n ih =>
    intro text
    cases text with
    | nil => rfl
    | cons c input =>
      rw [httpHtmlEntitiesLoop, rewritten, entityStep]
      split
      · cases httpHtmlReference input with
        | inl r =>
          dsimp only
          rw [ih]
          rfl
        | inr copy =>
          dsimp only
          rw [ih]
      · rw [ih]
        rfl

/-- No more is copied than is there. -/
theorem httpHtmlReference_copy {input : List Byte} {copy : Nat} (h : httpHtmlReference input = .inr copy) :
    copy ≤ input.length + 1 := by
  cases input with
  | nil =>
    cases h
    exact Nat.le_refl 1
  | cons b input =>
    by_cases hsharp : b = ch '#'
    · unfold httpHtmlReference at h
      dsimp only at h
      rw [if_pos hsharp] at h
      cases input with
      | nil =>
        cases h
        exact Nat.le_refl 2
      | cons x hex =>
        dsimp only at h
        split at h
        · split at h
          · cases h
            simp
          · cases h
        · split at h
          · cases h
            simp
          · cases h
    · rw [httpHtmlReference_name hsharp] at h
      have hle := (List.takeWhile_prefix (p := isalnum) (l := b :: input)).length_le
      split at h
      · cases h
        omega
      · split at h
        · cases h
        · cases h
          omega

section
variable [DecidableEq ν] {input : ν} {size : ν → Int} {len : Int}

/-- **One turn** does what `entityStep` does with the text. -/
theorem entityTurn_rewriter (hsize : len < size input) :
    Rewriter (entityTurn input len) input len size 0 entityStep where
  last := fun count => if_neg fun h => Int.lt_irrefl len h.1
  next := by
    intro b text i count c hat hlen hcount
    rw [List.length_cons] at hlen
    have hfirst := Cells.at_cons.mp hat
    have hat' : c.At input i (b :: text) := (Cells.at_append.mp hat).1
    -- a stretch that is copied
    have hcopy : ∀ l rest : List Byte, b :: text = l ++ rest → l ≠ [] →
        Prog.Ends (copyOut input len l.length (i, count) >>= fun s => pure (.inl s : (Int × Int) ⊕ Int)) c
          (Emits input size i count (b :: text) (l, rest) c) := by
      intro l rest htext hl
      have hall := congrArg List.length htext
      rw [List.length_append, List.length_cons] at hall
      rw [htext] at hat'
      refine (ends_copyOut hsize l i count c (Cells.at_append.mp hat').1 (by omega) hcount).bind ?_
      rintro s c' log ⟨rfl, hout, hwithin, hlog⟩
      rw [Prog.ends_pure, List.append_nil]
      exact ⟨l, htext, hl, Nat.le_refl _, rfl, hout, hwithin, hlog⟩
    unfold entityTurn
    dsimp only
    rw [if_pos (by omega), Prog.ends_bind, Prog.ends_read, hfirst.1, entityStep]
    have hread : ∀ k, TurnLog size i k [.read input i] := fun _ => TurnLog.nil.read (Int.le_refl i) (by omega)
    by_cases hamp : b = ch '&' ∧ text ≠ []
    · have hpos := List.length_pos_iff.mpr hamp.2
      rw [if_pos hamp, if_pos ⟨hamp.1, by omega⟩]
      refine (ends_entityAt (i := i) hsize hamp.2 hfirst.2 (by omega) (by omega) (by omega)).bind ?_
      intro r c' log hr
      cases href : httpHtmlReference text with
      | inl out =>
        rw [href] at hr
        obtain ⟨used, htext, rfl, hat'', hwithin, hlog⟩ := hr
        rw [Prog.ends_pure, List.append_nil]
        have hend : i + 1 + (used.length : Int) = i + ((b :: used).length : Int) := by
          rw [List.length_cons]
          omega
        rw [hend] at hlog ⊢
        exact ⟨b :: used, by rw [htext]; rfl, List.cons_ne_nil _ _, by simp, rfl, hat'', hwithin, hlog.behind hread⟩
      | inr copy =>
        rw [href] at hr
        obtain ⟨rfl, rfl, hlog⟩ := hr
        have hle := httpHtmlReference_copy href
        have htake : ((b :: text).take copy).length = copy := by
          rw [List.length_take, List.length_cons]
          omega
        have hne : (b :: text).take copy ≠ [] :=
          List.length_pos_iff.mp (by rw [htake]; exact (httpHtmlReference_inr href).1)
        have hcopied := hcopy _ _ (List.take_append_drop copy (b :: text)).symm hne
        rw [htake] at hcopied
        refine hcopied.mono ?_
        intro r c' log' hemits
        exact (hemits.behind hlog).behind hread
    · have hpos : ¬ (b = ch '&' ∧ i + 1 < len) := by
        intro hand
        refine hamp ⟨hand.1, List.length_pos_iff.mp ?_⟩
        omega
      rw [if_neg hamp, if_neg hpos, Prog.ends_bind, Prog.ends_pure]
      refine (hcopy [b] text rfl (List.cons_ne_nil _ _)).mono ?_
      intro r c' log' hemits
      exact hemits.behind hread

/-- **The in-place decoder** leaves what the list decoder makes of the text, with a NUL. -/
theorem httpHtmlEntitiesDecodeInplace_refines {c : Cells ν Byte} {text : List Byte} (hne : text ≠ [])
    (hmax : text.length ≤ MAX_DECODE_LEN) (hat : c.At input 0 (text ++ [0]))
      (hsize : (text.length : Int) < size input) :
    Prog.Ends (httpHtmlEntitiesDecodeInplace input text.length) c fun r c' log =>
      r = (httpHtmlEntitiesDecode text).length ∧ c'.At input 0 (httpHtmlEntitiesDecode text ++ [0]) ∧
        Cells.Within input 0 (text.length + 1) c c' ∧ Prog.Inside size log := by
  have hpos := List.length_pos_iff.mpr hne
  unfold httpHtmlEntitiesDecodeInplace
  rw [if_neg (by omega)]
  refine (ends_rewrite (entityTurn_rewriter hsize) text.length text 0 0 c hat (by omega) (by omega)
    (Nat.le_refl _)).bind ?_
  rintro r c' log ⟨rfl, hle, hat', hwithin, hlog⟩
  rw [← httpHtmlEntitiesLoop_rewritten] at hle hat' ⊢
  have hend : 0 + ((httpHtmlEntitiesLoop text.length text).length : Int) =
      (httpHtmlEntitiesDecode text).length := Int.zero_add _
  rw [hend] at hle ⊢
  simp only [Prog.ends_bind, Prog.ends_write, Prog.ends_pure]
  refine ⟨trivial, ?_, ?_, ?_⟩
  · exact Cells.At.push hat' (Int.zero_add _).symm
  · exact (hwithin.mono (Int.le_refl 0) (by omega)).set (by omega) (by omega)
  · exact Prog.inside_append.mpr ⟨hlog.inside, ⟨by omega, by omega⟩, trivial⟩

end

end WafProxy
