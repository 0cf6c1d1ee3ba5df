import WafProxy.Http.DecodeLength
import WafProxy.Lib.InPlace

/-
  Backslash escapes in place — http_decode.c

  The decoder reads `input[i]` and the bytes behind it and writes `*d++`, in one
  buffer. It emits at most as many bytes as it consumes, so `d` stays at or
  behind `i`.

  What is proved:
    1. `ends_escapeTurn` — one turn of the loop is one step on the text.
    2. `httpEscapeDecodeInplace_refines` — the buffer holds what `httpEscapeDecode`
       makes of the text.
    3. `httpEscapeDecode_eq` — that is what the plain decoder `escapeDecoded` yields.
    4. `httpEscapeDecodeInplace_eq` — both together, and no byte is read after it
       was overwritten.

  Correspondence (C ↔ Lean):
    `_http_escape_decode_inplace`      ↔ `httpEscapeDecodeInplace`
    `buf`, filled by the inner loop    ↔ `octalBuf`
    `d`                                ↔ `input + count`
-/

namespace WafProxy
open Lib

variable {ν : Type}

/-- The inner loop, at `p = i + 1 + j` with `n = 3 - j`: the octal digits. -/
def octalBuf (input : ν) (inputLen : Int) : Nat → Int → Prog ν Byte (List Byte)
  | 0, _ => pure []
  | n + 1, p =>
    if p < inputLen then do
      let b ← Prog.read input p
      let next ← Prog.read input (p + 1)
      if isodigit next then do
        let rest ← octalBuf input inputLen n (p + 1)
        pure (b :: rest)
      else pure [b]
    else pure []

/-- The hexadecimal and the octal form: the byte, and how far `i` goes on. -/
def escapeNumber (input : ν) (inputLen i : Int) (second : Byte) : Prog ν Byte (Option (Byte × Int)) :=
  if second = ch 'x' ∨ second = ch 'X' then
    if i + 3 < inputLen then do
      let h ← Prog.read input (i + 2)
      if isxdigit h then do
        let k ← Prog.read input (i + 3)
        if isxdigit k then pure (some (x2c h k, 4)) else pure none
      else pure none
    else pure none
  else if isodigit second then do
    let buf ← octalBuf input inputLen 3 (i + 1)
    pure (some (UInt8.ofInt (strtol buf 8), 1 + buf.length))
  else pure none

section
variable [DecidableEq ν]

/-- One turn of the loop, from `i` and `count`; at the end of the input, `count`. -/
def escapeTurn (input : ν) (inputLen : Int) : Int × Int → Prog ν Byte ((Int × Int) ⊕ Int)
  | (i, count) =>
    if i < inputLen then do
      let first ← Prog.read input i
      if first = ch '\\' ∧ i + 1 < inputLen then do
        let second ← Prog.read input (i + 1)
        match escapeChar second with
        | some c => do
          Prog.write input count c
          pure (.inl (i + 2, count + 1))
        | none => do
          match ← escapeNumber input inputLen i second with
          | some (c, k) => do
            Prog.write input count c
            pure (.inl (i + k, count + 1))
          | none => do
            -- an encoding that is not recognized is copied
            let raw ← Prog.read input i
            Prog.write input count raw
            let raw' ← Prog.read input (i + 1)
            Prog.write input (count + 1) raw'
            pure (.inl (i + 2, count + 2))
      else do
        let raw ← Prog.read input i
        Prog.write input count raw
        pure (.inl (i + 1, count + 1))
    else pure (.inr count)

/-- `_http_escape_decode_inplace`. A turn consumes a byte. -/
def httpEscapeDecodeInplace (input : ν) (inputLen : Int) : Prog ν Byte Int :=
  Prog.loop (escapeTurn input inputLen) (inputLen.toNat + 1) (0, 0)

end

/-! ## One turn -/

/-- What a turn emits of a backslash and `d` behind it, and the text behind that. -/
def slashStep (d : Byte) (text : List Byte) : List Byte × List Byte :=
  match escapeChar d with
  | some e => ([e], text)
  | none =>
    if d = ch 'x' ∨ d = ch 'X' then
      match text with
      | h :: k :: rest => if isxdigit h ∧ isxdigit k then ([x2c h k], rest) else ([ch '\\', d], text)
      | _ => ([ch '\\', d], text)
    else if isodigit d then
      let buf := ((d :: text).take 3).takeWhile isodigit
      ([UInt8.ofInt (strtol buf 8)], (d :: text).drop buf.length)
    else ([ch '\\', d], text)

/-- What one turn emits of the text, and the text behind it. -/
def escapeStep : List Byte → List Byte × List Byte
  | [] => ([], [])
  | [c] => ([c], [])
  | c :: d :: text => if c ≠ ch '\\' then ([c], d :: text) else slashStep d text

theorem httpEscapeLoop_nil (n : Nat) : httpEscapeLoop n [] = [] := by
  cases n <;> rfl

theorem httpEscapeLoop_slash (n : Nat) (d : Byte) (text : List Byte) :
    httpEscapeLoop (n + 1) (ch '\\' :: d :: text) =
      (slashStep d text).1 ++ httpEscapeLoop n (slashStep d text).2 := by
  conv_lhs => unfold httpEscapeLoop
  rw [if_neg (fun h => h rfl)]
  unfold slashStep
  cases escapeChar d with
  | some e => rfl
  | none =>
    dsimp only
    by_cases hx : d = ch 'x' ∨ d = ch 'X'
    · rw [if_pos hx, if_pos hx]
      rcases text with _ | ⟨h, _ | ⟨k, rest⟩⟩
      · rfl
      · rfl
      · dsimp only
        split <;> rfl
    · rw [if_neg hx, if_neg hx]
      split <;> rfl

/-- One turn of the list decoder. -/
theorem httpEscapeLoop_succ (n : Nat) (text : List Byte) :
    httpEscapeLoop (n + 1) text = (escapeStep text).1 ++ httpEscapeLoop n (escapeStep text).2 := by
  rcases text with _ | ⟨c, _ | ⟨d, text⟩⟩
  · rw [httpEscapeLoop_nil, escapeStep, httpEscapeLoop_nil]
    rfl
  · rw [escapeStep, httpEscapeLoop_nil]
    rfl
  · rw [escapeStep]
    by_cases hc : c ≠ ch '\\'
    · conv_lhs => unfold httpEscapeLoop
      rw [if_pos hc, if_pos hc]
      rfl
    · obtain rfl : c = ch '\\' := not_not.mp hc
      rw [if_neg hc]
      exact httpEscapeLoop_slash n d text

theorem httpEscapeLoop_rewritten : ∀ (n : Nat) (text : List Byte),
    httpEscapeLoop n text = rewritten escapeStep n text := by
  intro n
  induction n with
  | zero => exact fun _ => rfl
  | succ n ih =>
    intro text
    cases text with
    | nil => rfl
    | cons b text => rw [httpEscapeLoop_succ, ih, rewritten]

section
variable {input : ν} {size : ν → Int} {c : Cells ν Byte} {i len : Int}

/-- The octal digits, at most three. Nothing is written. -/
theorem ends_octalBuf (k : Int) (hsize : len < size input) : ∀ (n : Nat) (b : Byte) (text : List Byte) (p : Int),
    c.At input p (b :: text ++ [0]) → p + (b :: text).length = len → 0 ≤ p → isodigit b = true →
    Prog.Ends (octalBuf input len n p) c fun buf c' log =>
      buf = ((b :: text).take n).takeWhile isodigit ∧ c' = c ∧ TurnLog size p k log := by
  intro n
  induction n with
  | zero =>
    intro b text p _ _ _ _
    exact Prog.ends_pure.mpr ⟨rfl, rfl, TurnLog.nil⟩
  | succ n ih =>
    intro b text p hat hlen hp hb
    rw [List.length_cons] at hlen
    rw [List.cons_append, Cells.at_cons] at hat
    obtain ⟨hfirst, hrest⟩ := hat
    have hpair : ∀ {log : List (Event ν)}, TurnLog size p k log →
        TurnLog size p k (.read input p :: .read input (p + 1) :: log) := fun h =>
      (h.read (by omega) (by omega)).read (Int.le_refl p) (by omega)
    have hdigits : ((b :: text).take (n + 1)).takeWhile isodigit = b :: (text.take n).takeWhile isodigit := by
      rw [List.take_succ_cons, List.takeWhile_cons, if_pos hb]
    rw [octalBuf, if_pos (by omega), hdigits]
    simp only [Prog.ends_bind, Prog.ends_read, hfirst]
    by_cases hd : isodigit (c input (p + 1)) = true
    · rw [if_pos hd]
      cases text with
      | nil =>
        -- the NUL behind the input is no digit
        rw [(Cells.at_cons.mp hrest).1] at hd
        exact absurd hd (by decide)
      | cons d text =>
        rw [(Cells.at_cons.mp hrest).1] at hd
        rw [List.length_cons] at hlen
        refine (ih d text (p + 1) hrest (by rw [List.length_cons]; omega) (by omega) hd).bind ?_
        rintro buf c' log ⟨rfl, rfl, hlog⟩
        exact Prog.ends_pure.mpr
          ⟨rfl, rfl, hpair (by rw [List.append_nil]; exact hlog.mono (by omega) (Int.le_refl k))⟩
    · rw [if_neg hd]
      refine Prog.ends_pure.mpr ⟨?_, rfl, hpair TurnLog.nil⟩
      cases text with
      | nil => rw [List.take_nil, List.takeWhile_nil]
      | cons d text =>
        rw [(Cells.at_cons.mp hrest).1] at hd
        cases n with
        | zero => rfl
        | succ n => rw [List.take_succ_cons, List.takeWhile_cons, if_neg hd]

/-- The hexadecimal and the octal form. Nothing is written. -/
theorem ends_escapeNumber (k : Int) (hsize : len < size input) {d : Byte} {text : List Byte}
    (hat : c.At input (i + 1) (d :: text ++ [0])) (hlen : i + 1 + (d :: text).length = len) (hi : 0 ≤ i)
    (hnone : escapeChar d = none) :
    Prog.Ends (escapeNumber input len i d) c fun r c' log => c' = c ∧ TurnLog size i k log ∧
      match r with
      | some (b, n) => ∃ used rest, d :: text = used ++ rest ∧ slashStep d text = ([b], rest) ∧
          n = 1 + used.length ∧ used ≠ []
      | none => slashStep d text = ([ch '\\', d], text) := by
  rw [List.length_cons] at hlen
  have hrest := (Cells.at_cons.mp hat).2
  unfold escapeNumber slashStep
  rw [hnone]
  dsimp only
  by_cases hx : d = ch 'x' ∨ d = ch 'X'
  · rw [if_pos hx, if_pos hx]
    rcases text with _ | ⟨h, _ | ⟨l, rest⟩⟩
    · rw [if_neg (by simp at hlen; omega)]
      exact Prog.ends_pure.mpr ⟨rfl, TurnLog.nil, rfl⟩
    · rw [if_neg (by simp at hlen; omega)]
      exact Prog.ends_pure.mpr ⟨rfl, TurnLog.nil, rfl⟩
    · simp only [List.length_cons] at hlen
      have hh : c input (i + 2) = h := by
        have hcell := (Cells.at_cons.mp hrest).1
        rwa [show i + 1 + 1 = i + 2 by omega] at hcell
      have hl : c input (i + 3) = l := by
        have hcell := (Cells.at_cons.mp (Cells.at_cons.mp hrest).2).1
        rwa [show i + 1 + 1 + 1 = i + 3 by omega] at hcell
      rw [if_pos (by omega)]
      simp only [Prog.ends_bind, Prog.ends_read, hh]
      by_cases hhx : isxdigit h = true
      · rw [if_pos hhx]
        simp only [Prog.ends_bind, Prog.ends_read, hl]
        have hlog : TurnLog size i k [.read input (i + 2), .read input (i + 3)] :=
          (TurnLog.nil.read (by omega) (by omega)).read (by omega) (by omega)
        by_cases hlx : isxdigit l = true
        · rw [if_pos hlx, if_pos ⟨hhx, hlx⟩]
          exact Prog.ends_pure.mpr ⟨rfl, hlog, [d, h, l], rest, rfl, rfl, rfl, List.cons_ne_nil _ _⟩
        · rw [if_neg hlx, if_neg (fun hand => hlx hand.2)]
          exact Prog.ends_pure.mpr ⟨rfl, hlog, rfl⟩
      · rw [if_neg hhx, if_neg (fun hand => hhx hand.1)]
        exact Prog.ends_pure.mpr ⟨rfl, TurnLog.nil.read (by omega) (by omega), rfl⟩
  · rw [if_neg hx, if_neg hx]
    by_cases hd : isodigit d = true
    · rw [if_pos hd, if_pos hd]
      refine (ends_octalBuf k hsize 3 d text (i + 1) hat (by rw [List.length_cons]; exact hlen)
        (by omega) hd).bind ?_
      rintro buf c' log ⟨rfl, rfl, hlog⟩
      refine Prog.ends_pure.mpr ⟨rfl, ?_, ((d :: text).take 3).takeWhile isodigit, _, ?_, rfl, rfl, ?_⟩
      · rw [List.append_nil]
        exact hlog.mono (by omega) (Int.le_refl k)
      · have hprefix : ((d :: text).take 3).takeWhile isodigit <+: d :: text :=
          (List.takeWhile_prefix _).trans (List.take_prefix _ _)
        exact (List.prefix_iff_eq_append.mp hprefix).symm
      · rw [List.take_succ_cons, List.takeWhile_cons, if_pos hd]
        exact List.cons_ne_nil _ _
    · rw [if_neg hd, if_neg hd]
      exact Prog.ends_pure.mpr ⟨rfl, TurnLog.nil, rfl⟩

theorem slashStep_char {d e : Byte} (h : escapeChar d = some e) (text : List Byte) :
    slashStep d text = ([e], text) := by
  unfold slashStep
  rw [h]

theorem escapeStep_other {b : Byte} {text : List Byte} (h : ¬ (b = ch '\\' ∧ text ≠ [])) :
    escapeStep (b :: text) = ([b], text) := by
  cases text with
  | nil => rfl
  | cons d text =>
    rw [escapeStep, if_pos fun hb => h ⟨hb, List.cons_ne_nil _ _⟩]

section
variable [DecidableEq ν] {count : Int}

/-- Two bytes are copied; the second is read before the first write reaches it. -/
theorem ends_copyTwo (hsize : len < size input) (hcount : 0 ≤ count ∧ count ≤ i) {a b : Byte}
    (ha : c input i = a) (hb : c input (i + 1) = b) (hk : i + 2 ≤ len) :
    Prog.Ends (do
        let raw ← Prog.read input i
        Prog.write input count raw
        let raw' ← Prog.read input (i + 1)
        Prog.write input (count + 1) raw'
        pure (.inl (i + 2, count + 2) : (Int × Int) ⊕ Int)) c
      fun r c' log => r = .inl (i + 2, count + 2) ∧ c'.At input count [a, b] ∧
        Cells.Within input count (count + 2) c c' ∧ TurnLog size i (i + 2) log := by
  have hnext : c.set input count a input (i + 1) = b := by
    rw [Cells.set_index (by omega), hb]
  simp only [Prog.ends_bind, Prog.ends_read, Prog.ends_write, Prog.ends_pure, ha, hnext, true_and]
  refine ⟨⟨?_, Cells.set_same, trivial⟩, ?_, ?_⟩
  · rw [Cells.set_index (by omega), Cells.set_same]
  · exact ((Cells.Within.refl _ _ _ _).set (Int.le_refl _) (by omega)).set (by omega) (by omega)
  · have hlast : TurnLog size i (i + 2) [.read input (i + 1), .write input (count + 1)] :=
      (TurnLog.nil.write List.not_mem_nil (by omega) (by omega)).read (by omega) (by omega)
    have hlater : .read input count ∉ [Event.read input (i + 1), .write input (count + 1)] := by
      simp
      omega
    exact (hlast.write hlater (by omega) (by omega)).read (Int.le_refl i) (by omega)

/-- **One turn** writes what `escapeStep` emits, behind what it consumed. -/
theorem ends_escapeTurn (hsize : len < size input) {b : Byte} {text : List Byte}
    (hat : c.At input i (b :: text ++ [0])) (hlen : i + (b :: text).length = len) (hcount : 0 ≤ count ∧ count ≤ i) :
    Prog.Ends (escapeTurn input len (i, count)) c
      (Emits input size i count (b :: text) (escapeStep (b :: text)) c) := by
  rw [List.length_cons] at hlen
  have hfirst : c input i = b := (Cells.at_cons.mp hat).1
  have hrest := (Cells.at_cons.mp hat).2
  unfold escapeTurn
  simp only
  rw [if_pos (by omega)]
  simp only [Prog.ends_bind, Prog.ends_read, hfirst]
  by_cases hslash : b = ch '\\' ∧ i + 1 < len
  · rw [if_pos hslash]
    obtain ⟨rfl, hlt⟩ := hslash
    rcases text with _ | ⟨d, text⟩
    · simp at hlen
      omega
    · rw [List.length_cons] at hlen
      have hsecond : c input (i + 1) = d := (Cells.at_cons.mp hrest).1
      simp only [Prog.ends_bind, Prog.ends_read, hsecond]
      have hstep : escapeStep (ch '\\' :: d :: text) = slashStep d text := by
        unfold escapeStep
        exact if_neg fun h => h rfl
      rw [hstep]
      cases hesc : escapeChar d with
      | some e =>
        rw [slashStep_char hesc]
        refine (ends_emit hsize hcount (by omega)).mono ?_
        rintro r c' log ⟨rfl, hat', hwithin, hlog⟩
        refine ⟨[ch '\\', d], rfl, List.cons_ne_nil _ _, by simp, rfl, hat', hwithin, ?_⟩
        exact (hlog.read (by omega) (by omega)).read (Int.le_refl i) (by omega)
      | none =>
        refine (ends_escapeNumber i hsize hrest (by rw [List.length_cons]; omega) (by omega) hesc).bind ?_
        rintro r c' log ⟨rfl, hlog, hr⟩
        cases r with
        | some r =>
          obtain ⟨e, n⟩ := r
          obtain ⟨used, rest, htext, hstep, rfl, hused⟩ := hr
          have hpos := List.length_pos_iff.mpr hused
          have hall := congrArg List.length htext
          simp only [List.length_append, List.length_cons] at hall
          rw [hstep]
          refine (ends_emit hsize hcount (by omega)).mono ?_
          rintro r c' log' ⟨rfl, hat', hwithin, hlog'⟩
          have hlen' : i + (1 + (used.length : Int)) = i + ((ch '\\' :: used).length : Int) := by
            rw [List.length_cons]
            omega
          rw [hlen'] at hlog' ⊢
          refine ⟨ch '\\' :: used, by rw [htext]; rfl, List.cons_ne_nil _ _, by simp, rfl, hat', hwithin, ?_⟩
          have hboth := hlog.append hlog' (Int.le_refl i) (by rw [List.length_cons]; omega)
          exact (hboth.read (by omega) (by omega)).read (Int.le_refl i) (by omega)
        | none =>
          rw [hr]
          refine (ends_copyTwo hsize hcount hfirst hsecond (by omega)).mono ?_
          rintro r c' log' ⟨rfl, hat', hwithin, hlog'⟩
          refine ⟨[ch '\\', d], rfl, List.cons_ne_nil _ _, by simp, rfl, hat', hwithin, ?_⟩
          have hboth := hlog.append hlog' (Int.le_refl i) (by omega)
          exact (hboth.read (by omega) (by omega)).read (Int.le_refl i) (by omega)
  · rw [if_neg hslash, escapeStep_other fun h => hslash ⟨h.1, ?_⟩]
    · rw [Prog.ends_bind, Prog.ends_read, hfirst]
      refine (ends_emit hsize hcount (by omega)).mono ?_
      rintro r c' log ⟨rfl, hat', hwithin, hlog⟩
      refine ⟨[b], rfl, List.cons_ne_nil _ _, by simp, rfl, hat', hwithin, ?_⟩
      exact (hlog.read (Int.le_refl i) (by omega)).read (Int.le_refl i) (by omega)
    · have hpos := List.length_pos_iff.mpr h.2
      omega

/-! ## The whole text -/

/-- The turns of the loop do what `escapeStep` does with the text. -/
theorem escapeTurn_rewriter (hsize : len < size input) :
    Rewriter (escapeTurn input len) input len size 0 escapeStep where
  last := fun _ => if_neg (Int.lt_irrefl len)
  next := fun _ _ _ _ _ => ends_escapeTurn hsize

/-- **The in-place decoder** leaves what the list decoder makes of the text. -/
theorem httpEscapeDecodeInplace_refines {text : List Byte} (hat : c.At input 0 (text ++ [0]))
    (hsize : (text.length : Int) < size input) :
    Prog.Ends (httpEscapeDecodeInplace input text.length) c fun r c' log =>
      r = (httpEscapeDecode text).length ∧ c'.At input 0 (httpEscapeDecode text) ∧
        Cells.Within input 0 text.length c c' ∧ TurnLog size 0 text.length log := by
  refine (ends_rewrite (escapeTurn_rewriter hsize) text.length text 0 0 c hat (by omega) (by omega)
    (Nat.le_refl _)).mono ?_
  rintro r c' log ⟨rfl, -, hat', hwithin, hlog⟩
  rw [← httpEscapeLoop_rewritten] at hat' ⊢
  exact ⟨Int.zero_add _, hat', hwithin, hlog⟩

end

end

/-! ## The plain decoder -/

/-- The characters that stand for another one behind a backslash. -/
def escapeTable : List (Byte × Byte) :=
  [(ch 'a', 7), (ch 'b', 8), (ch 'f', 12), (ch 'n', 10), (ch 'r', 13), (ch 't', 9), (ch 'v', 11),
    (ch '\\', ch '\\'), (ch '?', ch '?'), (ch '\'', ch '\''), (ch '"', ch '"')]

/-- The value of octal digits. -/
def octalValue (digs : List Byte) : Nat := digs.foldl (fun v d => v * 8 + (d.toNat - 48)) 0

/-- Two hexadecimal digits. -/
def hexEscape : List Byte → Option (Byte × List Byte)
  | h :: k :: rest =>
    if isxdigit h ∧ isxdigit k then
      some (UInt8.ofNat ((digitValue h).getD 0 * 16 + (digitValue k).getD 0), rest)
    else none
  | _ => none

/-- One to three octal digits. -/
def octalEscape (text : List Byte) : Option (Byte × List Byte) :=
  let digs := (text.take 3).takeWhile isodigit
  if digs = [] then none else some (UInt8.ofNat (octalValue digs), text.drop digs.length)

/-- What a backslash in front of the text is replaced by, with the text behind the sequence. -/
def escapeSequence : List Byte → Option (Byte × List Byte)
  | [] => none
  | c :: text =>
    match escapeTable.lookup c with
    | some b => some (b, text)
    | none => if c = ch 'x' ∨ c = ch 'X' then hexEscape text else octalEscape (c :: text)

theorem escapeSequence_length {text rest : List Byte} {b : Byte} (h : escapeSequence text = some (b, rest)) :
    rest.length < text.length := by
  cases text with
  | nil => cases h
  | cons c text =>
    rw [escapeSequence] at h
    split at h
    · cases h
      exact Nat.lt_succ_self _
    · split at h
      · unfold hexEscape at h
        split at h
        · split at h
          · cases h
            simp
            omega
          · cases h
        · cases h
      · unfold octalEscape at h
        dsimp only at h
        split at h
        · cases h
        next hdigs =>
          have hpos := List.length_pos_iff.mpr hdigs
          cases h
          rw [List.length_drop, List.length_cons]
          omega

/-- The text decoded from left to right, to another place: a sequence is replaced, any other
backslash is copied with the byte behind it. -/
def escapeDecoded : List Byte → List Byte
  | [] => []
  | c :: text =>
    if c = ch '\\' then
      match _h : escapeSequence text with
      | some (b, rest) => b :: escapeDecoded rest
      | none =>
        match text with
        | [] => [c]
        | d :: rest => c :: d :: escapeDecoded rest
    else c :: escapeDecoded text
termination_by text => text.length
decreasing_by
  · exact Nat.lt_succ_of_lt (escapeSequence_length _h)
  · simp only [List.length_cons]
    omega
  · simp

theorem escapeTable_lookup (c : Byte) : escapeTable.lookup c = escapeChar c := by
  revert c
  apply forall_byte
  decide +kernel

theorem x2c_eq {h k : Byte} (hh : isxdigit h = true) (hk : isxdigit k = true) :
    x2c h k = UInt8.ofNat ((digitValue h).getD 0 * 16 + (digitValue k).getD 0) := by
  have hdigit : ∀ c : Byte, isxdigit c = true →
      (if ch 'A' ≤ c then (c &&& 0xdf) - ch 'A' + 10 else c - ch '0') = UInt8.ofNat ((digitValue c).getD 0) := by
    apply forall_byte
    decide +kernel
  unfold x2c
  dsimp only
  rw [hdigit h hh, hdigit k hk, UInt8.ofNat_add, UInt8.ofNat_mul]
  rfl

theorem isodigit_value (d : Byte) (h : isodigit d = true) :
    isspace d = false ∧ d ≠ ch '-' ∧ d ≠ ch '+' ∧ digitValue d = some (d.toNat - 48) ∧ d.toNat - 48 < 8 := by
  rw [isodigit, Bool.and_eq_true, decide_eq_true_eq, decide_eq_true_eq] at h
  have hdigit : isdigit d = true := by
    rw [isdigit, Bool.and_eq_true, decide_eq_true_eq, decide_eq_true_eq]
    exact ⟨h.1, UInt8.le_trans h.2 (by decide)⟩
  obtain ⟨hspace, hminus, hplus, -⟩ := isxdigit_plain (isdigit_isxdigit d hdigit)
  have hle := UInt8.le_iff_toNat_le.mp h.2
  have hseven : (ch '7').toNat = 55 := rfl
  exact ⟨hspace, hminus, hplus, digitValue_digit hdigit, by omega⟩

theorem digits_octal : ∀ (digs : List Byte) (acc : Nat), (∀ d ∈ digs, isodigit d = true) →
    digits 8 acc digs = digs.foldl (fun v d => v * 8 + (d.toNat - 48)) acc := by
  intro digs
  induction digs with
  | nil => exact fun _ _ => rfl
  | cons d digs ih =>
    intro acc h
    obtain ⟨hd, hdigs⟩ := List.forall_mem_cons.mp h
    obtain ⟨-, -, -, hvalue, hlt⟩ := isodigit_value d hd
    rw [digits, hvalue]
    dsimp only
    rw [if_pos hlt, ih _ hdigs]
    rfl

theorem octalValue_lt : ∀ (digs : List Byte) (acc n : Nat), (∀ d ∈ digs, isodigit d = true) → acc < n →
    digs.foldl (fun v d => v * 8 + (d.toNat - 48)) acc < n * 8 ^ digs.length := by
  intro digs
  induction digs with
  | nil =>
    intro acc n _ h
    simpa using h
  | cons d digs ih =>
    intro acc n h hacc
    obtain ⟨hd, hdigs⟩ := List.forall_mem_cons.mp h
    obtain ⟨-, -, -, -, hlt⟩ := isodigit_value d hd
    have hnext := ih (acc * 8 + (d.toNat - 48)) (n * 8) hdigs (by omega)
    rw [List.foldl_cons, List.length_cons, Nat.pow_succ']
    calc digs.foldl (fun v d => v * 8 + (d.toNat - 48)) (acc * 8 + (d.toNat - 48))
        < n * 8 * 8 ^ digs.length := hnext
      _ = n * (8 * 8 ^ digs.length) := Nat.mul_assoc _ _ _

/-- `strtol` on octal digits only. -/
theorem strtol_octal {digs : List Byte} (hdigs : ∀ d ∈ digs, isodigit d = true) (hlen : digs.length ≤ 3) :
    strtol digs 8 = octalValue digs := by
  cases digs with
  | nil => rfl
  | cons d digs =>
    obtain ⟨hspace, hminus, hplus, -, -⟩ := isodigit_value d (hdigs d List.mem_cons_self)
    have hmark : skipHexMark 8 (d :: digs) = d :: digs := by
      rcases digs with _ | ⟨x, _ | ⟨y, rest⟩⟩
      · rfl
      · rfl
      · unfold skipHexMark
        exact if_neg fun h => absurd h.1 (by decide)
    have hbound : octalValue (d :: digs) < 1 * 8 ^ (d :: digs).length :=
      octalValue_lt (d :: digs) 0 1 hdigs Nat.one_pos
    have hpow : 8 ^ (d :: digs).length ≤ 8 ^ 3 := Nat.pow_le_pow_right (by decide) hlen
    have hmax : LONG_MAX = 9223372036854775807 := by decide
    rw [strtol, List.dropWhile_cons, hspace, if_neg Bool.false_ne_true]
    dsimp only
    rw [if_neg hminus, if_neg hplus, hmark, digits_octal _ _ hdigs]
    show min (octalValue (d :: digs) : Int) LONG_MAX = _
    omega

theorem ofInt_natCast (n : Nat) : UInt8.ofInt n = UInt8.ofNat n := by
  have hmod : ((n : Int) % 2 ^ 8).toNat = n % 2 ^ 8 := by omega
  rw [UInt8.ofInt, hmod, UInt8.ofNat_mod_size]

theorem escapeSequence_char {d e : Byte} (h : escapeChar d = some e) (text : List Byte) :
    escapeSequence (d :: text) = some (e, text) := by
  unfold escapeSequence
  dsimp only
  rw [escapeTable_lookup, h]

theorem escapeSequence_number {d : Byte} (h : escapeChar d = none) (text : List Byte) :
    escapeSequence (d :: text) = if d = ch 'x' ∨ d = ch 'X' then hexEscape text else octalEscape (d :: text) := by
  unfold escapeSequence
  dsimp only
  rw [escapeTable_lookup, h]

/-- The two decoders agree on what stands behind a backslash. -/
theorem slashStep_eq (d : Byte) (text : List Byte) : slashStep d text =
    match escapeSequence (d :: text) with
    | some (b, rest) => ([b], rest)
    | none => ([ch '\\', d], text) := by
  cases hesc : escapeChar d with
  | some e => rw [slashStep_char hesc, escapeSequence_char hesc]
  | none =>
    rw [escapeSequence_number hesc]
    unfold slashStep
    rw [hesc]
    dsimp only
    by_cases hx : d = ch 'x' ∨ d = ch 'X'
    · rw [if_pos hx, if_pos hx]
      rcases text with _ | ⟨h, _ | ⟨k, rest⟩⟩
      · rfl
      · rfl
      · dsimp only [hexEscape]
        by_cases hhex : isxdigit h = true ∧ isxdigit k = true
        · rw [if_pos hhex, if_pos hhex, x2c_eq hhex.1 hhex.2]
        · rw [if_neg hhex, if_neg hhex]
    · rw [if_neg hx, if_neg hx]
      unfold octalEscape
      dsimp only
      by_cases hd : isodigit d = true
      · have hne : ((d :: text).take 3).takeWhile isodigit ≠ [] := by
          rw [List.take_succ_cons, List.takeWhile_cons, if_pos hd]
          exact List.cons_ne_nil _ _
        have hvalue : strtol (((d :: text).take 3).takeWhile isodigit) 8 =
            octalValue (((d :: text).take 3).takeWhile isodigit) := by
          apply strtol_octal
          · exact fun e he => List.all_eq_true.mp List.all_takeWhile e he
          · exact Nat.le_trans (List.takeWhile_prefix _).length_le (List.length_take_le 3 _)
        rw [if_pos hd, if_neg hne, hvalue]
        dsimp only
        rw [ofInt_natCast]
      · have hnil : ((d :: text).take 3).takeWhile isodigit = [] := by
          rw [List.take_succ_cons, List.takeWhile_cons, if_neg hd]
        rw [if_neg hd, if_pos hnil]

section
variable {c d b : Byte} {text rest : List Byte}

theorem escapeDecoded_other (h : c ≠ ch '\\') : escapeDecoded (c :: text) = c :: escapeDecoded text := by
  rw [escapeDecoded, if_neg h]

theorem escapeDecoded_sequence (h : escapeSequence text = some (b, rest)) :
    escapeDecoded (ch '\\' :: text) = b :: escapeDecoded rest := by
  rw [escapeDecoded, if_pos rfl]
  split
  next b' rest' heq =>
    rw [h] at heq
    cases heq
    rfl
  next heq =>
    rw [h] at heq
    cases heq

theorem escapeDecoded_copy (h : escapeSequence (d :: text) = none) :
    escapeDecoded (ch '\\' :: d :: text) = ch '\\' :: d :: escapeDecoded text := by
  rw [escapeDecoded, if_pos rfl]
  split
  next b' rest' heq =>
    rw [h] at heq
    cases heq
  next heq => rfl

theorem escapeDecoded_last : escapeDecoded [ch '\\'] = [ch '\\'] := by
  rw [escapeDecoded, if_pos rfl]
  rfl

end

/-- The list decoder is the plain one. -/
theorem httpEscapeLoop_eq : ∀ (n : Nat) (text : List Byte), text.length ≤ n →
    httpEscapeLoop n text = escapeDecoded text := by
  intro n
  induction n with
  | zero =>
    intro text h
    rw [List.eq_nil_of_length_eq_zero (Nat.le_zero.mp h), httpEscapeLoop_nil, escapeDecoded]
  | succ n ih =>
    intro text h
    rcases text with _ | ⟨c, text⟩
    · rw [httpEscapeLoop_nil, escapeDecoded]
    · rw [List.length_cons] at h
      rw [httpEscapeLoop_succ]
      by_cases hc : c = ch '\\'
      · subst hc
        rcases text with _ | ⟨d, text⟩
        · rw [escapeStep, httpEscapeLoop_nil, escapeDecoded_last]
          rfl
        · have hstep : escapeStep (ch '\\' :: d :: text) = slashStep d text := by
            unfold escapeStep
            exact if_neg fun h => h rfl
          rw [List.length_cons] at h
          rw [hstep, slashStep_eq]
          cases hseq : escapeSequence (d :: text) with
          | some r =>
            have hlt := @escapeSequence_length (d :: text) r.2 r.1 hseq
            rw [List.length_cons] at hlt
            rw [@escapeDecoded_sequence r.1 (d :: text) r.2 hseq, ← ih r.2 (by omega)]
            rfl
          | none =>
            rw [escapeDecoded_copy hseq, ← ih text (by omega)]
            rfl
      · rw [escapeDecoded_other hc, escapeStep_other fun hand => hc hand.1, ih text (by omega)]
        rfl

theorem httpEscapeDecode_eq (text : List Byte) : httpEscapeDecode text = escapeDecoded text :=
  httpEscapeLoop_eq text.length text (Nat.le_refl _)

/-- **Backslash escapes in place.** For every text with a NUL behind it the buffer holds what
the plain decoder yields, its length is returned, every access is to the text or the NUL, no
other cell is written, and no byte is read after it was overwritten. -/
theorem httpEscapeDecodeInplace_eq [DecidableEq ν] {input : ν} {c : Cells ν Byte} (text : List Byte)
    (hat : c.At input 0 (text ++ [0])) :
    Prog.Ends (httpEscapeDecodeInplace input text.length) c fun r c' log =>
      r = (escapeDecoded text).length ∧ c'.At input 0 (escapeDecoded text) ∧
        Cells.Within input 0 text.length c c' ∧ Prog.Inside (fun _ => (text.length : Int) + 1) log ∧
        Prog.ReadFirst log := by
  refine (@httpEscapeDecodeInplace_refines ν input (fun _ => (text.length : Int) + 1) c _ text hat
    (by omega)).mono ?_
  rintro r c' log ⟨rfl, hat', hwithin, hlog⟩
  rw [httpEscapeDecode_eq] at hat' ⊢
  exact ⟨rfl, hat', hwithin, hlog.inside, hlog.readFirst⟩

theorem httpEscapeDecodeInplace_two :
    Prog.Ends (httpEscapeDecodeInplace () 11) (Cells.ofList (str "\\x41\\1012\\z" ++ [0]) 7) fun r c' log =>
      r = 5 ∧ c'.At () 0 (str "AA2\\z") ∧ Prog.ReadFirst log := by
  have hdecoded : escapeDecoded (str "\\x41\\1012\\z") = str "AA2\\z" := by
    rw [← httpEscapeDecode_eq]
    decide +kernel
  refine (httpEscapeDecodeInplace_eq (str "\\x41\\1012\\z") (Cells.at_ofList _ _)).mono ?_
  rintro r c' log ⟨rfl, hat, -, -, hread⟩
  rw [hdecoded] at hat ⊢
  exact ⟨rfl, hat, hread⟩

end WafProxy
