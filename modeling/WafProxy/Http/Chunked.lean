import WafProxy.Http.Body
import WafProxy.Lib.Decimal

/-
  Chunked framing — recv_chunk on a stream in segments

  `recv_chunk` takes its bytes in stretches; as long as it does not come to its
  end in the middle of a segment, it does what one call for each byte would do
  (`recvChunkLoop_eq_foldl`). So the cuts do not matter, and it is enough to
  follow a stream of chunks byte by byte:

   1. a size line ends at its CRLF and leaves the size (`fold_sizeLine`);
   2. the data and its CRLF are counted down (`fold_count`);
   3. the last line and the empty line end the body (`fold_last`), and no byte
      before does.

  `chunked_framing` puts this together for every list of chunks.
-/

namespace WafProxy
open Lib

/-! ## Chunks -/

/-- A chunk: the digits of its size, an optional extension, its data. -/
structure Chunk where
  size : List Byte
  ext : List Byte
  data : List Byte
  size_ne : size ≠ []
  size_hex : ∀ c ∈ size, isxdigit c = true
  ext_start : ∀ c ∈ ext.head?, c = ch ';' ∨ c = ch ' ' ∨ c = ch '\t'
  ext_line : ¬ str "\r\n" <:+: ext
  line_length : (size ++ ext ++ str "\r\n").length ≤ 511
  data_ne : data ≠ []
  data_size : digits 16 0 size = data.length
  data_length : data.length < 2 ^ 31 - 2

namespace Chunk

def line (c : Chunk) : List Byte := c.size ++ c.ext ++ str "\r\n"

def text (c : Chunk) : List Byte := c.line ++ (c.data ++ str "\r\n")

end Chunk

/-- The last line, `0`, and the empty line. -/
def lastChunk : List Byte := str "0\r\n" ++ str "\r\n"

/-- A body in chunks. -/
def chunkStream (chunks : List Chunk) : List Byte := chunks.flatMap Chunk.text ++ lastChunk

/-! ## One byte at a time -/

/-- `recv_chunk` on one byte. -/
def chunkByte (loc : HttpLocal) (c : Byte) : HttpLocal := recvChunkLoop 1 [c] loc

/-- The loop is left for good: the body has ended, or a size was negative. -/
def Stopped (loc : HttpLocal) : Prop :=
  loc.unRecvChunkedLen < 0 ∨ (loc.chunkFlag = .fin ∧ loc.unRecvChunkedLen = 0)

/-- No byte of `data` but perhaps the last one stops the loop. -/
def RunsOn (loc : HttpLocal) (data : List Byte) : Prop :=
  ∀ p, p <+: data → p ≠ data → ¬ Stopped (p.foldl chunkByte loc)

theorem RunsOn.tail {loc : HttpLocal} {c : Byte} {data : List Byte} (h : RunsOn loc (c :: data)) :
    RunsOn (chunkByte loc c) data := by
  intro p hp hne
  apply h (c :: p) (List.cons_prefix_cons.mpr ⟨rfl, hp⟩)
  intro heq
  exact hne (List.cons.inj heq).2

theorem RunsOn.start {loc : HttpLocal} {c : Byte} {data : List Byte} (h : RunsOn loc (c :: data)) :
    ¬ Stopped loc := by
  have h0 := h [] List.nil_prefix (List.cons_ne_nil c data).symm
  exact h0

theorem RunsOn.drop {loc : HttpLocal} {a b : List Byte} (h : RunsOn loc (a ++ b)) :
    RunsOn (a.foldl chunkByte loc) b := by
  intro p hp hne
  have hap := h (a ++ p) ((List.prefix_append_right_inj a).mpr hp)
    (fun heq => hne (List.append_cancel_left heq))
  rw [List.foldl_append] at hap
  exact hap

/-! ## Counting down -/

theorem chunkByte_count {loc : HttpLocal} {c : Byte} (h : 1 < loc.unRecvChunkedLen) :
    chunkByte loc c = { loc with unRecvChunkedLen := loc.unRecvChunkedLen - 1 } := by
  unfold chunkByte recvChunkLoop
  rw [if_pos (by omega)]
  simp [h]

/-- Data bytes are counted down. -/
theorem fold_count (data : List Byte) : ∀ {loc : HttpLocal},
    (data.length : Int) < loc.unRecvChunkedLen →
    data.foldl chunkByte loc = { loc with unRecvChunkedLen := loc.unRecvChunkedLen - data.length } := by
  induction data with
  | nil =>
    intro loc _
    simp
  | cons c data ih =>
    intro loc h
    simp only [List.length_cons] at h
    rw [List.foldl_cons, chunkByte_count (by omega), ih (by simp; omega)]
    simp only [List.length_cons]
    congr 1
    omega

theorem chunkByte_last {loc : HttpLocal} {c : Byte} (h : loc.unRecvChunkedLen = 1) :
    chunkByte loc c = { loc with unRecvChunkedLen := 0 } := by
  unfold chunkByte recvChunkLoop
  rw [h, if_pos (by decide), if_neg (by simp)]
  cases hf : loc.chunkFlag with
  | fin => simp
  | size =>
    simp only [reduceCtorEq, if_false]
    rw [show (1 : Int).toNat = 1 from rfl, List.drop_succ_cons, List.drop_zero, recvChunkLoop]

/-- The last of them leaves 0. -/
theorem fold_counted {data : List Byte} {loc : HttpLocal} (hpos : 0 < loc.unRecvChunkedLen)
    (h : loc.unRecvChunkedLen = data.length) :
    data.foldl chunkByte loc = { loc with unRecvChunkedLen := 0 } := by
  have hne : data ≠ [] := by
    intro hnil
    subst hnil
    simp only [List.length_nil] at h
    omega
  have hsplit := List.dropLast_concat_getLast hne
  have hlen : data.dropLast.length = data.length - 1 := List.length_dropLast
  have hdpos := List.length_pos_iff.mpr hne
  rw [← hsplit, List.foldl_append, fold_count data.dropLast (by omega)]
  rw [List.foldl_cons, List.foldl_nil, chunkByte_last (by simp only; omega)]

/-! ## One byte at a time is enough -/

/-- A byte of a size line. -/
theorem chunkByte_read {c : Byte} {loc : HttpLocal} (h : ¬ 0 < loc.unRecvChunkedLen) :
    chunkByte loc c =
      match httpReadLine c loc with
      | (none, loc) => loc
      | (some line, loc) =>
        let len := toInt32 (strtol line 16)
        if len < 0 then { loc with unRecvChunkedLen := len }
        else if len = 0 then { loc with unRecvChunkedLen := 2, chunkFlag := .fin }
        else { loc with unRecvChunkedLen := toInt32 (len + 2) } := by
  unfold chunkByte
  rw [recvChunkLoop, if_neg h]
  rfl

/-- Between two stretches of data the loop takes single bytes anyway. -/
theorem recvChunkLoop_byte {n : Nat} {c : Byte} {data : List Byte} {loc : HttpLocal}
    (h : ¬ 0 < loc.unRecvChunkedLen) (hrun : data = [] ∨ ¬ Stopped (chunkByte loc c)) :
    recvChunkLoop (n + 1) (c :: data) loc = recvChunkLoop n data (chunkByte loc c) := by
  have hnil : ∀ k loc, recvChunkLoop k [] loc = loc := by
    intro k loc
    cases k <;> rfl
  rw [chunkByte_read h] at hrun ⊢
  rw [recvChunkLoop, if_neg h]
  generalize httpReadLine c loc = out at hrun ⊢
  obtain ⟨line, loc1⟩ := out
  cases line with
  | none => rfl
  | some line =>
    dsimp only at hrun ⊢
    split
    · next hneg =>
      rw [if_pos hneg] at hrun
      rcases hrun with rfl | hrun
      · rw [hnil]
      · exact absurd (Or.inl hneg) hrun
    · split <;> rfl

/-- **A segment that does not run beyond the end is taken as its bytes are.** -/
theorem recvChunkLoop_eq_foldl (n : Nat) : ∀ {data : List Byte} {loc : HttpLocal},
    data.length ≤ n → RunsOn loc data → recvChunkLoop n data loc = data.foldl chunkByte loc := by
  induction n with
  | zero =>
    intro data loc hlen _
    rw [List.length_eq_zero_iff.mp (Nat.le_zero.mp hlen)]
    rfl
  | succ n ih =>
    intro data loc hlen hrun
    cases data with
    | nil => rfl
    | cons c data =>
      have hstart := hrun.start
      by_cases hpos : 0 < loc.unRecvChunkedLen
      · rw [recvChunkLoop, if_pos hpos]
        by_cases hlt : ((c :: data).length : Int) < loc.unRecvChunkedLen
        · rw [if_pos hlt, fold_count _ hlt]
        · rw [if_neg hlt]
          have hk : ((c :: data).take loc.unRecvChunkedLen.toNat).length = loc.unRecvChunkedLen.toNat :=
            List.length_take_of_le (by omega)
          have hsplit : (c :: data).take loc.unRecvChunkedLen.toNat ++
              (c :: data).drop loc.unRecvChunkedLen.toNat = c :: data := List.take_append_drop _ _
          have hcounted : ((c :: data).take loc.unRecvChunkedLen.toNat).foldl chunkByte loc =
              { loc with unRecvChunkedLen := 0 } := fold_counted hpos (by omega)
          cases hf : loc.chunkFlag with
          | fin =>
            -- the end of the body is the end of the segment
            have hall : (c :: data).take loc.unRecvChunkedLen.toNat = c :: data := by
              apply Decidable.byContradiction
              intro hne
              apply hrun _ (List.take_prefix _ _) hne
              rw [hcounted]
              exact Or.inr ⟨hf, rfl⟩
            rw [hall] at hcounted
            rw [if_pos rfl, hcounted, hf]
          | size =>
            rw [if_neg (by simp)]
            have hsame : { loc with unRecvChunkedLen := 0, chunkFlag := ChunkFlag.size } =
                { loc with unRecvChunkedLen := 0 } := by
              rw [← hf]
            have hdrop : RunsOn { loc with unRecvChunkedLen := 0 }
                ((c :: data).drop loc.unRecvChunkedLen.toNat) := by
              have hd := RunsOn.drop (hsplit.symm ▸ hrun)
              rw [hcounted] at hd
              exact hd
            rw [hsame, ih (by rw [List.length_drop]; omega) hdrop]
            conv => rhs; rw [← hsplit, List.foldl_append, hcounted]
      · have hbyte : data = [] ∨ ¬ Stopped (chunkByte loc c) := by
          by_cases hnil : data = []
          · exact Or.inl hnil
          · right
            apply hrun [c] (List.cons_prefix_cons.mpr ⟨rfl, List.nil_prefix⟩)
            intro heq
            exact hnil (List.cons.inj heq).2.symm
        rw [recvChunkLoop_byte hpos hbyte, List.foldl_cons]
        exact ih (by simpa using hlen) hrun.tail

/-! ## A size line -/

theorem strlstrText_isSome {p : List Byte} (hp : p ≠ []) (l : List Byte) :
    (strlstrText p l).isSome ↔ p <:+: l := by
  induction l with
  | nil =>
    simp only [strlstrText, List.infix_nil]
    simp [hp]
  | cons c l ih =>
    rw [strlstrText, List.infix_cons_iff, ← ih]
    by_cases h : p.isPrefixOf (c :: l) = true
    · rw [if_pos h]
      simp [List.isPrefixOf_iff_prefix.mp h]
    · rw [if_neg h]
      have hno : ¬ p <+: c :: l := fun hpre => h (List.isPrefixOf_iff_prefix.mpr hpre)
      simp [hno]

/-- Bytes are cached until there is a CRLF. -/
theorem fold_line (l : List Byte) : ∀ {loc : HttpLocal}, ¬ 0 < loc.unRecvChunkedLen →
    ¬ str "\r\n" <:+: loc.cacheBuf ++ l → (loc.cacheBuf ++ l).length ≤ 512 →
    l.foldl chunkByte loc = { loc with cacheBuf := loc.cacheBuf ++ l } := by
  induction l with
  | nil =>
    intro loc _ _ _
    simp
  | cons c l ih =>
    intro loc hpos hno hlen
    have happ : loc.cacheBuf ++ c :: l = loc.cacheBuf ++ [c] ++ l := by simp
    have hno1 : ¬ str "\r\n" <:+: loc.cacheBuf ++ [c] := by
      intro h
      apply hno
      rw [happ]
      exact h.trans (List.prefix_append _ _).isInfix
    have hread : httpReadLine c loc = (none, { loc with cacheBuf := loc.cacheBuf ++ [c] }) := by
      have hroom : ¬ 512 < loc.cacheBuf.length + 1 := by
        simp only [List.length_append, List.length_cons] at hlen
        omega
      unfold httpReadLine
      rw [if_neg hroom]
      dsimp only
      rw [if_neg fun h => hno1 ((strlstrText_isSome (by decide) _).mp h)]
    have hone : chunkByte loc c = { loc with cacheBuf := loc.cacheBuf ++ [c] } := by
      rw [chunkByte_read hpos, hread]
    have hrest := @ih { loc with cacheBuf := loc.cacheBuf ++ [c] } hpos (happ ▸ hno) (happ ▸ hlen)
    rw [List.foldl_cons, hone, hrest, happ]

/-- The byte that completes a line. -/
theorem chunkByte_lineEnd {loc : HttpLocal} {c : Byte} (hpos : ¬ 0 < loc.unRecvChunkedLen)
    (hend : str "\r\n" <:+: loc.cacheBuf ++ [c]) (hlen : loc.cacheBuf.length < 512) :
    chunkByte loc c =
      let len := toInt32 (strtol (loc.cacheBuf ++ [c]) 16)
      if len < 0 then { loc with cacheBuf := [], unRecvChunkedLen := len }
      else if len = 0 then { loc with cacheBuf := [], unRecvChunkedLen := 2, chunkFlag := .fin }
      else { loc with cacheBuf := [], unRecvChunkedLen := toInt32 (len + 2) } := by
  have hread : httpReadLine c loc = (some (loc.cacheBuf ++ [c]), { loc with cacheBuf := [] }) := by
    unfold httpReadLine
    rw [if_neg (by omega)]
    dsimp only
    rw [if_pos ((strlstrText_isSome (by decide) _).mpr hend)]
  rw [chunkByte_read hpos, hread]

/-! ## Sizes -/

/-- `strtol` reads the size that stands in front of a byte that is neither a
digit nor an `x`, up to the greatest `long`. -/
theorem strtol_clamped {size rest : List Byte} (hne : size ≠ [])
    (hhex : ∀ c ∈ size, isxdigit c = true)
    (hrest : ∀ c ∈ rest.head?, isxdigit c = false ∧ tolower c ≠ ch 'x') :
    strtol (size ++ rest) 16 = min (digits 16 0 size : Int) LONG_MAX := by
  obtain ⟨c, size, rfl⟩ := List.exists_cons_of_ne_nil hne
  obtain ⟨hsp, hminus, hplus, -⟩ := isxdigit_plain (hhex c List.mem_cons_self)
  have hmark : skipHexMark 16 (c :: (size ++ rest)) = c :: (size ++ rest) := by
    -- the second byte is no `x`, be it a digit or the byte behind the size
    have hsecond : ∀ x ∈ (size ++ rest).head?, tolower x ≠ ch 'x' := by
      intro x hx
      cases size with
      | nil => exact (hrest x hx).2
      | cons d size =>
        cases hx
        exact (isxdigit_plain (hhex _ (List.mem_cons_of_mem _ List.mem_cons_self))).2.2.2.1
    unfold skipHexMark
    split
    · next z x d tail heq =>
      have hx : tolower x ≠ ch 'x' := by
        apply hsecond
        rw [(List.cons.inj heq).2]
        rfl
      rw [if_neg fun h => hx h.2.2.1]
    · rfl
  have hdig : digits 16 0 (c :: (size ++ rest)) = digits 16 0 (c :: size) := by
    rw [← List.cons_append, digits_front (fun q hq => (digitValue_hex q).mp (hhex q hq)), digits_stop]
    intro q hq d hd
    by_contra hlt
    have hx := (digitValue_hex q).mpr ⟨d, hd, Nat.not_le.mp hlt⟩
    rw [(hrest q hq).1] at hx
    cases hx
  unfold strtol
  rw [List.cons_append, List.dropWhile_cons_of_neg (by simp [hsp])]
  dsimp only
  rw [if_neg hminus, if_neg hplus, hmark, hdig]

/-- A small size is read as it is. -/
theorem strtol_size {size rest : List Byte} {n : Nat} (hne : size ≠ [])
    (hhex : ∀ c ∈ size, isxdigit c = true)
    (hrest : ∀ c ∈ rest.head?, isxdigit c = false ∧ tolower c ≠ ch 'x')
    (hn : digits 16 0 size = n) (hlt : n < 2 ^ 31) : strtol (size ++ rest) 16 = n := by
  rw [strtol_clamped hne hhex hrest, hn]
  unfold LONG_MAX
  omega

/-! ## A stretch that stops nothing before its end -/

/-- `data` leads from `loc` to `loc'`, and stops the loop nowhere before its end. -/
structure Reaches (loc : HttpLocal) (data : List Byte) (loc' : HttpLocal) : Prop where
  runsOn : RunsOn loc data
  fold : data.foldl chunkByte loc = loc'

theorem Reaches.append {a b c : HttpLocal} {x y : List Byte} (h : Reaches a x b) (h' : Reaches b y c)
    (hy : y ≠ []) : Reaches a (x ++ y) c where
  runsOn p hp hne := by
    have hb : ¬ Stopped b := h'.runsOn [] List.nil_prefix hy.symm
    rcases List.prefix_or_prefix_of_prefix hp (List.prefix_append x y) with hx | ⟨q, rfl⟩
    · by_cases heq : p = x
      · rw [heq, h.fold]
        exact hb
      · exact h.runsOn p hx heq
    · rw [List.foldl_append, h.fold]
      apply h'.runsOn q ((List.prefix_append_right_inj x).mp hp)
      intro heq
      exact hne (by rw [heq])
  fold := by rw [List.foldl_append, h.fold, h'.fold]

/-- Between two chunks. -/
structure Idle (loc : HttpLocal) : Prop where
  len : loc.unRecvChunkedLen = 0
  flag : loc.chunkFlag = .size
  cache : loc.cacheBuf = []

/-- No CRLF starts inside the digits. -/
theorem crlf_behind {size t : List Byte} (hhex : ∀ c ∈ size, isxdigit c = true)
    (h : str "\r\n" <:+: size ++ t) : str "\r\n" <:+: t := by
  have hcrlf : str "\r\n" = [ch '\r', ch '\n'] := by decide
  induction size with
  | nil => exact h
  | cons c size ih =>
    rw [List.cons_append] at h
    rcases List.infix_cons_iff.mp h with hpre | hin
    · rw [hcrlf] at hpre
      have hc := (List.cons_prefix_cons.mp hpre).1
      exact absurd hc.symm (isxdigit_plain (hhex c List.mem_cons_self)).2.2.2.2.2
    · exact ih (fun q hq => hhex q (List.mem_cons_of_mem _ hq)) hin

/-- A size line has no CRLF but the one it ends with. -/
theorem no_crlf {size ext : List Byte} (hhex : ∀ c ∈ size, isxdigit c = true)
    (hext : ¬ str "\r\n" <:+: ext) : ¬ str "\r\n" <:+: size ++ ext ++ [ch '\r'] := by
  intro h
  rw [List.append_assoc] at h
  rcases List.infix_concat_iff.mp (crlf_behind hhex h) with hlast | hin
  · obtain ⟨t, ht⟩ := hlast
    have heq := congrArg List.getLast? ht
    simp [str] at heq
    exact absurd heq (by decide)
  · exact hext hin

/-- A line is read up to its CRLF. -/
theorem reaches_line {loc loc' : HttpLocal} {l : List Byte} (h : Idle loc)
    (hno : ¬ str "\r\n" <:+: l ++ [ch '\r']) (hlen : (l ++ str "\r\n").length ≤ 512)
    (hend : (let len := toInt32 (strtol (l ++ str "\r\n") 16)
      if len < 0 then { loc with unRecvChunkedLen := len }
      else if len = 0 then { loc with unRecvChunkedLen := 2, chunkFlag := .fin }
      else { loc with unRecvChunkedLen := toInt32 (len + 2) }) = loc') :
    Reaches loc (l ++ str "\r\n") loc' := by
  have hcrlf : l ++ str "\r\n" = l ++ [ch '\r'] ++ [ch '\n'] := by
    rw [List.append_assoc]
    rfl
  have hpos : ¬ 0 < loc.unRecvChunkedLen := by
    rw [h.len]
    decide
  rw [hcrlf] at hlen
  simp only [List.length_append, List.length_singleton] at hlen
  have hfold : ∀ p, p <+: l ++ [ch '\r'] → p.foldl chunkByte loc = { loc with cacheBuf := p } := by
    intro p hp
    have hple := hp.length_le
    simp only [List.length_append, List.length_singleton] at hple
    have hf := fold_line p hpos (by
      rw [h.cache, List.nil_append]
      exact fun hin => hno (hin.trans hp.isInfix)) (by rw [h.cache, List.nil_append]; omega)
    rw [h.cache, List.nil_append] at hf
    exact hf
  constructor
  · intro p hp hne
    rw [hcrlf] at hp hne
    have hp' : p <+: l ++ [ch '\r'] := by
      rcases List.prefix_concat_iff.mp hp with heq | hp'
      · exact absurd heq hne
      · exact hp'
    rw [hfold p hp']
    intro hstop
    rcases hstop with hneg | ⟨hfin, -⟩
    · simp only [h.len] at hneg
      omega
    · simp only [h.flag] at hfin
      cases hfin
  · rw [hcrlf, List.foldl_append, hfold _ (List.prefix_refl _), List.foldl_cons, List.foldl_nil]
    have hlast := @chunkByte_lineEnd { loc with cacheBuf := l ++ [ch '\r'] } (ch '\n') hpos
      ⟨l, [], by rw [List.append_nil, ← hcrlf]⟩ (by simp; omega)
    rw [hlast, ← hend, hcrlf]
    have hcache := h.cache
    cases loc
    simp only at hcache
    subst hcache
    rfl

/-- Data is counted down to 0. -/
theorem reaches_data {loc : HttpLocal} {data : List Byte} (hpos : 0 < loc.unRecvChunkedLen)
    (h : loc.unRecvChunkedLen = data.length) :
    Reaches loc data { loc with unRecvChunkedLen := 0 } where
  runsOn p hp hne := by
    have hlt : p.length < data.length := by
      have hle := hp.length_le
      have hlen : p.length ≠ data.length := fun heq => hne (hp.eq_of_length heq)
      omega
    rw [fold_count p (by omega)]
    intro hstop
    rcases hstop with hneg | ⟨-, hzero⟩
    · simp only at hneg
      omega
    · simp only at hzero
      omega
  fold := fold_counted hpos h

/-- What stands behind a size: an extension or the line's end. -/
theorem behindSize {ext : List Byte} (h : ∀ c ∈ ext.head?, c = ch ';' ∨ c = ch ' ' ∨ c = ch '\t') :
    ∀ c ∈ (ext ++ str "\r\n").head?, isxdigit c = false ∧ tolower c ≠ ch 'x' := by
  intro x hx
  cases ext with
  | nil =>
    cases hx
    decide
  | cons e ext =>
    have hxe : e = x := Option.some.inj hx
    subst hxe
    rcases h e rfl with rfl | rfl | rfl <;> decide

theorem reaches_sizeLine {loc : HttpLocal} (h : Idle loc) (c : Chunk) :
    Reaches loc c.line { loc with unRecvChunkedLen := c.data.length + 2 } := by
  have hpos := List.length_pos_iff.mpr c.data_ne
  have hlt := c.data_length
  have hsize : strtol (c.size ++ c.ext ++ str "\r\n") 16 = c.data.length := by
    rw [List.append_assoc]
    exact strtol_size c.size_ne c.size_hex (behindSize c.ext_start) c.data_size (by omega)
  apply reaches_line h (no_crlf c.size_hex c.ext_line) (Nat.le_trans c.line_length (by decide))
  dsimp only
  rw [hsize, toInt32_small (by omega) (by omega), if_neg (by omega), if_neg (by omega),
    toInt32_small (by omega) (by omega)]

/-- A chunk leads from one pause to the next. -/
theorem reaches_chunk {loc : HttpLocal} (h : Idle loc) (c : Chunk) : Reaches loc c.text loc := by
  have hlen : (c.data ++ str "\r\n").length = c.data.length + 2 := by
    rw [List.length_append]
    rfl
  have hdata : Reaches { loc with unRecvChunkedLen := (c.data.length : Int) + 2 }
      (c.data ++ str "\r\n") { loc with unRecvChunkedLen := 0 } :=
    reaches_data (by simp only; omega) (by simp only; omega)
  have hsame : { loc with unRecvChunkedLen := 0 } = loc := by rw [← h.len]
  rw [hsame] at hdata
  exact (reaches_sizeLine h c).append hdata (by simp [str])

/-- The last line and the empty line end the body. -/
theorem reaches_last {loc : HttpLocal} (h : Idle loc) :
    Reaches loc lastChunk { loc with unRecvChunkedLen := 0, chunkFlag := .fin } := by
  have hline : Reaches loc (str "0" ++ str "\r\n")
      { loc with unRecvChunkedLen := 2, chunkFlag := .fin } := by
    apply reaches_line h
    · decide
    · decide
    · dsimp only
      rw [if_neg (by decide), if_pos (by decide)]
  have hend : Reaches { loc with unRecvChunkedLen := 2, chunkFlag := .fin } (str "\r\n")
      { loc with unRecvChunkedLen := 0, chunkFlag := .fin } :=
    reaches_data (by simp only; omega) rfl
  exact hline.append hend (by decide)

theorem reaches_stream {loc : HttpLocal} (h : Idle loc) (chunks : List Chunk) :
    Reaches loc (chunkStream chunks) { loc with unRecvChunkedLen := 0, chunkFlag := .fin } := by
  induction chunks with
  | nil => exact reaches_last h
  | cons c chunks ih =>
    have hcons : chunkStream (c :: chunks) = c.text ++ chunkStream chunks := by
      simp [chunkStream]
    rw [hcons]
    exact (reaches_chunk h c).append ih (by simp [chunkStream, lastChunk, str])

/-! ## Segments -/

theorem RunsOn.front {loc : HttpLocal} {a b : List Byte} (h : RunsOn loc (a ++ b)) : RunsOn loc a := by
  intro p hp hne
  apply h p (hp.trans (List.prefix_append a b))
  intro heq
  have hle := hp.length_le
  rw [heq, List.length_append] at hle
  have hb : b = [] := List.length_eq_zero_iff.mp (by omega)
  rw [hb, List.append_nil] at heq
  exact hne heq

/-- `recv_chunk` on one segment after the other. -/
def recvChunks (segments : List (List Byte)) (info : Http) : Http :=
  segments.foldl (fun info segment => recvChunk segment info) info

theorem recvChunk_loc (segment : List Byte) (info : Http) :
    (recvChunk segment info).loc = recvChunkLoop segment.length segment info.loc := by
  unfold recvChunk
  dsimp only
  split <;> rfl

/-- Segment by segment is byte by byte. -/
theorem recvChunks_loc {segments : List (List Byte)} : ∀ {info : Http},
    RunsOn info.loc segments.flatten →
    (recvChunks segments info).loc = segments.flatten.foldl chunkByte info.loc := by
  induction segments with
  | nil =>
    intro info _
    rfl
  | cons segment segments ih =>
    intro info h
    rw [List.flatten_cons] at h
    have hloc : (recvChunk segment info).loc = segment.foldl chunkByte info.loc := by
      rw [recvChunk_loc, recvChunkLoop_eq_foldl _ (Nat.le_refl _) h.front]
    have hrest := @ih (recvChunk segment info) (by rw [hloc]; exact h.drop)
    rw [List.flatten_cons, List.foldl_append, ← hloc, ← hrest]
    rfl

theorem recvChunks_concat (segments : List (List Byte)) (segment : List Byte) (info : Http) :
    recvChunks (segments ++ [segment]) info = recvChunk segment (recvChunks segments info) := by
  unfold recvChunks
  rw [List.foldl_append]
  rfl

/-- The state is set by the segment that ends the body, and by no other. -/
theorem recvChunk_state (segment : List Byte) (info : Http) :
    (recvChunk segment info).logic.state =
      if (recvChunk segment info).loc.chunkFlag = .fin ∧
          (recvChunk segment info).loc.unRecvChunkedLen = 0
        then .none else info.logic.state := by
  rw [recvChunk_loc]
  unfold recvChunk
  dsimp only
  split <;> rfl

/-- The first `i` of the segments are a front of the stream, the whole of it only
with the last one. -/
theorem flatten_take {segments : List (List Byte)} (hne : ∀ s ∈ segments, s ≠ []) {i : Nat}
    (hi : i ≤ segments.length) :
    (segments.take i).flatten <+: segments.flatten ∧
      ((segments.take i).flatten = segments.flatten ↔ i = segments.length) := by
  have hsplit : segments.flatten = (segments.take i).flatten ++ (segments.drop i).flatten := by
    rw [← List.flatten_append, List.take_append_drop]
  constructor
  · rw [hsplit]
    exact List.prefix_append _ _
  · constructor
    · intro heq
      rw [hsplit] at heq
      have hnil : (segments.drop i).flatten = [] := List.self_eq_append_right.mp heq
      apply Decidable.byContradiction
      intro hlt
      cases hdrop : segments.drop i with
      | nil =>
        have hlen := List.drop_eq_nil_iff.mp hdrop
        omega
      | cons s rest =>
        rw [hdrop, List.flatten_cons, List.append_eq_nil_iff] at hnil
        apply hne s _ hnil.1
        apply List.mem_of_mem_drop (i := i)
        rw [hdrop]
        exact List.mem_cons_self
    · intro heq
      rw [heq, List.take_length]

/-- **Chunked framing is exact, wherever the stream is cut.** After the first `i`
segments the state is the one before, until the last segment has come. -/
theorem chunked_framing (chunks : List Chunk) (segments : List (List Byte)) (info : Http)
    (h : Idle info.loc) (hne : ∀ s ∈ segments, s ≠ [])
    (hflat : segments.flatten = chunkStream chunks) (i : Nat) (hi : i ≤ segments.length) :
    (recvChunks (segments.take i) info).logic.state =
      if i = segments.length then .none else info.logic.state := by
  have hstream := reaches_stream h chunks
  induction i with
  | zero =>
    have hpos : segments.length ≠ 0 := by
      intro hlen
      rw [List.length_eq_zero_iff.mp hlen] at hflat
      have hlast := congrArg List.length hflat
      simp [chunkStream, lastChunk, str] at hlast
    rw [if_neg (by omega)]
    rfl
  | succ i ih =>
    obtain ⟨hfront, hwhole⟩ := flatten_take hne hi
    rw [hflat] at hfront hwhole
    -- where the bytes of the first `i + 1` segments lead
    have hrun : RunsOn info.loc (segments.take (i + 1)).flatten := by
      obtain ⟨rest, hrest⟩ := hfront
      have hall := hstream.runsOn
      rw [← hrest] at hall
      exact hall.front
    have hloc := recvChunks_loc hrun
    have htake : segments.take (i + 1) = segments.take i ++ [segments[i]] :=
      List.take_succ_eq_append_getElem hi
    rw [htake, recvChunks_concat] at hloc ⊢
    have hbefore : (recvChunks (segments.take i) info).logic.state = info.logic.state := by
      rw [ih (by omega), if_neg (by omega)]
    rw [recvChunk_state, hloc, ← htake, hbefore]
    by_cases hlast : i + 1 = segments.length
    · rw [hwhole.mpr hlast, hstream.fold, if_pos ⟨rfl, rfl⟩, if_pos hlast]
    · have hgo : ¬ Stopped ((segments.take (i + 1)).flatten.foldl chunkByte info.loc) :=
        hstream.runsOn _ hfront fun heq => hlast (hwhole.mp heq)
      rw [if_neg fun hend => hgo (Or.inr hend), if_neg hlast]

theorem three_ne : str "3" ≠ [] := by decide

theorem three_hex : ∀ c ∈ str "3", isxdigit c = true := by decide +kernel

/-- A chunk of three bytes. -/
def abcChunk : Chunk where
  size := str "3"
  ext := str ";a=b"
  data := str "abc"
  size_ne := three_ne
  size_hex := three_hex
  ext_start := by decide +kernel
  ext_line := by decide
  line_length := by decide
  data_ne := by decide
  data_size := by decide
  data_length := by decide

/-- Cut between CR and LF of the size line, and in the data. -/
theorem chunked_framing_abc :
    (recvChunks ([str "3;a=b\r", str "\nab", str "c\r\n0\r\n\r\n"].take 2) {}).logic.state =
      ({} : Http).logic.state :=
  chunked_framing [abcChunk] [str "3;a=b\r", str "\nab", str "c\r\n0\r\n\r\n"] {}
    ⟨rfl, rfl, rfl⟩ (by decide) (by decide) 2 (by decide)

end WafProxy
