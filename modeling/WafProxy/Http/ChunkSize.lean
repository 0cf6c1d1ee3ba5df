import WafProxy.Http.Chunked

/-
  The size of a chunk — `recv_chunk` of http_body.c

  The number of a size line goes from a `long` to the `int` `un_recv_chunked_len`,
  is tested for 0 there, and 2 is added for the CRLF behind the chunk.

  What is proved:
    1. `sizeLine_read` — what a size line leaves, however it is cut, is a function
       of its number (`sizeState`).
    2. `longLine_unread` — a line that does not fit `cache_buf` is never read.
    3. `chunk_size_iff` — the number is taken as it stands exactly when it and the
       2 fit the `int`.

  Correspondence (C ↔ Lean):
    the calls of `recv_chunk`                        ↔ `recvChunks`
    `un_recv_chunked_len`, `chunk_flag` behind them  ↔ `sizeState`
-/

namespace WafProxy
open Lib

/-- A size line: up to sixteen hexadecimal digits, perhaps an extension, and CRLF. It fits
`cache_buf`. -/
structure SizeLine where
  size : List Byte
  ext : List Byte
  size_ne : size ≠ []
  size_hex : ∀ c ∈ size, isxdigit c = true
  size_length : size.length ≤ 16
  ext_start : ∀ c ∈ ext.head?, c = ch ';' ∨ c = ch ' ' ∨ c = ch '\t'
  ext_line : ¬ str "\r\n" <:+: ext
  fits : (size ++ ext ++ str "\r\n").length ≤ 512

namespace SizeLine

def text (l : SizeLine) : List Byte := l.size ++ l.ext ++ str "\r\n"

def number (l : SizeLine) : Nat := digits 16 0 l.size

end SizeLine

/-- Whether the number and the 2 fit the `int`. -/
def SizeFits (n : Nat) : Prop := n + 2 < 2 ^ 31

instance (n : Nat) : Decidable (SizeFits n) := inferInstanceAs (Decidable (n + 2 < 2 ^ 31))

/-- However a body goes on, it is not reported complete. -/
def NeverComplete (info : Http) : Prop :=
  ∀ later : List (List Byte), (recvChunks later info).logic.state ≠ .none

/-- What a size line with the number `n` should leave. -/
structure SizeTaken (n : Nat) (info : Http) : Prop where
  /-- the number and the CRLF are counted, or the chunk is the last one, or the body is given up -/
  exact : (info.loc.unRecvChunkedLen = n + 2 ∧ info.loc.chunkFlag = .size) ∨
    (n = 0 ∧ info.loc.chunkFlag = .fin ∧ info.loc.unRecvChunkedLen = 2) ∨
    (¬ SizeFits n ∧ NeverComplete info)
  /-- only the size 0 is the last chunk's -/
  last : info.loc.chunkFlag = .fin → n = 0
  notNegative : 0 ≤ info.loc.unRecvChunkedLen

/-! ## Reading the line -/

/-- What `recv_chunk` makes of the number. -/
def sizeState (n : Nat) (loc : HttpLocal) : HttpLocal :=
  let len := toInt32 (min n LONG_MAX)
  if len < 0 then { loc with unRecvChunkedLen := len }
  else if len = 0 then { loc with unRecvChunkedLen := 2, chunkFlag := .fin }
  else { loc with unRecvChunkedLen := toInt32 (len + 2) }

theorem reaches_size {loc : HttpLocal} (h : Idle loc) (l : SizeLine) :
    Reaches loc l.text (sizeState l.number loc) := by
  have hsize : strtol (l.size ++ l.ext ++ str "\r\n") 16 = min (l.number : Int) LONG_MAX := by
    rw [List.append_assoc]
    exact strtol_clamped l.size_ne l.size_hex (behindSize l.ext_start)
  apply reaches_line h (no_crlf l.size_hex l.ext_line) l.fits
  rw [hsize]
  rfl

/-- **A size line leaves what its number says**, in whatever segments it comes. -/
theorem sizeLine_read {info : Http} (h : Idle info.loc) (l : SizeLine) {segments : List (List Byte)}
    (hflat : segments.flatten = l.text) :
    (recvChunks segments info).loc = sizeState l.number info.loc := by
  have hreach := reaches_size h l
  rw [recvChunks_loc (hflat.symm ▸ hreach.runsOn), hflat, hreach.fold]

/-- With a full `cache_buf` every byte is passed over. -/
theorem chunkByte_full {loc : HttpLocal} (hpos : ¬ 0 < loc.unRecvChunkedLen) (hfull : 512 ≤ loc.cacheBuf.length)
    (c : Byte) : chunkByte loc c = loc := by
  have hread : httpReadLine c loc = (none, loc) := by
    unfold httpReadLine
    rw [if_pos (by omega)]
  rw [chunkByte_read hpos, hread]

/-- **A line without a CRLF among its first 512 bytes is never read**: these bytes stay in
`cache_buf`, whatever follows. -/
theorem longLine_unread {loc : HttpLocal} (h : Idle loc) {line : List Byte} (hlen : line.length = 512)
    (hno : ¬ str "\r\n" <:+: line) (rest : List Byte) :
    (line ++ rest).foldl chunkByte loc = { loc with cacheBuf := line } := by
  have hpos : ¬ 0 < loc.unRecvChunkedLen := by
    rw [h.len]
    decide
  have hline := fold_line line hpos (by rw [h.cache, List.nil_append]; exact hno)
    (by rw [h.cache, List.nil_append]; omega)
  rw [h.cache, List.nil_append] at hline
  rw [List.foldl_append, hline]
  induction rest with
  | nil => rfl
  | cons c rest ih =>
    have hbyte := @chunkByte_full { loc with cacheBuf := line } hpos (Nat.le_of_eq hlen.symm) c
    rw [List.foldl_cons, hbyte, ih]

/-! ## Sixteen digits -/

theorem digits_lt (size : List Byte) (hhex : ∀ c ∈ size, isxdigit c = true) : ∀ acc,
    digits 16 acc size < (acc + 1) * 16 ^ size.length := by
  induction size with
  | nil =>
    intro acc
    show acc < (acc + 1) * 16 ^ 0
    omega
  | cons c size ih =>
    intro acc
    obtain ⟨d, hd, hlt⟩ := (digitValue_hex c).mp (hhex c List.mem_cons_self)
    have hrest := ih (fun q hq => hhex q (List.mem_cons_of_mem _ hq)) (acc * 16 + d)
    rw [digits, hd]
    simp only [hlt, if_true]
    calc digits 16 (acc * 16 + d) size
        < (acc * 16 + d + 1) * 16 ^ size.length := hrest
      _ ≤ (acc + 1) * 16 * 16 ^ size.length := Nat.mul_le_mul_right _ (by omega)
      _ = (acc + 1) * 16 ^ (c :: size).length := by
        rw [List.length_cons, Nat.pow_succ', Nat.mul_assoc]

/-- Sixteen digits are 64 bits. -/
theorem SizeLine.number_lt (l : SizeLine) : l.number < 2 ^ 64 := by
  have hdigits := digits_lt l.size l.size_hex 0
  have hpow : 16 ^ l.size.length ≤ 16 ^ 16 := Nat.pow_le_pow_right (by decide) l.size_length
  have h64 : (16 : Nat) ^ 16 = 2 ^ 64 := by decide
  unfold SizeLine.number
  omega

/-! ## The number -/

/-- An `int` that is not negative behind the addition has not overflowed. -/
theorem toInt32_add_two {len : Int} (hpos : 0 < len) (hlt : len < 2 ^ 31) (h : 0 ≤ toInt32 (len + 2)) :
    toInt32 (len + 2) = len + 2 := by
  unfold toInt32 at h ⊢
  rw [Int.bmod_def] at h ⊢
  split at h <;> split <;> omega

/-- What is left of the number when it does not fit: something negative, 0, or another number. -/
theorem sizeFits_iff {n : Nat} (hlt : n < 2 ^ 64) :
    SizeFits n ↔ toInt32 (min n LONG_MAX) = n ∧ toInt32 (toInt32 (min n LONG_MAX) + 2) = n + 2 := by
  unfold SizeFits toInt32 LONG_MAX
  rw [Int.bmod_def, Int.bmod_def]
  constructor
  · intro h
    constructor
    · split <;> omega
    · split <;> split <;> omega
  · rintro ⟨h1, h2⟩
    split at h1 <;> split at h2 <;> omega

/-- A body that goes on with a chunk of the counted size and the last chunk is reported
complete. -/
theorem counted_completes {info : Http} (hpos : 2 < info.loc.unRecvChunkedLen)
    (hflag : info.loc.chunkFlag = .size) (hcache : info.loc.cacheBuf = []) : ¬ NeverComplete info := by
  intro hnever
  have hlen : info.loc.unRecvChunkedLen = (List.replicate info.loc.unRecvChunkedLen.toNat (ch 'x')).length := by
    rw [List.length_replicate]
    omega
  have hdata := reaches_data (by omega) hlen
  have hidle : Idle { info.loc with unRecvChunkedLen := 0 } := ⟨rfl, hflag, hcache⟩
  have hreach := hdata.append (reaches_last hidle) (by decide)
  refine hnever [List.replicate info.loc.unRecvChunkedLen.toNat (ch 'x') ++ lastChunk] ?_
  have hloc := @recvChunks_loc [List.replicate info.loc.unRecvChunkedLen.toNat (ch 'x') ++ lastChunk] info
    (by rw [List.flatten_singleton]; exact hreach.runsOn)
  rw [List.flatten_singleton, hreach.fold] at hloc
  show (recvChunk _ info).logic.state = .none
  have hone : (recvChunk (List.replicate info.loc.unRecvChunkedLen.toNat (ch 'x') ++ lastChunk) info).loc =
    { info.loc with unRecvChunkedLen := 0, chunkFlag := .fin } := hloc
  rw [recvChunk_state, if_pos]
  rw [hone]
  exact ⟨rfl, rfl⟩

/-- What `recv_chunk` makes of the number is what it should exactly when the number fits. -/
theorem sizeTaken_iff {info : Http} {loc : HttpLocal} (h : Idle loc) {n : Nat} (hlt : n < 2 ^ 64)
    (hloc : info.loc = sizeState n loc) : SizeTaken n info ↔ SizeFits n := by
  have hfits := sizeFits_iff hlt
  unfold sizeState at hloc
  dsimp only at hloc
  constructor
  · intro htaken
    by_contra hno
    split at hloc
    · next hneg =>
      have hcount := htaken.notNegative
      rw [hloc] at hcount
      exact absurd hcount (by simpa using hneg)
    · next hneg =>
      split at hloc
      · -- a multiple of 2^32 is taken for the last chunk
        have hzero := htaken.last (by rw [hloc])
        exact hno (by rw [hzero]; decide)
      · next hne =>
        have hcount := htaken.notNegative
        rw [hloc] at hcount
        have hlen : toInt32 (min n LONG_MAX) < 2 ^ 31 := Int.bmod_lt (by decide)
        have hadd := toInt32_add_two (by omega) hlen hcount
        rcases htaken.exact with ⟨hexact, -⟩ | ⟨hzero, -⟩ | ⟨-, hnever⟩
        · rw [hloc] at hexact
          have heq : toInt32 (min n LONG_MAX) = n := by
            have hsame : toInt32 (min n LONG_MAX) + 2 = n + 2 := hadd.symm.trans hexact
            omega
          exact hno (hfits.mpr ⟨heq, hexact⟩)
        · exact hno (by rw [hzero]; decide)
        · refine counted_completes ?_ ?_ ?_ hnever
          · rw [hloc]
            dsimp only
            omega
          · rw [hloc]
            exact h.flag
          · rw [hloc]
            exact h.cache
  · intro hn
    obtain ⟨h1, h2⟩ := hfits.mp hn
    rw [h1] at h2 hloc
    rw [if_neg (by omega)] at hloc
    split at hloc
    · next hzero =>
      have hn0 : n = 0 := by omega
      refine ⟨Or.inr (Or.inl ⟨hn0, by rw [hloc], by rw [hloc]⟩), fun _ => hn0, ?_⟩
      rw [hloc]
      dsimp only
      omega
    · rw [h2] at hloc
      refine ⟨Or.inl ⟨by rw [hloc], by rw [hloc]; exact h.flag⟩, fun hfin => ?_, ?_⟩
      · rw [hloc] at hfin
        exact absurd (h.flag.symm.trans hfin) (by decide)
      · rw [hloc]
        dsimp only
        omega

/-- **When a chunk's size is taken as it stands.** Whatever the number of a size line and in
whatever segments the line comes, the counter and the final-chunk flag are as the number
says, the counter is not negative, and only the size 0 is the last one, exactly when the
number and 2 together fit the `int`. -/
theorem chunk_size_iff {info : Http} (h : Idle info.loc) (l : SizeLine) {segments : List (List Byte)}
    (hflat : segments.flatten = l.text) :
    SizeTaken l.number (recvChunks segments info) ↔ SizeFits l.number :=
  sizeTaken_iff h l.number_lt (sizeLine_read h l hflat)

/-- A size line with the digits `size`. -/
def sizeLine (size : List Byte) (hne : size ≠ []) (hhex : ∀ c ∈ size, isxdigit c = true)
    (hlen : size.length ≤ 16) : SizeLine where
  size := size
  ext := []
  size_ne := hne
  size_hex := hhex
  size_length := hlen
  ext_start c hc := by cases hc
  ext_line h := absurd h.length_le (by decide)
  fits := by
    rw [List.append_nil, List.length_append]
    have htwo : (str "\r\n").length = 2 := by decide
    omega

theorem three_length : (str "3").length ≤ 16 := by decide

theorem chunk_size_three : SizeTaken 3 (recvChunks [str "3\r", str "\n"] {}) :=
  (@chunk_size_iff {} ⟨rfl, rfl, rfl⟩ (sizeLine (str "3") three_ne three_hex three_length)
    [str "3\r", str "\n"] (by decide)).mpr (by decide)

/-- A chunk of 2^32 bytes is taken for the last one. -/
theorem chunk_size_wraps : ¬ SizeTaken (2 ^ 32) (recvChunks [str "100000000\r\n"] {}) := by
  intro h
  have hflag : (recvChunks [str "100000000\r\n"] {}).loc.chunkFlag = .fin := by decide +kernel
  exact absurd (h.last hflag) (by decide)

end WafProxy
