import WafProxy.Http.FormSteps
import WafProxy.Http.ChunkedArgs

/-
  The bound of `cache_buf` — http_body.c and http_form.c

  `http_read_line`, `http_wait_label_str` and `http_wait_line_str` cache bytes in
  one buffer of 512 and write a NUL behind them. The last two copy a byte only
  where 2 are free; the first refuses one only when 512 are cached.

  What is proved:
    1. `formByte_cache` (FormSteps) — the multipart parser keeps the cache below
       512.
    2. `chunkReads_bound` — `recv_chunk` does so as long as no call of
       `http_read_line` finds 511 bytes there.
    3. `cache_bounded_iff` — along a run of `http_parse_body` the cache and the
       NULs behind it stay within the buffer exactly when no call finds 511.

  Correspondence (C ↔ Lean):
    the calls of `http_read_line` in `recv_chunk`   ↔ `chunkReads`
    where `http_read_line` writes its NUL           ↔ `readLineNul`
    where `strlcpy2` writes it on `cache_buf`       ↔ `waitNul`
-/

namespace WafProxy
open Lib

/-- The states in which `recv_chunk` calls `http_read_line`. -/
def chunkReads : Nat → List Byte → HttpLocal → List HttpLocal
  | 0, _, _ => []
  | _ + 1, [], _ => []
  | n + 1, c :: data, loc =>
    if 0 < loc.unRecvChunkedLen then
      if ((c :: data).length : Int) < loc.unRecvChunkedLen then []
      else if loc.chunkFlag = .fin then []
      else
        chunkReads n ((c :: data).drop loc.unRecvChunkedLen.toNat)
          { loc with unRecvChunkedLen := 0, chunkFlag := .size }
    else
      loc ::
        match httpReadLine c loc with
        | (none, loc) => chunkReads n data loc
        | (some line, loc) =>
          let len := toInt32 (strtol line 16)
          if len < 0 then []
          else if len = 0 then
            chunkReads n data { loc with unRecvChunkedLen := 2, chunkFlag := .fin }
          else chunkReads n data { loc with unRecvChunkedLen := toInt32 (len + 2) }

/-- The index at which `http_read_line` writes its NUL, unless it refuses the byte. -/
def readLineNul (loc : HttpLocal) : Option Nat :=
  if 512 < loc.cacheBuf.length + 1 then none else some (loc.cacheBuf.length + 1)

/-- The index at which `strlcpy2` writes its NUL when it is given one byte for the rest of
`cache_buf`: with one byte of room nothing is copied. -/
def waitNul (loc : HttpLocal) : Nat :=
  if loc.cacheBuf.length = 511 then 511 else loc.cacheBuf.length + 1

/-- While a segment is parsed, the cached bytes and every NUL written behind them lie in
`cache_buf`. -/
structure CacheInside (info : Http) (segment : List Byte) : Prop where
  len : info.loc.cacheBuf.length ≤ 511
  reads : info.logic.isChunked = true → ∀ loc ∈ chunkReads segment.length segment info.loc,
    loc.cacheBuf.length ≤ 511 ∧ ∀ i ∈ readLineNul loc, i ≤ 511
  waits : info.logic.contentType = .multiform →
    ∀ label ∈ formLabelText (httpBodyCount segment info),
      ∀ s ∈ formSteps label segment (httpBodyCount segment info) [],
        s.1.loc.cacheBuf.length ≤ 511 ∧ waitNul s.1.loc ≤ 511

/-- No call of `http_read_line` finds 511 bytes in the cache. -/
def LinesFit (info : Http) (segment : List Byte) : Prop :=
  info.logic.isChunked = true →
    ∀ loc ∈ chunkReads segment.length segment info.loc, loc.cacheBuf.length ≠ 511

/-! ## `recv_chunk` -/

/-- A byte of a line, while there is room for it and the NUL. -/
theorem httpReadLine_cache {c : Byte} {loc : HttpLocal} (hlt : loc.cacheBuf.length < 511) :
    (httpReadLine c loc).2.cacheBuf.length ≤ 511 := by
  unfold httpReadLine
  rw [if_neg (by omega)]
  dsimp only
  split
  · exact Nat.zero_le _
  · dsimp only
    rw [List.length_append, List.length_singleton]
    omega

/-- **Lines that fit keep the cache below 512.** -/
theorem chunkReads_bound (n : Nat) : ∀ {data : List Byte} {loc : HttpLocal}, loc.cacheBuf.length ≤ 511 →
    (∀ l ∈ chunkReads n data loc, l.cacheBuf.length ≠ 511) →
    (∀ l ∈ chunkReads n data loc, l.cacheBuf.length ≤ 511) ∧
      (recvChunkLoop n data loc).cacheBuf.length ≤ 511 := by
  induction n with
  | zero =>
    intro data loc hle _
    exact ⟨fun l hl => (by cases hl), hle⟩
  | succ n ih =>
    intro data loc hle hfit
    cases data with
    | nil => exact ⟨fun l hl => (by cases hl), hle⟩
    | cons c data =>
      rw [chunkReads] at hfit ⊢
      rw [recvChunkLoop]
      by_cases hpos : 0 < loc.unRecvChunkedLen
      · rw [if_pos hpos] at hfit ⊢
        rw [if_pos hpos]
        split
        · exact ⟨fun l hl => (by cases hl), hle⟩
        · next hlong =>
          rw [if_neg hlong] at hfit
          split
          · exact ⟨fun l hl => (by cases hl), hle⟩
          · next hfin =>
            rw [if_neg hfin] at hfit
            exact ih hle hfit
      · rw [if_neg hpos] at hfit ⊢
        rw [if_neg hpos]
        obtain ⟨hfirst, hrest⟩ := List.forall_mem_cons.mp hfit
        have hcache := @httpReadLine_cache c loc (by omega)
        rw [List.forall_mem_cons, and_assoc]
        refine ⟨hle, ?_⟩
        -- what follows is another state with room in its cache
        cases hread : httpReadLine c loc with
        | mk line loc' =>
          rw [hread] at hcache hrest
          cases line with
          | none => exact ih hcache hrest
          | some line =>
            dsimp only at hrest ⊢
            split
            · exact ⟨fun l hl => (by cases hl), hcache⟩
            · next hneg =>
              rw [if_neg hneg] at hrest
              split
              · next hzero =>
                rw [if_pos hzero] at hrest
                exact @ih data { loc' with unRecvChunkedLen := 2, chunkFlag := .fin } hcache hrest
              · next hzero =>
                rw [if_neg hzero] at hrest
                exact @ih data { loc' with unRecvChunkedLen := _ } hcache hrest

/-! ## One segment -/

theorem httpBodyCount_cache {info : Http} {segment : List Byte} (hle : info.loc.cacheBuf.length ≤ 511)
    (hfit : LinesFit info segment) : (httpBodyCount segment info).loc.cacheBuf.length ≤ 511 := by
  unfold httpBodyCount
  dsimp only
  split
  · next hchunked =>
    rw [recvChunk_loc]
    exact (chunkReads_bound _ hle (hfit hchunked)).2
  · exact hle

/-- The turns of the loop, from a cache that is not full. -/
theorem formSteps_cache {label data name : List Byte} {info : Http} (hle : info.loc.cacheBuf.length ≤ 511) :
    (∀ s ∈ formSteps label data info name, s.1.loc.cacheBuf.length ≤ 511) ∧
      ∀ r stop, httpParseFormLoop label data info name = some (r, stop) → r.loc.cacheBuf.length ≤ 511 := by
  have hrun := @formSteps_run label (fun i => i.loc.cacheBuf.length ≤ 511)
    (fun i => i.loc.cacheBuf.length ≤ 511) (fun _ _ _ _ _ hi h => formByte_cache hi h)
    (fun _ _ _ _ _ hi h => formByte_cache hi h) data info name hle
  refine ⟨hrun.1, fun r stop h => ?_⟩
  have hr := hrun.2 r stop h
  cases stop with
  | true => exact hr
  | false => exact hr

theorem httpParseForm_cache {data : List Byte} {info r : Http} (hle : info.loc.cacheBuf.length ≤ 511)
    (h : httpParseForm data info = some r) : r.loc.cacheBuf.length ≤ 511 := by
  obtain ⟨label, i, stop, -, hloop, rfl⟩ := httpParseForm_some h
  have hi := (formSteps_cache hle).2 i stop hloop
  cases stop with
  | true => exact hi
  | false =>
    rw [if_neg Bool.false_ne_true, formEnd_loc]
    exact hi

/-- A segment whose lines fit leaves a cache that is not full. -/
theorem parseBody_cache {info r : Http} {segment : List Byte} (hle : info.loc.cacheBuf.length ≤ 511)
    (hfit : LinesFit info segment) (h : parseBody info segment = some r) :
    r.loc.cacheBuf.length ≤ 511 := by
  have hcount := httpBodyCount_cache hle hfit
  unfold parseBody httpParseBody at h
  split at h
  · cases h
    exact hle
  · rw [Access.run_bind, Int.toNat_natCast, slice_whole, Option.bind_some] at h
    unfold httpParseBodyArgs at h
    split at h
    · cases h
      exact hcount
    · split at h
      · rw [Access.run_bind, Int.toNat_natCast, slice_whole, Option.bind_some, Access.run_ofOption] at h
        exact httpParseForm_cache hcount h
      · cases h
        exact hcount
      · rw [httpParseArgs_frame _ _ _ _ r h]
        exact hcount

/-- **One segment.** -/
theorem cacheInside_iff {info : Http} (hle : info.loc.cacheBuf.length ≤ 511) (segment : List Byte) :
    CacheInside info segment ↔ LinesFit info segment := by
  constructor
  · intro h hchunked loc hloc hfull
    -- the NUL behind the 512th byte
    obtain ⟨-, hnul⟩ := h.reads hchunked loc hloc
    have hindex := hnul 512 (by unfold readLineNul; rw [hfull]; rfl)
    omega
  · intro hfit
    refine ⟨hle, fun hchunked loc hloc => ?_, fun _ label _ s hs => ?_⟩
    · have hlen := (chunkReads_bound _ hle (hfit hchunked)).1 loc hloc
      have hne := hfit hchunked loc hloc
      refine ⟨hlen, fun i hi => ?_⟩
      unfold readLineNul at hi
      split at hi
      · cases hi
      · cases hi
        omega
    · have hlen := (formSteps_cache (httpBodyCount_cache hle hfit)).1 s hs
      refine ⟨hlen, ?_⟩
      unfold waitNul
      split
      · exact Nat.le_refl 511
      · omega

/-! ## Runs -/

/-- **Where the cache stays within its buffer.** From a state with at most 511 cached bytes,
in every run of `http_parse_body`: the cached bytes and every NUL written behind them lie
within the buffer, in each state and while each segment is parsed, exactly when
`http_read_line` never finds 511 bytes cached. -/
theorem cache_bounded_iff {info : Http} (hle : info.loc.cacheBuf.length ≤ 511) (segments : List (List Byte)) :
    (bodyMachine.Meets CacheInside info segments ∧
      ∀ r, bodyMachine.run info segments = some r → r.loc.cacheBuf.length ≤ 511) ↔
    bodyMachine.Meets LinesFit info segments := by
  have hstep : ∀ i segment r, CacheInside i segment → i.loc.cacheBuf.length ≤ 511 →
      bodyMachine.step i segment = some r → r.loc.cacheBuf.length ≤ 511 :=
    fun i segment r hin hi h => parseBody_cache hi ((cacheInside_iff hi segment).mp hin) h
  have hmeets : bodyMachine.Meets CacheInside info segments ↔ bodyMachine.Meets LinesFit info segments :=
    Machine.meets_congr_while hstep (fun i segment hi => @cacheInside_iff i hi segment) hle
  refine ⟨fun h => hmeets.mp h.1, fun h => ⟨hmeets.mpr h, fun r hrun => ?_⟩⟩
  exact Machine.run_inv hstep segments hle (hmeets.mpr h) hrun

theorem cache_bounded_one : bodyMachine.Meets LinesFit chunkedInfo [str "1;x\r\na\r\n"] ∧
    bodyMachine.Meets CacheInside chunkedInfo [str "1;x\r\na\r\n"] := by
  have hfit : bodyMachine.Meets LinesFit chunkedInfo [str "1;x\r\na\r\n"] := by
    refine ⟨?_, fun r _ => trivial⟩
    rw [chunkedInfo_eq]
    intro _
    decide
  have hcache : chunkedInfo.loc.cacheBuf.length ≤ 511 := by
    rw [chunkedInfo_eq]
    exact Nat.zero_le _
  exact ⟨hfit, ((cache_bounded_iff hcache _).mpr hfit).1⟩

/-- The line is read byte by byte. -/
theorem chunkReads_line (l : List Byte) : ∀ {loc : HttpLocal} {n : Nat}, ¬ 0 < loc.unRecvChunkedLen →
    ¬ str "\r\n" <:+: loc.cacheBuf ++ l → (loc.cacheBuf ++ l).length ≤ 512 → l.length ≤ n →
    ∀ k < l.length, { loc with cacheBuf := loc.cacheBuf ++ l.take k } ∈ chunkReads n l loc := by
  induction l with
  | nil =>
    intro loc n _ _ _ _ k hk
    simp at hk
  | cons c l ih =>
    intro loc n hpos hno hlen hn k hk
    obtain ⟨m, rfl⟩ : ∃ m, n = m + 1 := ⟨n - 1, by rw [List.length_cons] at hn; omega⟩
    have hsplit : loc.cacheBuf ++ c :: l = loc.cacheBuf ++ [c] ++ l := by simp
    have hread : httpReadLine c loc = (none, { loc with cacheBuf := loc.cacheBuf ++ [c] }) := by
      have hline : ¬ (strlstrText (str "\r\n") (loc.cacheBuf ++ [c])).isSome := by
        rw [strlstrText_isSome (by decide)]
        intro h
        exact hno (h.trans (hsplit ▸ (List.prefix_append _ _).isInfix))
      unfold httpReadLine
      rw [List.length_append, List.length_cons] at hlen
      rw [if_neg (by omega)]
      simp only [hline, Bool.false_eq_true, if_false]
    rw [chunkReads, if_neg hpos, hread]
    cases k with
    | zero => simp
    | succ k =>
      refine List.mem_cons_of_mem _ ?_
      have hrest := @ih { loc with cacheBuf := loc.cacheBuf ++ [c] } m hpos (hsplit ▸ hno)
        (hsplit ▸ hlen) (by rw [List.length_cons] at hn; omega) k (by rw [List.length_cons] at hk; omega)
      simpa using hrest

/-- The NUL behind the 512th byte of a line lies behind the buffer. -/
theorem longLine_overrun {info : Http} {l : List Byte} (hchunked : info.logic.isChunked = true)
    (hidle : info.loc.cacheBuf = [] ∧ info.loc.unRecvChunkedLen = 0) (hlen : l.length = 512)
    (hcr : ch '\r' ∉ l) : ¬ CacheInside info l := by
  intro h
  have hno : ¬ str "\r\n" <:+: info.loc.cacheBuf ++ l := by
    intro hin
    rw [hidle.1] at hin
    exact hcr (hin.subset (by decide))
  have hpos : ¬ 0 < info.loc.unRecvChunkedLen := by
    rw [hidle.2]
    exact Int.lt_irrefl 0
  have hread := @chunkReads_line l info.loc l.length hpos hno
    (by rw [hidle.1]; exact Nat.le_of_eq hlen) (Nat.le_refl _) 511 (by omega)
  have hcached : (info.loc.cacheBuf ++ l.take 511).length = 511 := by
    rw [hidle.1, List.nil_append, List.length_take]
    omega
  obtain ⟨-, hnul⟩ := h.reads hchunked _ hread
  have hindex := hnul 512 (by unfold readLineNul; rw [hcached]; rfl)
  omega

theorem cache_overrun : ¬ bodyMachine.Meets CacheInside chunkedInfo [List.replicate 512 (ch '1')] := by
  intro h
  have hfields : chunkedInfo.logic.isChunked = true ∧ chunkedInfo.loc.cacheBuf = [] ∧
      chunkedInfo.loc.unRecvChunkedLen = 0 := by
    rw [chunkedInfo_eq]
    exact ⟨rfl, rfl, rfl⟩
  refine longLine_overrun hfields.1 hfields.2 List.length_replicate ?_ h.1
  intro hmem
  exact absurd (List.eq_of_mem_replicate hmem) (by decide)

end WafProxy
