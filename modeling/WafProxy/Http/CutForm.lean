import WafProxy.Http.CutArgs
import WafProxy.Http.Recount

/-
  A form in two packets — http_form.c, `http_parse_body` of http_body.c

  Between two calls `http_parse_form` keeps what it has read of a label or of a
  header line in `cache_buf`, which the reader of chunk lines uses too, and its
  local `name` is empty again at every call. Behind the loop, when the message has
  ended, the last bytes of the current content are taken off.

  What is proved:
    1. `formTurns_append` — the turns of the loop on two texts are those on the one
       and, where the loop has not returned, those on the other behind it.
    2. `form_cut` — a cut at which the loop leaves the state as the packet leaves it
       (`FormUncut`) changes no argument.
-/

namespace WafProxy
open Lib

/-! ## The turns of the loop -/

/-- The turns of the loop, with the `name` they leave. -/
def formTurns (label : List Byte) : List Byte → Http → List Byte → Option (Http × List Byte × Bool)
  | [], info, name => some (info, name, false)
  | c :: data, info, name => (formByte label c info name).bind fun out =>
      if out.2.2 then some out else formTurns label data out.1 out.2.1

section
variable {label : List Byte}

theorem formTurns_loop (data : List Byte) : ∀ {info : Http} {name : List Byte},
    httpParseFormLoop label data info name =
      (formTurns label data info name).map fun out => (out.1, out.2.2) := by
  induction data with
  | nil =>
    intro info name
    rfl
  | cons c data ih =>
    intro info name
    rw [httpParseFormLoop_cons, formTurns]
    cases formByte label c info name with
    | none => rfl
    | some out =>
      obtain ⟨i, name', stop⟩ := out
      cases stop with
      | true => rfl
      | false => exact ih

/-- **The turns on two texts**, one behind the other. -/
theorem formTurns_append (front back : List Byte) : ∀ {info : Http} {name : List Byte},
    formTurns label (front ++ back) info name = (formTurns label front info name).bind fun out =>
      if out.2.2 then some out else formTurns label back out.1 out.2.1 := by
  induction front with
  | nil =>
    intro info name
    rfl
  | cons c front ih =>
    intro info name
    rw [List.cons_append, formTurns, formTurns]
    cases formByte label c info name with
    | none => rfl
    | some out =>
      obtain ⟨i, name', stop⟩ := out
      cases stop with
      | true => rfl
      | false => exact ih

/-- The turns read no counter. -/
theorem formTurns_recount {g : Recount} (data : List Byte) : ∀ {info : Http} {name : List Byte},
    formTurns label data (info.recount g) name =
      (formTurns label data info name).map fun out => (out.1.recount g, out.2) := by
  induction data with
  | nil =>
    intro info name
    rfl
  | cons c data ih =>
    intro info name
    rw [formTurns, formTurns, formByte_recount]
    cases formByte label c info name with
    | none => rfl
    | some out =>
      obtain ⟨i, name', stop⟩ := out
      cases stop with
      | true => rfl
      | false => exact ih

end

/-! ## What a packet counts -/

/-- The counters, the state and the integers of `r`. -/
def countsOf (r : Http) : Recount where
  left _ := r.loc.unRecvContentLen
  chunk _ := r.loc.unRecvChunkedLen
  flag _ := r.loc.chunkFlag
  state _ := r.logic.state
  ints _ := r.httpInt

/-- Besides these only `cache_buf` is written before the arguments are read. -/
theorem httpBodyCount_counts (data : List Byte) (info : Http) : httpBodyCount data info =
    { info.recount (countsOf (httpBodyCount data info)) with
      loc := { info.loc.recount (countsOf (httpBodyCount data info)) with
        cacheBuf := (httpBodyCount data info).loc.cacheBuf } } := by
  generalize hr : httpBodyCount data info = r
  unfold httpBodyCount at hr
  dsimp only at hr
  split at hr
  · obtain ⟨len, flag, cache, hloc⟩ := recvChunkLoop_frame data.length data info.loc
    unfold recvChunk at hr
    dsimp only [Http.withInt] at hr
    rw [hloc] at hr
    split at hr
    · rw [← hr]
      rfl
    · rw [← hr]
      rfl
  · rw [← hr]
    rfl

/-- Two packets that leave the same in `cache_buf` leave the same to the form parser. -/
theorem httpBodyCount_same {data other : List Byte} {info : Http}
    (h : (httpBodyCount other info).loc.cacheBuf = (httpBodyCount data info).loc.cacheBuf) :
    httpBodyCount other info = (httpBodyCount data info).recount (countsOf (httpBodyCount other info)) := by
  have hdata := httpBodyCount_counts data info
  have hother := httpBodyCount_counts other info
  rw [h] at hother
  generalize httpBodyCount data info = r at hdata hother ⊢
  generalize httpBodyCount other info = r' at hother ⊢
  rw [hother, hdata]
  rfl

/-! ## The cut -/

/-- The form parser goes on behind the cut as if there were none: `info` is what it finds in
front of `front`, `mid` behind it, `name` the name that was read last. -/
structure FormUncut (label front back : List Byte) (info mid : Http) (name : List Byte) : Prop where
  /-- the call ends with the bytes, and nothing is taken off behind them -/
  turns : formTurns label front (httpBodyCount front info) [] = some (mid, name, false)
  /-- the same stands in `cache_buf` in front of the form, of a chunk line if anything -/
  lines : (httpBodyCount (front ++ back) info).loc.cacheBuf = (httpBodyCount front info).loc.cacheBuf
  /-- what stands in `cache_buf` at the cut is still there when the form is read on -/
  cached : (httpBodyCount back mid).loc.cacheBuf = mid.loc.cacheBuf
  /-- the name that was read last is not asked for -/
  named : httpParseFormLoop label back (httpBodyCount back mid) name =
    httpParseFormLoop label back (httpBodyCount back mid) []
  ended : SameEnd front back info mid

/-- **A form that is cut so leaves the arguments it leaves whole.** -/
theorem form_cut {label front back : List Byte} {info mid whole : Http} {name : List Byte}
    (hback : back ≠ []) (htype : info.logic.contentType = .multiform)
    (hlabel : formLabelText info = some label) (h : FormUncut label front back info mid name)
    (hwhole : parseBody info (front ++ back) = some whole) :
    ∃ r, parseBody mid back = some r ∧ r.arg.arg = whole.arg.arg := by
  -- the first packet keeps the label and the type
  have hfirst : httpParseFormLoop label front (httpBodyCount front info) [] = some (mid, false) := by
    rw [formTurns_loop, h.turns]
    rfl
  have hframe := httpParseFormLoop_frame front hfirst
  have hstr : mid.str = info.str := by
    rw [hframe.str, httpBodyCount_counts]
    rfl
  have htype' : mid.logic.contentType = .multiform := by
    rw [hframe.logic, httpBodyCount_counts]
    exact htype
  have hlabel' : formLabelText mid = some label := by
    rw [formLabelText, hstr]
    exact hlabel
  -- the whole, from the cut on
  rw [parseBody_ofForm (List.append_ne_nil_of_right_ne_nil front hback) htype, httpBodyCount_same h.lines] at hwhole
  generalize hg : countsOf (httpBodyCount (front ++ back) info) = g at hwhole
  obtain ⟨label1, i, stop, hlabel1, hloop, rfl⟩ := httpParseForm_some hwhole
  have hsame : label1 = label := by
    have hrest : formLabelText ((httpBodyCount front info).recount g) = formLabelText info := by
      rw [httpBodyCount_counts]
      rfl
    rw [hrest, hlabel] at hlabel1
    exact (Option.some.inj hlabel1).symm
  rw [hsame, formTurns_loop, formTurns_append, formTurns_recount, h.turns] at hloop
  obtain ⟨out, hturns, hout⟩ := Option.map_eq_some_iff.mp hloop
  rw [Option.map_some, Option.bind_some, if_neg Bool.false_ne_true, formTurns_recount] at hturns
  obtain ⟨⟨j, name', halts⟩, hbehind, rfl⟩ := Option.map_eq_some_iff.mp hturns
  obtain ⟨rfl, rfl⟩ := Prod.mk.inj hout
  -- the second packet
  have hcount : httpBodyCount back mid = mid.recount (countsOf (httpBodyCount back mid)) := by
    have hcounts := httpBodyCount_counts back mid
    rw [h.cached] at hcounts
    exact hcounts
  have hnamed := h.named
  have hended : (httpBodyCount back mid).logic.state = .none ↔ (j.recount g).logic.state = .none := by
    rw [← hg]
    exact h.ended
  generalize hg' : countsOf (httpBodyCount back mid) = g' at hcount
  have hsecond : httpParseFormLoop label back (httpBodyCount back mid) [] = some (j.recount g', halts) := by
    rw [← hnamed, hcount, formTurns_loop, formTurns_recount, hbehind]
    rfl
  have hlabel2 : formLabelText (httpBodyCount back mid) = some label := by
    rw [hcount]
    exact hlabel'
  refine ⟨if halts then j.recount g' else formEnd label (j.recount g'), ?_, ?_⟩
  · rw [parseBody_ofForm hback htype', httpParseForm, hlabel2, Option.bind_eq_bind, Option.bind_some, hsecond]
    rfl
  · rw [hsame]
    cases halts with
    | true => rfl
    | false =>
      have hstate : g'.state (j.recount g).logic.state = .none ↔ (j.recount g).logic.state = .none := by
        rw [← hg']
        exact hended
      have hend := @formEnd_recount g' (j.recount g) label hstate
      have htwice : (j.recount g).recount g' = j.recount g' := by
        rw [← hg']
        rfl
      rw [htwice] at hend
      show (formEnd label (j.recount g')).arg.arg = (formEnd label (j.recount g)).arg.arg
      rw [hend]
      rfl

end WafProxy
