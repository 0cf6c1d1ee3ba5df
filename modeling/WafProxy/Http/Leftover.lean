import WafProxy.Http.Arguments
import WafProxy.Http.Recount

/-
  What an earlier message leaves behind — the part of `http_t` a head ignores

  `http_init` clears the strings, the integers and the argument table; the rest
  of `http_t` is as the last message left it. A head that is parsed over such a
  rest does what it does over a zeroed one: the counter and the state are not
  read (`Outside`), the method is overwritten by the request line
  (`parseMethod_absorbs`), the content type by a Content-Type line
  (`parseCont_absorbs`). The body reads no counter either but to see that it has
  run out (`parseBody_left`).
-/

namespace WafProxy
open Lib Access

/-- A change of what is neither a string nor a table nor an integer. -/
structure Outside (u : Http → Http) : Prop where
  str : ∀ i, (u i).str = i.str
  arg : ∀ i, (u i).arg = i.arg
  httpInt : ∀ i, (u i).httpInt = i.httpInt
  tmpFlag : ∀ i, (u i).tmpFlag = i.tmpFlag
  setStr : ∀ i s, u { i with str := s } = { u i with str := s }
  setArg : ∀ i a n, u { i with arg := a, httpInt := n } = { u i with arg := a, httpInt := n }
  setInt : ∀ i n, u { i with httpInt := n } = { u i with httpInt := n }
  setTmp : ∀ i t, u { i with tmpFlag := t } = { u i with tmpFlag := t }
  setChunked : ∀ i b, u { i with logic := { i.logic with isChunked := b } } =
    { u i with logic := { (u i).logic with isChunked := b } }
  setClosed : ∀ i, u { i with logic := { i.logic with isClosed := false } } =
    { u i with logic := { (u i).logic with isClosed := false } }

/-- The content type and the dashes are not changed either. -/
structure OutsideType (u : Http → Http) : Prop extends Outside u where
  type : ∀ i, (u i).logic.contentType = i.logic.contentType
  dashes : ∀ i, (u i).loc.boundaryCnt = i.loc.boundaryCnt
  setType : ∀ i t, u { i with logic := { i.logic with contentType := t } } =
    { u i with logic := { (u i).logic with contentType := t } }
  setDashes : ∀ i k, u { i with loc := { i.loc with boundaryCnt := k } } =
    { u i with loc := { (u i).loc with boundaryCnt := k } }

theorem Outside.withStr {u : Http → Http} (hu : Outside u) (i : Http) (f : HttpStr → HttpStr) :
    u (i.withStr f) = (u i).withStr f := by
  unfold Http.withStr
  rw [hu.setStr, hu.str]

theorem Outside.withInt {u : Http → Http} (hu : Outside u) (i : Http) (f : HttpInt → HttpInt) :
    u (i.withInt f) = (u i).withInt f := by
  unfold Http.withInt
  rw [hu.setInt, hu.httpInt]

/-! ## Header lines -/

section
variable {u : Http → Http} (hu : Outside u) {data dataLen : Int} {info : Http}
include hu

theorem parseUs_outside : Maps u (parseUs data dataLen info) (parseUs data dataLen (u info)) := by
  unfold parseUs
  rw [hu.tmpFlag, hu.str]
  apply maps_then
  intro x
  rw [← hu.withStr]
  exact maps_pure _

theorem parseHo_outside : Maps u (parseHo data dataLen info) (parseHo data dataLen (u info)) := by
  unfold parseHo
  rw [hu.tmpFlag, hu.str]
  apply maps_then
  intro x
  rw [← hu.withStr]
  exact maps_pure _

theorem parseLo_outside : Maps u (parseLo data dataLen info) (parseLo data dataLen (u info)) := by
  unfold parseLo
  rw [hu.tmpFlag, hu.str]
  apply maps_then
  intro x
  rw [← hu.withStr]
  exact maps_pure _

theorem parseRe_outside : Maps u (parseRe data dataLen info) (parseRe data dataLen (u info)) := by
  unfold parseRe
  rw [hu.tmpFlag, hu.str]
  apply maps_then
  intro x
  rw [← hu.withStr]
  exact maps_pure _

theorem parseCoo_outside : Maps u (parseCoo data dataLen info) (parseCoo data dataLen (u info)) := by
  unfold parseCoo
  rw [hu.str]
  apply maps_then
  intro x
  apply maps_then
  intro cnt
  rw [← hu.withStr, ← hu.withInt]
  exact maps_pure _

theorem parseRa_outside : Maps u (parseRa data dataLen info) (parseRa data dataLen (u info)) := by
  unfold parseRa
  apply maps_then
  intro cnt
  rw [← hu.withInt]
  exact maps_pure _

theorem parseConn_outside : Maps u (parseConn data info) (parseConn data (u info)) := by
  unfold parseConn
  apply maps_then
  intro close
  apply Maps.ite (maps_pure _)
  rw [← hu.setClosed]
  exact maps_pure _

theorem parseConl_outside : Maps u (parseConl data dataLen info) (parseConl data dataLen (u info)) := by
  unfold parseConl
  apply Maps.ite (maps_pure _)
  apply maps_then
  intro buf
  rw [← hu.withInt]
  exact maps_pure _

theorem parseAu_outside : Maps u (parseAu data dataLen info) (parseAu data dataLen (u info)) := by
  unfold parseAu
  rw [hu.tmpFlag, hu.str]
  apply maps_then
  intro digest
  dsimp only
  apply maps_ite_then
  intro negotiate
  apply maps_ite_then
  intro other
  apply Maps.ite
  · apply maps_then
    intro x
    rw [← hu.withStr]
    exact maps_pure _
  · apply maps_then
    intro basic
    apply Maps.ite _ (maps_pure _)
    apply maps_then
    intro strip
    apply Maps.ite (maps_pure _)
    apply maps_then
    intro x
    apply maps_then
    intro s
    have h : Maps u (pure { info with str := s } : Packet.Read Http) (pure (u { info with str := s })) :=
      maps_pure _
    rw [hu.setStr] at h
    dsimp only at h
    rw [hu.tmpFlag] at h
    exact h

theorem parseTr_outside : u (parseTr info) = parseTr (u info) := hu.setChunked info true

/-- A header that is no Content-Type reads nothing of the rest. -/
theorem HeaderFn.call_outside {f : HeaderFn} (hf : f ≠ .cont) :
    Maps u (f.call data dataLen info) (f.call data dataLen (u info)) := by
  cases f with
  | au => exact parseAu_outside hu
  | conl => exact parseConl_outside hu
  | cont => exact absurd rfl hf
  | conn => exact parseConn_outside hu
  | coo => exact parseCoo_outside hu
  | ho => exact parseHo_outside hu
  | lo => exact parseLo_outside hu
  | re => exact parseRe_outside hu
  | ra => exact parseRa_outside hu
  | tr =>
    unfold HeaderFn.call
    rw [← parseTr_outside hu]
    exact maps_pure _
  | us => exact parseUs_outside hu
  | ac | ace | cone | set | xp | xpb | xa | xf => exact maps_pure _

end

/-! ## Content-Type -/

section
variable {u : Http → Http} (hu : OutsideType u) {begin stop : Int}
include hu

theorem httpGetContentType_outside {info : Http} :
    Maps u (httpGetContentType begin stop info) (httpGetContentType begin stop (u info)) := by
  unfold httpGetContentType
  apply maps_then
  intro id
  rw [← hu.setType]
  exact maps_pure _

theorem getPostBoundary_outside {info : Http} :
    Maps u (getPostBoundary begin stop info) (getPostBoundary begin stop (u info)) := by
  unfold getPostBoundary
  rw [hu.tmpFlag, hu.str]
  apply maps_then
  intro x
  apply maps_then
  intro k
  have h := hu.setDashes (info.withStr fun s => { s with boundary := x }) (info.loc.boundaryCnt + k + 2)
  rw [hu.withStr] at h
  rw [hu.dashes]
  have heq : { (u info).withStr (fun s => { s with boundary := x }) with
      loc := { (u info).loc with boundaryCnt := info.loc.boundaryCnt + k + 2 } } =
      u { info.withStr (fun s => { s with boundary := x }) with
        loc := { info.loc with boundaryCnt := info.loc.boundaryCnt + k + 2 } } := h.symm
  rw [heq]
  exact maps_pure _

theorem parseTableParsing_outside {info : Http} :
    Maps u (parseTableParsing begin stop info) (parseTableParsing begin stop (u info)) := by
  unfold parseTableParsing
  dsimp only
  apply maps_ite_then
  intro boundary
  apply Maps.ite (getPostBoundary_outside hu)
  apply maps_ite_then
  intro type
  exact Maps.ite (httpGetContentType_outside hu) (maps_pure _)

theorem contentTypeParams_outside (n : Nat) : ∀ {begin : Int} {info : Http},
    Maps u (contentTypeParams stop n begin info) (contentTypeParams stop n begin (u info)) := by
  induction n with
  | zero =>
    intro begin info
    exact maps_pure _
  | succ n ih =>
    intro begin info
    unfold contentTypeParams
    apply Maps.ite _ (maps_pure _)
    apply maps_then
    intro ptr
    apply maps_then
    intro begin'
    exact (parseTableParsing_outside hu).bind fun info' => ih

theorem parseCont_outside {data dataLen : Int} {info : Http} :
    Maps u (parseCont data dataLen info) (parseCont data dataLen (u info)) := by
  unfold parseCont httpParseContentType
  rw [hu.tmpFlag, hu.str]
  apply maps_then
  intro x
  rw [← hu.withStr]
  apply maps_then
  intro ptr
  refine (httpGetContentType_outside hu).bind ?_
  intro info'
  rw [hu.type]
  exact Maps.ite (maps_pure _) (contentTypeParams_outside hu _)

end

/-! ## Header lines -/

/-- The header function a line is given to. -/
def lineHeader (line : HeadLine) : Packet.Read (Option HeaderFn) :=
  match line.split with
  | none => pure none
  | some split => do
    let begin ← Access.ofOption line.begin
    let (begin, tmp) ← strlstrip begin split
    httpLookupHeader begin (tmp - begin)

/-- The counter, the state and the method are read by no header line. -/
theorem httpParseHeadLine_outside {u : Http → Http} (hu : OutsideType u) {line : HeadLine}
    (hnum : line.num ≠ 0) {info : Http} :
    Maps u (httpParseHeadLine info line) (httpParseHeadLine (u info) line) := by
  unfold httpParseHeadLine
  apply maps_then
  intro begin
  have hline : Maps u (httpParseLine { info with tmpFlag := line.flag } begin line.split line.stop
      line.num) (httpParseLine { u info with tmpFlag := line.flag } begin line.split line.stop
      line.num) := by
    rw [← hu.setTmp]
    unfold httpParseLine
    rw [if_neg hnum, if_neg hnum]
    cases line.split with
    | none => exact maps_pure _
    | some split =>
      dsimp only
      rw [← hu.withInt]
      apply maps_then
      intro strip
      apply maps_then
      intro strip'
      apply maps_then
      intro f
      cases f with
      | none => exact maps_pure _
      | some f =>
        by_cases hf : f = .cont
        · subst hf
          exact parseCont_outside hu
        · exact HeaderFn.call_outside hu.toOutside hf
  refine hline.bind ?_
  intro r
  rw [← hu.withInt]
  exact maps_pure _

/-! ## The content type that is left -/

def Http.setType (t : HttpType) (info : Http) : Http :=
  { info with logic := { info.logic with contentType := t } }

theorem setType_outside (t : HttpType) : Outside (Http.setType t) where
  str _ := rfl
  arg _ := rfl
  httpInt _ := rfl
  tmpFlag _ := rfl
  setStr _ _ := rfl
  setArg _ _ _ := rfl
  setInt _ _ := rfl
  setTmp _ _ := rfl
  setChunked _ _ := rfl
  setClosed _ := rfl

/-- A Content-Type line overwrites it. -/
theorem parseCont_absorbs (t : HttpType) (data dataLen : Int) (info : Http) :
    parseCont data dataLen (info.setType t) = parseCont data dataLen info := rfl

/-- What a line leaves of the content type that was there. -/
def typeKept (t : HttpType) (header : Option (Option HeaderFn)) (info : Http) : Http :=
  if header = some (some .cont) then info else info.setType t

theorem httpMatchHeaderTable_type (t : HttpType) (name nameLen value valueLen : Int) (info : Http)
    (m : Memory Byte) :
    (httpMatchHeaderTable name nameLen value valueLen (info.setType t)).run m =
      ((httpMatchHeaderTable name nameLen value valueLen info).run m).map
        (typeKept t ((httpLookupHeader name nameLen).run m)) := by
  apply map_run_then
  intro f hf
  rw [hf]
  cases f with
  | none =>
    have hkept : typeKept t (some none) info = info.setType t := if_neg (by simp)
    exact (congrArg some hkept).symm
  | some f =>
    by_cases hcont : f = .cont
    · subst hcont
      have hid : typeKept t (some (some .cont)) = id := by
        funext i
        exact if_pos rfl
      rw [hid, Option.map_id]
      exact congrArg (fun x => x.run m) (parseCont_absorbs t value valueLen info)
    · have hset : typeKept t (some (some f)) = Http.setType t := by
        funext i
        exact if_neg (by simpa using hcont)
      rw [hset]
      exact HeaderFn.call_outside (setType_outside t) hcont m

theorem httpParseHeadLine_type {t : HttpType} {line : HeadLine} (hnum : line.num ≠ 0) {info : Http}
    {m : Memory Byte} :
    (httpParseHeadLine (info.setType t) line).run m =
      ((httpParseHeadLine info line).run m).map (typeKept t ((lineHeader line).run m)) := by
  have hint : ∀ header i f, typeKept t header (Http.withInt i f) = (typeKept t header i).withInt f := by
    intro header i f
    unfold typeKept
    split <;> rfl
  unfold httpParseHeadLine
  apply map_run_then
  intro begin hbegin
  rw [run_ofOption] at hbegin
  have htmp : ({ info.setType t with tmpFlag := line.flag } : Http) =
      ({ info with tmpFlag := line.flag } : Http).setType t := rfl
  rw [htmp]
  generalize ({ info with tmpFlag := line.flag } : Http) = i
  have hline : (httpParseLine (i.setType t) begin line.split line.stop line.num).run m =
      ((httpParseLine i begin line.split line.stop line.num).run m).map
        (typeKept t ((lineHeader line).run m)) := by
    unfold httpParseLine
    rw [if_neg hnum, if_neg hnum]
    cases hsplit : line.split with
    | none =>
      have hheader : (lineHeader line).run m = some none := by
        unfold lineHeader
        rw [hsplit]
        rfl
      rw [hheader]
      rfl
    | some split =>
      dsimp only
      rw [← (setType_outside t).withInt]
      apply map_run_then
      intro strip hstrip
      apply map_run_then
      intro strip' _
      have hheader : (lineHeader line).run m = (httpLookupHeader strip.1 (strip.2 - strip.1)).run m := by
        unfold lineHeader
        rw [hsplit]
        dsimp only
        rw [run_bind, run_ofOption, hbegin, Option.bind_some, run_bind, hstrip, Option.bind_some]
      rw [hheader]
      exact httpMatchHeaderTable_type t _ _ _ _ _ m
  rw [run_bind, run_bind, hline]
  cases (httpParseLine i begin line.split line.stop line.num).run m with
  | none => rfl
  | some r => exact congrArg some (hint _ _ _).symm

/-! ## The request line -/

theorem httpParseArgs_outside {u : Http → Http} (hu : Outside u) {info : Http} {dataLen : Int}
    {inUrl : Bool} (hstate : inUrl = true ∨ (u info).logic.state = info.logic.state) :
    Maps u (httpParseArgs info dataLen inUrl) (httpParseArgs (u info) dataLen inUrl) := by
  unfold httpParseArgs
  rw [hu.arg, hu.httpInt]
  apply Maps.ite
  · show Maps u (pure { info with arg := _, httpInt := info.httpInt })
      (pure { u info with arg := _, httpInt := info.httpInt })
    rw [← hu.setArg]
    exact maps_pure _
  · apply maps_then
    intro data
    apply maps_then
    intro s
    apply Maps.ite
    · rw [← hu.setArg]
      exact maps_pure _
    · have hend : httpParseArgsEnd inUrl (u info).logic.state s =
          httpParseArgsEnd inUrl info.logic.state s := by
        rcases hstate with rfl | hstate
        · rfl
        · rw [hstate]
      rw [hend]
      apply maps_then
      intro s'
      rw [← hu.setArg]
      exact maps_pure _

theorem httpMyparseMethod_outside {u : Http → Http} (hu : Outside u) {data len : Int} {info : Http} :
    Maps u (httpMyparseMethod data len info) (httpMyparseMethod data len (u info)) := by
  unfold httpMyparseMethod
  apply maps_then
  intro strip
  apply maps_then
  intro strip'
  dsimp only
  rw [hu.str, hu.tmpFlag]
  apply maps_then
  intro rawUrl
  apply maps_then
  intro urlAndArg
  apply maps_then
  intro tmp
  apply maps_then
  intro url
  rw [← hu.withStr]
  cases tmp with
  | none => exact maps_pure _
  | some tmp =>
    refine ((httpParseArgs_outside hu (Or.inl rfl)).atPtr _).bind ?_
    intro r
    rw [hu.arg]
    show Maps u (pure { r with arg := _, httpInt := r.httpInt })
      (pure { u r with arg := _, httpInt := (u r).httpInt })
    rw [hu.httpInt, ← hu.setArg]
    exact maps_pure _

theorem parseMethod_outside {u : Http → Http} (hu : Outside u)
    (hmethod : ∀ i v, u { i with logic := { i.logic with method := v } } =
      { u i with logic := { (u i).logic with method := v } }) {data dataLen : Int} {info : Http} :
    Maps u (parseMethod data dataLen info) (parseMethod data dataLen (u info)) := by
  unfold parseMethod
  apply maps_then
  intro space
  cases space with
  | none => exact maps_pure _
  | some space =>
    apply maps_then
    intro strip
    dsimp only
    apply maps_then
    intro a
    apply maps_then
    intro b
    apply maps_then
    intro found
    cases found with
    | none =>
      dsimp only
      rw [← hmethod]
      exact httpMyparseMethod_outside hu
    | some key =>
      dsimp only
      rw [← hmethod]
      exact Maps.ite (httpMyparseMethod_outside hu) (maps_pure _)

def Http.setMethod (v : HttpMethod) (info : Http) : Http :=
  { info with logic := { info.logic with method := v } }

/-- A line with a space overwrites the method. -/
theorem parseMethod_absorbs {v : HttpMethod} {data dataLen space : Int} {info : Http} {m : Memory Byte}
    (h : (strlstr data dataLen (str " ")).run m = some (some space)) :
    (parseMethod data dataLen (info.setMethod v)).run m = (parseMethod data dataLen info).run m := by
  unfold parseMethod
  rw [run_bind, run_bind, h, Option.bind_some, Option.bind_some]
  rfl

/-! ## The lines of a head -/

theorem httpParseLines_outside {u : Http → Http} (hu : OutsideType u) (lines : List HeadLine) :
    ∀ {info : Http}, (∀ line ∈ lines, line.num ≠ 0) →
      Maps u (httpParseLines lines info) (httpParseLines lines (u info)) := by
  induction lines with
  | nil =>
    intro info _
    exact maps_pure _
  | cons line lines ih =>
    intro info hnum
    unfold httpParseLines
    refine (httpParseHeadLine_outside hu (hnum line List.mem_cons_self)).bind ?_
    intro r
    exact ih fun x hx => hnum x (List.mem_cons_of_mem _ hx)

/-- Lines with a Content-Type among them forget the type that was there. -/
theorem httpParseLines_type (t : HttpType) {m : Memory Byte} (lines : List HeadLine) :
    ∀ {info : Http}, (∀ line ∈ lines, line.num ≠ 0) →
      (∃ line ∈ lines, (lineHeader line).run m = some (some .cont)) →
      (httpParseLines lines (info.setType t)).run m = (httpParseLines lines info).run m := by
  induction lines with
  | nil =>
    intro info _ h
    obtain ⟨line, hmem, -⟩ := h
    cases hmem
  | cons line lines ih =>
    intro info hnum h
    have hrest : ∀ x ∈ lines, x.num ≠ 0 := fun x hx => hnum x (List.mem_cons_of_mem _ hx)
    unfold httpParseLines
    rw [run_bind, run_bind, httpParseHeadLine_type (hnum line List.mem_cons_self)]
    cases (httpParseHeadLine info line).run m with
    | none => rfl
    | some r =>
      rw [Option.map_some, Option.bind_some, Option.bind_some]
      unfold typeKept
      split
      · rfl
      · next hheader =>
        apply ih hrest
        obtain ⟨x, hx, hcont⟩ := h
        rcases List.mem_cons.mp hx with rfl | hx
        · exact absurd hcont hheader
        · exact ⟨x, hx, hcont⟩

/-! ## The head -/

def Http.setRest (left : Int) (state : HttpState) (info : Http) : Http :=
  { info with
    loc := { info.loc with unRecvContentLen := left }
    logic := { info.logic with state := state } }

theorem setRest_outside (left : Int) (state : HttpState) : OutsideType (Http.setRest left state) where
  str _ := rfl
  arg _ := rfl
  httpInt _ := rfl
  tmpFlag _ := rfl
  setStr _ _ := rfl
  setArg _ _ _ := rfl
  setInt _ _ := rfl
  setTmp _ _ := rfl
  setChunked _ _ := rfl
  setClosed _ := rfl
  type _ := rfl
  dashes _ := rfl
  setType _ _ := rfl
  setDashes _ _ := rfl

def HttpLocal.setLeft (left : Int) (loc : HttpLocal) : HttpLocal :=
  { loc with unRecvContentLen := left }

def Http.setLeft (left : Int) (info : Http) : Http := { info with loc := info.loc.setLeft left }

theorem setLeft_outside (left : Int) : OutsideType (Http.setLeft left) where
  str _ := rfl
  arg _ := rfl
  httpInt _ := rfl
  tmpFlag _ := rfl
  setStr _ _ := rfl
  setArg _ _ _ := rfl
  setInt _ _ := rfl
  setTmp _ _ := rfl
  setChunked _ _ := rfl
  setClosed _ := rfl
  type _ := rfl
  dashes _ := rfl
  setType _ _ := rfl
  setDashes _ _ := rfl

/-- Of an earlier message there is left a counter, a state, a method and a
content type, and what `http_init` clears. -/
structure OnlyType (info : Http) : Prop where
  loc : info.loc = { ({} : HttpLocal) with
    state := info.loc.state
    unRecvContentLen := info.loc.unRecvContentLen
    formStatus := info.loc.formStatus
    formFlag := info.loc.formFlag }
  isChunked : info.logic.isChunked = false
  isClosed : info.logic.isClosed = false
  file : info.file = {}

theorem onlyType_zero : OnlyType Http.zero := ⟨rfl, rfl, rfl, rfl⟩

/-- A parser that has just found the end of a head, and is new. -/
def headStart : Http := { loc := { state := 4 } }

theorem httpInit_onlyType {info : Http} (h : OnlyType info) (h4 : info.loc.state = 4) :
    httpInit info = ((({ httpInit headStart with tmpFlag := info.tmpFlag } : Http).setType
      info.logic.contentType).setMethod info.logic.method).setRest info.loc.unRecvContentLen
        info.logic.state := by
  obtain ⟨hloc, hchunked, hclosed, hfile⟩ := h
  obtain ⟨loc, ⟨state, method, type, chunked, closed⟩, httpInt, texts, arg, file, flag⟩ := info
  dsimp only at hloc hchunked hclosed hfile h4 ⊢
  subst hchunked hclosed hfile
  rw [h4] at hloc
  unfold httpInit Http.setRest Http.setMethod Http.setType headStart
  rw [hloc]

/-- A request has a header line that is looked up as Content-Type. -/
def Request.HasContentType (q : Request) : Prop :=
  ∃ line ∈ headLines q.head, line.num ≠ 0 ∧
    (lineHeader line).run (Memory.ofList q.packet) = some (some .cont)

theorem Request.head_lines (q : Request) : ∃ flag split lines,
    headLines q.head =
      { flag := flag, begin := some 0, split := split, stop := q.line.text.length, num := 0 } :: lines ∧
    ∀ line ∈ lines, line.num ≠ 0 := by
  have hlines := @headLines_first _ q.headers q.line.text_ne q.line.text_plain
  rw [lineCall, Int.zero_add] at hlines
  refine ⟨_, _, _, hlines, ?_⟩
  have hbehind : ∀ (l : List Byte) (data : Int) (s : HeadScan), s.num ≠ 0 →
      ∀ line ∈ headLinesLoop l data s, line.num ≠ 0 := by
    intro l
    induction l with
    | nil =>
      intro data s _ line hline
      cases hline
    | cons c l ih =>
      intro data s hs line hline
      unfold headLinesLoop at hline
      cases hscan : headScanByte s c data with
      | mk s1 made =>
        obtain ⟨hle, hmade⟩ := headScanByte_num hscan
        rw [hscan] at hline
        rcases List.mem_append.mp hline with hline | hline
        · rw [hmade line (Option.mem_toList.mp hline)]
          exact hs
        · exact ih _ s1 (by omega) line hline
  exact hbehind _ _ _ (Nat.succ_ne_zero 0)

/-- The request line over what is left. -/
theorem requestLine_over {q : Request} {flag : DecodeFlag} {split : Option Int} {left : Int}
    {state : HttpState} {v : HttpMethod} {t : HttpType} {f : DecodeFlag} {i : Http} {line : HeadLine}
    (hline : line = { flag := flag, begin := some 0, split := split, stop := q.line.text.length, num := 0 }) :
    (httpParseHeadLine (((({ i with tmpFlag := f } : Http).setType t).setMethod v).setRest left state)
      line).run (Memory.ofList q.packet) =
      ((httpParseHeadLine i line).run (Memory.ofList q.packet)).map
        fun r => (r.setType t).setRest left state := by
  have hspace : (strlstr 0 q.line.text.length (str " ")).run (Memory.ofList q.packet) =
      some (some (q.line.method.length : Int)) := by
    have h := q.line.space (ch '\r' :: ch '\n' :: q.headers ++ q.body)
    simpa [Request.packet, Request.head] using h
  subst hline
  unfold httpParseHeadLine
  rw [run_bind, run_bind, run_ofOption, Option.bind_some, Option.bind_some, run_bind, run_bind]
  have hone : ∀ j : Http, (httpParseLine j 0 split q.line.text.length 0).run (Memory.ofList q.packet) =
      (parseMethod 0 q.line.text.length j).run (Memory.ofList q.packet) := by
    intro j
    unfold httpParseLine
    rw [if_pos rfl, Int.sub_zero]
  dsimp only
  rw [hone, hone]
  have hover : (parseMethod 0 q.line.text.length
      ((((({ i with tmpFlag := flag } : Http).setType t).setMethod v).setRest left state))).run
      (Memory.ofList q.packet) =
      ((parseMethod 0 q.line.text.length { i with tmpFlag := flag }).run (Memory.ofList q.packet)).map
        fun r => (r.setType t).setRest left state := by
    rw [parseMethod_outside (setRest_outside left state).toOutside (fun _ _ => rfl),
      parseMethod_absorbs hspace, parseMethod_outside (setType_outside t) (fun _ _ => rfl),
      Option.map_map]
    rfl
  have hsame : ({ (((({ i with tmpFlag := f } : Http).setType t).setMethod v).setRest left state) with
      tmpFlag := flag } : Http) =
      (((({ i with tmpFlag := flag } : Http).setType t).setMethod v).setRest left state) := rfl
  rw [hsame, hover]
  cases (parseMethod 0 q.line.text.length { i with tmpFlag := flag }).run (Memory.ofList q.packet) with
  | none => rfl
  | some r => rfl

/-- The request line leaves the content type alone. -/
theorem requestLine_type {line : HeadLine} (hnum : line.num = 0) {info : Http} :
    (httpParseHeadLine info line).Ensures fun r =>
      r.logic.contentType = info.logic.contentType := by
  apply ensures_then
  intro begin
  have hline : (httpParseLine { info with tmpFlag := line.flag } begin line.split line.stop
      line.num).Ensures fun r => r.logic.contentType = info.logic.contentType := by
    unfold httpParseLine
    rw [if_pos hnum]
    refine parseMethod_frame.mono ?_
    intro r hr
    rw [hr.logic]
  refine hline.bind ?_
  intro r hr
  exact ensures_pure hr

/-- **A head over what an earlier message left** is what it is alone, but for
the counter. -/
theorem httpParseHead_over {q : Request} {info : Http} (h : OnlyType info) (h4 : info.loc.state = 4)
    (htype : info.logic.contentType = .na ∨ q.HasContentType) :
    (httpParseHead q.head.length info).run (Memory.ofList q.packet) =
      ((httpParseHead q.head.length headStart).run (Memory.ofList q.packet)).map
        (Http.setLeft info.loc.unRecvContentLen) := by
  obtain ⟨flag, split, lines, hlines, hnum⟩ := q.head_lines
  have hslice : (Access.slice 0 q.head.length).run (Memory.ofList q.packet) = some q.head := by
    have hs := Access.slice_ofList [] q.head q.body
    simpa [Request.packet] using hs
  unfold httpParseHead
  dsimp only
  rw [run_bind, run_bind, hslice, Option.bind_some, Option.bind_some, run_bind, run_bind,
    httpParseHeadLoop_lines, httpParseHeadLoop_lines, httpInit_onlyType h h4]
  have hloop : headLinesLoop q.head 0 {} = headLines q.head := rfl
  rw [hloop, hlines]
  unfold httpParseLines
  rw [run_bind, run_bind]
  generalize hY : (httpInit headStart).withInt
    (fun i => { i with headerLen := i.headerLen + q.head.length }) = Y
  have hna : Y.logic.contentType = .na := by
    rw [← hY]
    rfl
  have hstart : ((((({ httpInit headStart with tmpFlag := info.tmpFlag } : Http).setType
      info.logic.contentType).setMethod info.logic.method).setRest info.loc.unRecvContentLen
      info.logic.state).withInt fun i => { i with headerLen := i.headerLen + q.head.length }) =
      ((({ Y with tmpFlag := info.tmpFlag } : Http).setType info.logic.contentType).setMethod
        info.logic.method).setRest info.loc.unRecvContentLen info.logic.state := by
    rw [← hY]
    rfl
  rw [hstart, requestLine_over rfl]
  cases hfirst : (httpParseHeadLine Y _).run (Memory.ofList q.packet) with
  | none => rfl
  | some r =>
    rw [Option.map_some, Option.bind_some, Option.bind_some,
      httpParseLines_outside (setRest_outside _ _) lines hnum]
    have hforget : (httpParseLines lines (r.setType info.logic.contentType)).run
        (Memory.ofList q.packet) = (httpParseLines lines r).run (Memory.ofList q.packet) := by
      rcases htype with hnone | ⟨line, hmem, hline, hcont⟩
      · have hr := requestLine_type rfl _ r hfirst
        have hsame : r.setType info.logic.contentType = r := by
          rw [hnone, ← hna, ← hr]
          rfl
        rw [hsame]
      · apply httpParseLines_type _ lines hnum
        rw [hlines] at hmem
        rcases List.mem_cons.mp hmem with rfl | hmem
        · exact absurd rfl hline
        · exact ⟨line, hmem, hcont⟩
    rw [hforget]
    cases (httpParseLines lines r).run (Memory.ofList q.packet) with
    | none => rfl
    | some r' => rfl

/-! ## The body -/

/-- The counter alone. -/
def leftOnly (left : Int) : Recount := ⟨fun _ => left, id, id, id, id⟩

theorem httpParseForm_left (left : Int) (data : List Byte) (info : Http) :
    httpParseForm data (info.setLeft left) = (httpParseForm data info).map (·.setLeft left) :=
  @httpParseForm_recount (leftOnly left) info (fun _ => Iff.rfl) data

theorem httpParseBodyArgs_left (left : Int) {dataLen : Int} {info : Http} :
    Maps (Http.setLeft left) (httpParseBodyArgs dataLen info)
      (httpParseBodyArgs dataLen (info.setLeft left)) := by
  unfold httpParseBodyArgs
  have htype : (info.setLeft left).logic.contentType = info.logic.contentType := rfl
  rw [htype]
  apply Maps.ite (maps_pure _)
  split
  · apply maps_then
    intro data
    exact maps_ofOption (httpParseForm_left left data info)
  · exact maps_pure _
  · exact httpParseArgs_outside (setLeft_outside left).toOutside (Or.inr rfl)

theorem httpReadLine_left (left : Int) (c : Byte) (loc : HttpLocal) :
    httpReadLine c (loc.setLeft left) = ((httpReadLine c loc).1, (httpReadLine c loc).2.setLeft left) := by
  unfold httpReadLine HttpLocal.setLeft
  dsimp only
  split
  · rfl
  · split <;> rfl

theorem recvChunkLoop_left (left : Int) (n : Nat) : ∀ (data : List Byte) (loc : HttpLocal),
    recvChunkLoop n data (loc.setLeft left) = (recvChunkLoop n data loc).setLeft left := by
  induction n with
  | zero =>
    intro data loc
    rfl
  | succ n ih =>
    intro data loc
    cases data with
    | nil => rfl
    | cons c data =>
      have hlen : (loc.setLeft left).unRecvChunkedLen = loc.unRecvChunkedLen := rfl
      have hflag : (loc.setLeft left).chunkFlag = loc.chunkFlag := rfl
      unfold recvChunkLoop
      rw [hlen, hflag, httpReadLine_left]
      split
      · split
        · rfl
        · split
          · rfl
          · exact ih _ { loc with unRecvChunkedLen := 0, chunkFlag := .size }
      · cases httpReadLine c loc with
        | mk line loc' =>
          cases line with
          | none => exact ih _ _
          | some line =>
            dsimp only
            split
            · rfl
            · split
              · exact ih _ { loc' with unRecvChunkedLen := 2, chunkFlag := .fin }
              · exact ih _ { loc' with unRecvChunkedLen := toInt32 (toInt32 (strtol line 16) + 2) }

theorem recvChunk_left (left : Int) (data : List Byte) (info : Http) :
    recvChunk data (info.setLeft left) = (recvChunk data info).setLeft left := by
  have hloc : (info.setLeft left).loc = info.loc.setLeft left := rfl
  unfold recvChunk
  rw [hloc, recvChunkLoop_left]
  dsimp only
  have hlen : ((recvChunkLoop data.length data info.loc).setLeft left).unRecvChunkedLen =
      (recvChunkLoop data.length data info.loc).unRecvChunkedLen := rfl
  have hflag : ((recvChunkLoop data.length data info.loc).setLeft left).chunkFlag =
      (recvChunkLoop data.length data info.loc).chunkFlag := rfl
  rw [hlen, hflag]
  split <;> rfl

/-- What a counter that has run out makes of a body. -/
theorem httpBodyCount_left {left : Int} {info : Http} {body : List Byte} (hne : body ≠ [])
    (hzero : info.loc.unRecvContentLen = 0) (hleft : left ≤ 0)
    (hwrap : -2 ^ 31 ≤ left - body.length) : ∃ left' ≤ 0,
      httpBodyCount body (info.setLeft left) = (httpBodyCount body info).setLeft left' := by
  have hpos := List.length_pos_iff.mpr hne
  have hover : ∀ n : Int, -2 ^ 31 ≤ n → n ≤ 0 → toInt32 n ≤ 0 := by
    intro n h1 h2
    unfold toInt32
    rw [Int.bmod_def]
    split <;> omega
  have hint : ∀ f, (info.setLeft left).withInt f = (info.withInt f).setLeft left := fun f => rfl
  have hzero' : (info.withInt fun i =>
      { i with bodyLen := i.bodyLen + body.length }).loc.unRecvContentLen = 0 := hzero
  unfold httpBodyCount
  rw [hint]
  generalize info.withInt (fun i => { i with bodyLen := i.bodyLen + body.length }) = counted at hzero' ⊢
  dsimp only
  have hchunked : (counted.setLeft left).logic.isChunked = counted.logic.isChunked := rfl
  rw [hchunked]
  by_cases hch : counted.logic.isChunked = true
  · rw [if_pos hch, if_pos hch, recvChunk_left]
    exact ⟨left, hleft, rfl⟩
  · have hcount : (counted.setLeft left).loc.unRecvContentLen = left := rfl
    rw [if_neg hch, if_neg hch, hcount, hzero', if_pos (hover _ hwrap (by omega)),
      if_pos (hover _ (by omega) (by omega))]
    exact ⟨toInt32 (left - body.length), hover _ hwrap (by omega), rfl⟩

/-- **A body over a counter that has run out** is what it is over a new one. -/
theorem parseBody_left {left : Int} {info : Http} {body : List Byte}
    (hzero : info.loc.unRecvContentLen = 0) (hleft : left ≤ 0)
    (hwrap : -2 ^ 31 ≤ left - body.length) : ∃ left' ≤ 0,
      parseBody (info.setLeft left) body = (parseBody info body).map (Http.setLeft left') := by
  by_cases hnil : body = []
  · subst hnil
    exact ⟨left, hleft, rfl⟩
  · have hpos := List.length_pos_iff.mpr hnil
    obtain ⟨left', hle, hcount⟩ := httpBodyCount_left hnil hzero hleft hwrap
    refine ⟨left', hle, ?_⟩
    unfold parseBody httpParseBody
    rw [if_neg (by omega), if_neg (by omega), run_bind, run_bind, Int.toNat_natCast, slice_whole,
      Option.bind_some, Option.bind_some, hcount]
    exact httpParseBodyArgs_left left' _

end WafProxy
