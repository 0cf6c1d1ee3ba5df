import WafProxy.Http.Detect

/-
  What the parser leaves alone

  A header function writes the strings, the integers, the content type, the two
  flags of `logic_t` and `boundary_cnt`, and nothing else; the request line
  writes the method, the strings and the argument table; the arguments of a body
  write the tables and the fields of `local_t` that belong to the form.
-/

namespace WafProxy
open Lib

/-! ## A header line -/

/-- The strings that a header line of their own is stored in. -/
structure HttpStr.SameFields (s t : HttpStr) : Prop where
  host : t.host = s.host
  agent : t.agent = s.agent
  location : t.location = s.location
  reference : t.reference = s.reference
  cookie : t.cookie = s.cookie

/-- A relation that holds between the parser's states before and after whatever a header
function writes, but for its writes to `host`, `agent`, `location`, `reference` and `cookie`. -/
structure HeaderWrites (R : Http → Http → Prop) : Prop where
  refl : ∀ i, R i i
  trans : ∀ {a b c}, R a b → R b c → R a c
  str : ∀ (i : Http) (f : HttpStr → HttpStr), i.str.SameFields (f i.str) → R i (i.withStr f)
  httpInt : ∀ (i : Http) (f : HttpInt → HttpInt), (f i.httpInt).headerLineNum = i.httpInt.headerLineNum →
    (f i.httpInt).headerCookieNum = i.httpInt.headerCookieNum → R i (i.withInt f)
  logic : ∀ (i : Http) (l : HttpLogic), l.state = i.logic.state ∧ l.method = i.logic.method →
    R i { i with logic := l }
  dashes : ∀ (i : Http) (k : Nat), R i { i with loc := { i.loc with boundaryCnt := k } }

section
variable {R : Http → Http → Prop} (hR : HeaderWrites R) {data dataLen begin stop : Int} {info : Http}
include hR

theorem parseRa_writes : (parseRa data dataLen info).Ensures (R info) := by
  apply Access.ensures_then
  intro cnt
  exact Access.ensures_pure (hR.httpInt info _ rfl rfl)

theorem parseConn_writes : (parseConn data info).Ensures (R info) := by
  apply Access.ensures_then
  intro close
  split
  · exact Access.ensures_pure (hR.refl info)
  · exact Access.ensures_pure (hR.logic info _ ⟨rfl, rfl⟩)

theorem parseConl_writes : (parseConl data dataLen info).Ensures (R info) := by
  unfold parseConl
  split
  · exact Access.ensures_pure (hR.refl info)
  · apply Access.ensures_then
    intro buf
    exact Access.ensures_pure (hR.httpInt info _ rfl rfl)

omit hR in
/-- The credentials are written into three strings. -/
theorem parseBasic_kept {tmpFlag : DecodeFlag} {s s' : HttpStr} (h : parseBasic tmpFlag s = some s') :
    s.SameFields s' := by
  obtain ⟨src, -, h⟩ := Option.bind_eq_some_iff.mp h
  obtain ⟨bytes, -, h⟩ := Option.bind_eq_some_iff.mp h
  obtain ⟨⟨flag, target⟩, -, h⟩ := Option.bind_eq_some_iff.mp h
  dsimp only at h
  generalize hauth : (if 0 < flag then _ else _ : XStr) = auth at h
  split at h
  · obtain rfl := Option.some.inj h
    exact ⟨rfl, rfl, rfl, rfl, rfl⟩
  · obtain rfl := Option.some.inj h
    exact ⟨rfl, rfl, rfl, rfl, rfl⟩

theorem parseAu_writes : (parseAu data dataLen info).Ensures (R info) := by
  apply Access.ensures_then
  intro digest
  dsimp only
  apply Access.ensures_ite_then
  intro negotiate
  apply Access.ensures_ite_then
  intro other
  split
  · apply Access.ensures_then
    intro x
    exact Access.ensures_pure (hR.str info _ ⟨rfl, rfl, rfl, rfl, rfl⟩)
  · apply Access.ensures_then
    intro basic
    split
    · apply Access.ensures_then
      intro strip
      split
      · exact Access.ensures_pure (hR.refl info)
      · apply Access.ensures_then
        intro x
        refine Access.Ensures.bind (Access.ensures_ofOption fun s hs => parseBasic_kept hs) ?_
        intro s hs
        exact Access.ensures_pure
          (hR.str info (fun _ => s) ⟨hs.host, hs.agent, hs.location, hs.reference, hs.cookie⟩)
    · exact Access.ensures_pure (hR.refl info)

theorem httpGetContentType_writes : (httpGetContentType begin stop info).Ensures (R info) := by
  apply Access.ensures_then
  intro id
  exact Access.ensures_pure (hR.logic info _ ⟨rfl, rfl⟩)

theorem getPostBoundary_writes : (getPostBoundary begin stop info).Ensures (R info) := by
  apply Access.ensures_then
  intro x
  apply Access.ensures_then
  intro k
  apply Access.ensures_pure
  have hboundary := hR.str info (fun s => { s with boundary := x }) ⟨rfl, rfl, rfl, rfl, rfl⟩
  exact hR.trans hboundary (hR.dashes _ _)

theorem parseTableParsing_writes : (parseTableParsing begin stop info).Ensures (R info) := by
  unfold parseTableParsing
  apply Access.ensures_ite_then
  intro boundary
  dsimp only
  split
  · exact getPostBoundary_writes hR
  · apply Access.ensures_ite_then
    intro type
    split
    · exact httpGetContentType_writes hR
    · exact Access.ensures_pure (hR.refl info)

theorem contentTypeParams_writes (n : Nat) : ∀ {begin : Int} {info : Http},
    (contentTypeParams stop n begin info).Ensures (R info) := by
  induction n with
  | zero =>
    intro begin info
    exact Access.ensures_pure (hR.refl info)
  | succ n ih =>
    intro begin info
    unfold contentTypeParams
    split
    · apply Access.ensures_then
      intro found
      dsimp only
      apply Access.ensures_then
      intro first
      refine (parseTableParsing_writes hR).bind ?_
      intro info' h
      exact ih.mono fun r hr => hR.trans h hr
    · exact Access.ensures_pure (hR.refl info)

theorem httpParseContentType_writes : (httpParseContentType begin stop info).Ensures (R info) := by
  apply Access.ensures_then
  intro found
  dsimp only
  refine (httpGetContentType_writes hR).bind ?_
  intro info' h
  split
  · exact Access.ensures_pure h
  · exact (contentTypeParams_writes hR _).mono fun r hr => hR.trans h hr

theorem parseCont_writes : (parseCont data dataLen info).Ensures (R info) := by
  apply Access.ensures_then
  intro x
  have htype := hR.str info (fun s => { s with contentType := x }) ⟨rfl, rfl, rfl, rfl, rfl⟩
  exact (httpParseContentType_writes hR).mono fun r hr => hR.trans htype hr

/-- The header functions that write none of the five strings. -/
theorem HeaderFn.call_writes {f : HeaderFn} (hf : f ≠ .ho ∧ f ≠ .us ∧ f ≠ .lo ∧ f ≠ .re ∧ f ≠ .coo) :
    (f.call data dataLen info).Ensures (R info) := by
  cases f with
  | au => exact parseAu_writes hR
  | conl => exact parseConl_writes hR
  | cont => exact parseCont_writes hR
  | conn => exact parseConn_writes hR
  | coo => exact absurd rfl hf.2.2.2.2
  | ho => exact absurd rfl hf.1
  | us => exact absurd rfl hf.2.1
  | lo => exact absurd rfl hf.2.2.1
  | re => exact absurd rfl hf.2.2.2.1
  | ra => exact parseRa_writes hR
  | tr => exact Access.ensures_pure (hR.logic info _ ⟨rfl, rfl⟩)
  | ac | ace | cone | set | xp | xpb | xa | xf => exact Access.ensures_pure (hR.refl info)

end

/-- What no header function writes. -/
structure HeaderFrame (info r : Http) : Prop where
  loc : r.loc = { info.loc with boundaryCnt := r.loc.boundaryCnt }
  arg : r.arg = info.arg
  file : r.file = info.file
  state : r.logic.state = info.logic.state
  method : r.logic.method = info.logic.method

theorem HeaderFrame.refl (info : Http) : HeaderFrame info info := ⟨rfl, rfl, rfl, rfl, rfl⟩

theorem HeaderFrame.trans {a b c : Http} (h : HeaderFrame a b) (h' : HeaderFrame b c) :
    HeaderFrame a c where
  loc := by rw [h'.loc, h.loc]
  arg := h'.arg.trans h.arg
  file := h'.file.trans h.file
  state := h'.state.trans h.state
  method := h'.method.trans h.method

theorem headerFrame_withStr (info : Http) (f : HttpStr → HttpStr) : HeaderFrame info (info.withStr f) :=
  ⟨rfl, rfl, rfl, rfl, rfl⟩

theorem headerFrame_withInt (info : Http) (f : HttpInt → HttpInt) : HeaderFrame info (info.withInt f) :=
  ⟨rfl, rfl, rfl, rfl, rfl⟩

theorem headerFrame_writes : HeaderWrites HeaderFrame where
  refl := HeaderFrame.refl
  trans := HeaderFrame.trans
  str _ _ _ := ⟨rfl, rfl, rfl, rfl, rfl⟩
  httpInt _ _ _ _ := ⟨rfl, rfl, rfl, rfl, rfl⟩
  logic _ _ h := ⟨rfl, rfl, rfl, h.1, h.2⟩
  dashes _ _ := ⟨rfl, rfl, rfl, rfl, rfl⟩

section
variable {data dataLen begin stop : Int} {info : Http}

/-- The four functions that store their value. -/
theorem setStr_frame {x : XStr} {f : XStr → HttpStr → HttpStr} :
    (httpSetStr info.tmpFlag x data dataLen >>= fun x => pure (info.withStr (f x))).Ensures (HeaderFrame info) := by
  apply Access.ensures_then
  intro x
  exact Access.ensures_pure (headerFrame_withStr info _)

/-- `parse_coo` writes the text and its counter. -/
theorem parseCoo_writes : (parseCoo data dataLen info).Ensures fun r => ∃ x cnt,
    r = (info.withStr fun s => { s with cookie := x }).withInt fun i => { i with headerCookieNum := cnt } := by
  apply Access.ensures_then
  intro x
  apply Access.ensures_then
  intro cnt
  exact Access.ensures_pure ⟨x, cnt, rfl⟩

theorem HeaderFn.call_frame (f : HeaderFn) : (f.call data dataLen info).Ensures (HeaderFrame info) := by
  cases f with
  | ho | us | lo | re => exact setStr_frame
  | coo =>
    refine parseCoo_writes.mono ?_
    intro r h
    obtain ⟨x, cnt, rfl⟩ := h
    exact ⟨rfl, rfl, rfl, rfl, rfl⟩
  | _ => exact HeaderFn.call_writes headerFrame_writes (by decide)

theorem httpMatchHeaderTable_frame {name nameLen value valueLen : Int} :
    (httpMatchHeaderTable name nameLen value valueLen info).Ensures (HeaderFrame info) := by
  apply Access.ensures_then
  intro found
  cases found with
  | some f => exact f.call_frame
  | none => exact Access.ensures_pure (HeaderFrame.refl info)

/-- **A line behind the request line leaves the parser's state, the tables and
the method as they are.** -/
theorem httpParseLine_frame {split : Option Int} {num : Nat} (hnum : num ≠ 0) :
    (httpParseLine info begin split stop num).Ensures (HeaderFrame info) := by
  unfold httpParseLine
  rw [if_neg hnum]
  cases split with
  | none => exact Access.ensures_pure (HeaderFrame.refl info)
  | some split =>
    apply Access.ensures_then
    intro strip
    apply Access.ensures_then
    intro strip'
    exact httpMatchHeaderTable_frame.mono fun r hr => (headerFrame_withInt info _).trans hr

end

/-! ## The request line -/

/-- What the request line leaves alone. -/
structure RequestLineFrame (info r : Http) : Prop where
  loc : r.loc = info.loc
  file : r.file = info.file
  logic : r.logic = { info.logic with method := r.logic.method }

theorem RequestLineFrame.refl (info : Http) : RequestLineFrame info info := ⟨rfl, rfl, rfl⟩

theorem RequestLineFrame.trans {a b c : Http} (h : RequestLineFrame a b)
    (h' : RequestLineFrame b c) : RequestLineFrame a c where
  loc := h'.loc.trans h.loc
  file := h'.file.trans h.file
  logic := by rw [h'.logic, h.logic]

theorem requestLineFrame_method (info : Http) (m : HttpMethod) :
    RequestLineFrame info { info with logic := { info.logic with method := m } } := ⟨rfl, rfl, rfl⟩

/-- The argument parser writes the argument table and the counters of `http_int_t`. -/
theorem httpParseArgs_frame (info : Http) (dataLen : Int) (inUrl : Bool) :
    (httpParseArgs info dataLen inUrl).Ensures fun r =>
      r = { info with arg := r.arg, httpInt := r.httpInt } := by
  unfold httpParseArgs
  dsimp only
  generalize (if info.arg.cur = none then httpGetEmptyArg info.arg else info.arg) = arg
  split
  · exact Access.ensures_pure rfl
  · apply Access.ensures_then
    intro text
    apply Access.ensures_then
    intro s
    split
    · exact Access.ensures_pure rfl
    · apply Access.ensures_then
      intro s'
      exact Access.ensures_pure rfl

section
variable {data len : Int} {info : Http}

theorem httpMyparseMethod_frame : (httpMyparseMethod data len info).Ensures (RequestLineFrame info) := by
  unfold httpMyparseMethod
  apply Access.ensures_then
  intro strip
  apply Access.ensures_then
  intro strip'
  apply Access.ensures_then
  intro rawUrl
  apply Access.ensures_then
  intro urlAndArg
  apply Access.ensures_then
  intro tmp
  apply Access.ensures_then
  intro url
  cases tmp with
  | none => exact Access.ensures_pure ⟨rfl, rfl, rfl⟩
  | some tmp =>
    refine Access.Ensures.bind (Access.Ensures.atPtr (httpParseArgs_frame _ _ _) _) ?_
    intro r hr
    apply Access.ensures_pure
    rw [hr]
    exact ⟨rfl, rfl, rfl⟩

theorem parseMethod_frame : (parseMethod data len info).Ensures (RequestLineFrame info) := by
  apply Access.ensures_then
  intro space
  cases space with
  | none => exact Access.ensures_pure (RequestLineFrame.refl info)
  | some space =>
    apply Access.ensures_then
    intro strip
    dsimp only
    apply Access.ensures_then
    intro a
    apply Access.ensures_then
    intro b
    apply Access.ensures_then
    intro found
    cases found with
    | none => exact httpMyparseMethod_frame.mono fun r hr => (requestLineFrame_method info _).trans hr
    | some key =>
      dsimp only
      split
      · exact httpMyparseMethod_frame.mono fun r hr => (requestLineFrame_method info _).trans hr
      · exact Access.ensures_pure ⟨rfl, rfl, rfl⟩

end

/-! ## The head -/

/-- What no line of a head writes. -/
structure HeadFrame (info r : Http) : Prop where
  loc : r.loc = { info.loc with boundaryCnt := r.loc.boundaryCnt }
  file : r.file = info.file
  state : r.logic.state = info.logic.state

theorem HeadFrame.refl (info : Http) : HeadFrame info info := ⟨rfl, rfl, rfl⟩

theorem HeadFrame.trans {a b c : Http} (h : HeadFrame a b) (h' : HeadFrame b c) : HeadFrame a c where
  loc := by rw [h'.loc, h.loc]
  file := h'.file.trans h.file
  state := h'.state.trans h.state

theorem headFrame_tmpFlag (info : Http) (flag : DecodeFlag) :
    HeadFrame info { info with tmpFlag := flag } := ⟨rfl, rfl, rfl⟩

theorem HeaderFrame.head {a b : Http} (h : HeaderFrame a b) : HeadFrame a b := ⟨h.loc, h.file, h.state⟩

theorem RequestLineFrame.head {a b : Http} (h : RequestLineFrame a b) : HeadFrame a b where
  loc := by rw [h.loc]
  file := h.file
  state := by rw [h.logic]

theorem httpParseHeadLine_frame {info : Http} {line : HeadLine} :
    (httpParseHeadLine info line).Ensures (HeadFrame info) := by
  apply Access.ensures_then
  intro begin
  have hline : (httpParseLine { info with tmpFlag := line.flag } begin line.split line.stop
      line.num).Ensures (HeadFrame info) := by
    by_cases hnum : line.num = 0
    · unfold httpParseLine
      rw [if_pos hnum]
      exact parseMethod_frame.mono fun r hr => (headFrame_tmpFlag info _).trans hr.head
    · exact (httpParseLine_frame hnum).mono fun r hr => (headFrame_tmpFlag info _).trans hr.head
  refine hline.bind ?_
  intro r hr
  exact Access.ensures_pure (hr.trans ⟨rfl, rfl, rfl⟩)

theorem httpParseHeadLoop_frame (l : List Byte) : ∀ {data : Int} {s : HeadScan} {info : Http},
    (httpParseHeadLoop l data s info).Ensures (HeadFrame info) := by
  induction l with
  | nil =>
    intro data s info
    exact Access.ensures_pure (HeadFrame.refl info)
  | cons c l ih =>
    intro data s info
    unfold httpParseHeadLoop
    split
    · exact ih
    · refine httpParseHeadLine_frame.bind ?_
      intro r hr
      exact ih.mono fun q hq => hr.trans hq

/-- **A head leaves the counters of the body as they are.** -/
theorem httpParseHead_frame {dataLen : Nat} {info : Http} :
    (httpParseHead dataLen info).Ensures fun r =>
      r.loc = { info.loc with
        formStatus := .begin, formFlag := .arg, boundaryCnt := r.loc.boundaryCnt } ∧
      r.file = info.file ∧ r.logic.state = .head := by
  apply Access.ensures_then
  intro data
  refine (httpParseHeadLoop_frame data).bind ?_
  intro r hr
  apply Access.ensures_pure
  exact ⟨hr.loc, hr.file, rfl⟩

/-! ## The arguments of a body -/

/-- What the arguments of a body leave alone. -/
structure BodyFrame (info r : Http) : Prop where
  logic : r.logic = info.logic
  str : r.str = info.str
  unRecvContentLen : r.loc.unRecvContentLen = info.loc.unRecvContentLen
  unRecvChunkedLen : r.loc.unRecvChunkedLen = info.loc.unRecvChunkedLen
  chunkFlag : r.loc.chunkFlag = info.loc.chunkFlag
  locState : r.loc.state = info.loc.state

theorem BodyFrame.refl (info : Http) : BodyFrame info info := ⟨rfl, rfl, rfl, rfl, rfl, rfl⟩

theorem BodyFrame.trans {a b c : Http} (h : BodyFrame a b) (h' : BodyFrame b c) : BodyFrame a c where
  logic := h'.logic.trans h.logic
  str := h'.str.trans h.str
  unRecvContentLen := h'.unRecvContentLen.trans h.unRecvContentLen
  unRecvChunkedLen := h'.unRecvChunkedLen.trans h.unRecvChunkedLen
  chunkFlag := h'.chunkFlag.trans h.chunkFlag
  locState := h'.locState.trans h.locState

/-- The part of `local_t` a form never writes. -/
structure FormFrame (loc loc' : HttpLocal) : Prop where
  unRecvContentLen : loc'.unRecvContentLen = loc.unRecvContentLen
  unRecvChunkedLen : loc'.unRecvChunkedLen = loc.unRecvChunkedLen
  chunkFlag : loc'.chunkFlag = loc.chunkFlag
  state : loc'.state = loc.state

theorem FormFrame.body {info r : Http} (h : FormFrame info.loc r.loc) (hl : r.logic = info.logic)
    (hs : r.str = info.str) : BodyFrame info r :=
  ⟨hl, hs, h.unRecvContentLen, h.unRecvChunkedLen, h.chunkFlag, h.state⟩

theorem cacheByte_frame {loc loc' : HttpLocal} {c : Byte} (h : cacheByte loc c = some loc') :
    FormFrame loc loc' := by
  unfold cacheByte at h
  split at h
  · cases h
    exact ⟨rfl, rfl, rfl, rfl⟩
  · split at h
    · cases h
      exact ⟨rfl, rfl, rfl, rfl⟩
    · cases h

theorem httpWaitLabelStr_frame {label : List Byte} {c : Byte} {loc loc' : HttpLocal} {met : Bool}
    (h : httpWaitLabelStr label c loc = some (met, loc')) : FormFrame loc loc' := by
  obtain ⟨loc1, h1, h2⟩ := Option.map_eq_some_iff.mp h
  have hf := cacheByte_frame h1
  split at h2
  · cases h2
    exact ⟨hf.unRecvContentLen, hf.unRecvChunkedLen, hf.chunkFlag, hf.state⟩
  · cases h2
    exact hf

theorem httpWaitLineStr_frame {c : Byte} {loc loc' : HttpLocal} {text : Option (List Byte)}
    (h : httpWaitLineStr c loc = some (text, loc')) : FormFrame loc loc' := by
  obtain ⟨loc1, h1, h2⟩ := Option.map_eq_some_iff.mp h
  have hf := cacheByte_frame h1
  have hcopy : ∀ n l, FormFrame loc { loc1 with cacheBuf := l, formHeaderState := n } := fun n l =>
    ⟨hf.unRecvContentLen, hf.unRecvChunkedLen, hf.chunkFlag, hf.state⟩
  split at h2
  · split at h2
    · cases h2; exact hcopy _ _
    · split at h2
      · cases h2; exact hcopy _ _
      · cases h2; exact hf
  · split at h2
    · split at h2
      · cases h2; exact hcopy _ _
      · split at h2
        · cases h2; exact hcopy _ _
        · cases h2; exact hf
    · cases h2; exact hcopy _ _

theorem formLabel_frame {label : List Byte} {c : Byte} {loc loc' : HttpLocal} {met : Bool}
    (h : formLabel label c loc = some (met, loc')) : FormFrame loc loc' := by
  have hc : FormFrame loc (countLabel c loc) := by
    unfold countLabel
    split
    · exact ⟨rfl, rfl, rfl, rfl⟩
    · exact ⟨rfl, rfl, rfl, rfl⟩
  unfold formLabel at h
  dsimp only at h
  split at h
  · have hf := httpWaitLabelStr_frame h
    exact ⟨hf.unRecvContentLen.trans hc.unRecvContentLen,
      hf.unRecvChunkedLen.trans hc.unRecvChunkedLen, hf.chunkFlag.trans hc.chunkFlag,
      hf.state.trans hc.state⟩
  · cases h
    exact hc

theorem formBegin_frame {label : List Byte} {c : Byte} {info r : Http}
    (h : formBegin label c info = some r) : BodyFrame info r := by
  obtain ⟨⟨met, loc⟩, hl, rfl⟩ := Option.map_eq_some_iff.mp h
  have hf := formLabel_frame hl
  cases met with
  | true => exact ⟨rfl, rfl, hf.unRecvContentLen, hf.unRecvChunkedLen, hf.chunkFlag, hf.state⟩
  | false => exact hf.body rfl rfl

theorem formFile_frame (text : List Byte) (info : Http) : BodyFrame info (formFile text info) := by
  unfold formFile
  split
  · exact BodyFrame.refl info
  · exact ⟨rfl, rfl, rfl, rfl, rfl, rfl⟩
  · exact ⟨rfl, rfl, rfl, rfl, rfl, rfl⟩

theorem formArg_frame {name : List Byte} {info r : Http} {stop : Bool}
    (h : formArg name info = some (r, stop)) : BodyFrame info r := by
  unfold formArg at h
  split at h
  · dsimp only at h
    split at h
    · cases h
      exact ⟨rfl, rfl, rfl, rfl, rfl, rfl⟩
    · obtain ⟨arg, -, h⟩ := Option.bind_eq_some_iff.mp h
      obtain ⟨arg', -, h⟩ := Option.bind_eq_some_iff.mp h
      cases h
      exact ⟨rfl, rfl, rfl, rfl, rfl, rfl⟩
  · cases h
    exact BodyFrame.refl info

theorem formHeader_frame {c : Byte} {info r : Http} {name name' : List Byte} {stop : Bool}
    (h : formHeader c info name = some (r, name', stop)) : BodyFrame info r := by
  obtain ⟨⟨text, loc⟩, hw, h⟩ := Option.bind_eq_some_iff.mp h
  have hf := httpWaitLineStr_frame hw
  cases text with
  | none =>
    cases h
    exact hf.body rfl rfl
  | some text =>
    obtain ⟨⟨info', stop'⟩, ha, h⟩ := Option.bind_eq_some_iff.mp h
    cases h
    have hbody : BodyFrame info { info with loc := { loc with formStatus := .body } } :=
      ⟨rfl, rfl, hf.unRecvContentLen, hf.unRecvChunkedLen, hf.chunkFlag, hf.state⟩
    exact (hbody.trans (formFile_frame text _)).trans (formArg_frame ha)

theorem formContent_frame {c : Byte} {info r : Http} (h : formContent c info = some r) :
    BodyFrame info r := by
  unfold formContent at h
  split at h
  · split at h
    · cases h
      exact BodyFrame.refl info
    · split at h
      · cases h
        exact BodyFrame.refl info
      · dsimp only at h
        split at h
        · cases h
          exact ⟨rfl, rfl, rfl, rfl, rfl, rfl⟩
        · obtain ⟨file, -, rfl⟩ := Option.map_eq_some_iff.mp h
          exact ⟨rfl, rfl, rfl, rfl, rfl, rfl⟩
  · obtain ⟨arg, -, rfl⟩ := Option.map_eq_some_iff.mp h
    exact ⟨rfl, rfl, rfl, rfl, rfl, rfl⟩

theorem formCutFile_frame (k : Nat) (info : Http) : BodyFrame info (formCutFile k info) := by
  unfold formCutFile
  split
  · exact BodyFrame.refl info
  · split
    · exact ⟨rfl, rfl, rfl, rfl, rfl, rfl⟩
    · exact BodyFrame.refl info

theorem formCutArg_frame (k : Nat) (info : Http) : BodyFrame info (formCutArg k info) :=
  ⟨rfl, rfl, rfl, rfl, rfl, rfl⟩

theorem formBody_frame {label : List Byte} {c : Byte} {info r : Http}
    (h : formBody label c info = some r) : BodyFrame info r := by
  obtain ⟨⟨met, loc⟩, hl, h⟩ := Option.bind_eq_some_iff.mp h
  have hf := formLabel_frame hl
  have hloc : BodyFrame info { info with loc := loc } := hf.body rfl rfl
  dsimp only at h
  split at h
  · cases h
    -- the status is written over the label's counters; the content was cut before
    have hset : ∀ q : Http, BodyFrame info q →
        BodyFrame info { q with loc := { loc with formStatus := .header, formFlag := .arg } } :=
      fun q hq => ⟨hq.logic, hq.str, hf.unRecvContentLen, hf.unRecvChunkedLen, hf.chunkFlag, hf.state⟩
    apply hset
    split
    · exact hloc.trans (formCutFile_frame _ _)
    · split
      · exact hloc.trans (formCutArg_frame _ _)
      · exact hloc
  · exact hloc.trans (formContent_frame h)

theorem httpParseFormLoop_frame {label : List Byte} (data : List Byte) :
    ∀ {info r : Http} {name : List Byte} {stop : Bool},
    httpParseFormLoop label data info name = some (r, stop) → BodyFrame info r := by
  induction data with
  | nil =>
    intro info r name stop h
    cases h
    exact BodyFrame.refl info
  | cons c data ih =>
    intro info r name stop h
    unfold httpParseFormLoop at h
    split at h
    · obtain ⟨info', hb, h⟩ := Option.bind_eq_some_iff.mp h
      exact (formBegin_frame hb).trans (ih h)
    · obtain ⟨⟨info', name', stop'⟩, hb, h⟩ := Option.bind_eq_some_iff.mp h
      dsimp only at h
      split at h
      · cases h
        exact formHeader_frame hb
      · exact (formHeader_frame hb).trans (ih h)
    · obtain ⟨info', hb, h⟩ := Option.bind_eq_some_iff.mp h
      exact (formBody_frame hb).trans (ih h)

theorem formEnd_frame (label : List Byte) (info : Http) : BodyFrame info (formEnd label info) := by
  unfold formEnd
  split
  · split
    · exact formCutFile_frame _ _
    · split
      · exact formCutArg_frame _ _
      · exact BodyFrame.refl info
  · exact BodyFrame.refl info

theorem httpParseForm_frame {data : List Byte} {info r : Http} (h : httpParseForm data info = some r) :
    BodyFrame info r := by
  obtain ⟨label, -, h⟩ := Option.bind_eq_some_iff.mp h
  obtain ⟨⟨info', stop⟩, hloop, h⟩ := Option.bind_eq_some_iff.mp h
  have hf := httpParseFormLoop_frame data hloop
  cases h
  cases stop with
  | true => exact hf
  | false => exact hf.trans (formEnd_frame label info')

/-- **The arguments of a body leave the framing of the message alone.** -/
theorem httpParseBodyArgs_frame {dataLen : Int} {info : Http} :
    (httpParseBodyArgs dataLen info).Ensures (BodyFrame info) := by
  have hargs : (httpParseArgs info dataLen false).Ensures (BodyFrame info) := by
    refine (httpParseArgs_frame info dataLen false).mono ?_
    intro r hr
    rw [hr]
    exact ⟨rfl, rfl, rfl, rfl, rfl, rfl⟩
  unfold httpParseBodyArgs
  split
  · exact Access.ensures_pure (BodyFrame.refl info)
  · split
    · apply Access.ensures_then
      intro data
      apply Access.ensures_ofOption
      intro r hr
      exact httpParseForm_frame hr
    · exact Access.ensures_pure (BodyFrame.refl info)
    · exact hargs

/-! ## The framing of a body -/

/-- `recv_chunk` writes no more of `local_t`. -/
def ChunkFrame (loc loc' : HttpLocal) : Prop :=
  ∃ len flag cache,
    loc' = { loc with unRecvChunkedLen := len, chunkFlag := flag, cacheBuf := cache }

theorem ChunkFrame.trans {a b c : HttpLocal} (h : ChunkFrame a b) (h' : ChunkFrame b c) :
    ChunkFrame a c := by
  obtain ⟨len, flag, cache, rfl⟩ := h
  obtain ⟨len', flag', cache', rfl⟩ := h'
  exact ⟨len', flag', cache', rfl⟩

theorem httpReadLine_frame (c : Byte) (loc : HttpLocal) : ChunkFrame loc (httpReadLine c loc).2 := by
  unfold httpReadLine
  split
  · exact ⟨_, _, _, rfl⟩
  · dsimp only
    split <;> exact ⟨_, _, _, rfl⟩

theorem recvChunkLoop_frame (n : Nat) : ∀ (data : List Byte) (loc : HttpLocal),
    ChunkFrame loc (recvChunkLoop n data loc) := by
  induction n with
  | zero =>
    intro data loc
    exact ⟨_, _, _, rfl⟩
  | succ n ih =>
    intro data loc
    cases data with
    | nil => exact ⟨_, _, _, rfl⟩
    | cons c data =>
      unfold recvChunkLoop
      split
      · split
        · exact ⟨_, _, _, rfl⟩
        · split
          · exact ⟨_, _, _, rfl⟩
          · exact ChunkFrame.trans ⟨_, _, _, rfl⟩ (ih _ _)
      · have hline := httpReadLine_frame c loc
        split
        · next loc' heq =>
          rw [heq] at hline
          exact hline.trans (ih _ _)
        · next line loc' heq =>
          rw [heq] at hline
          dsimp only
          split
          · exact hline.trans ⟨_, _, _, rfl⟩
          · split
            · exact ChunkFrame.trans (hline.trans ⟨_, _, _, rfl⟩) (ih _ _)
            · exact ChunkFrame.trans (hline.trans ⟨_, _, _, rfl⟩) (ih _ _)

theorem httpBodyCount_locState (data : List Byte) (info : Http) :
    (httpBodyCount data info).loc.state = info.loc.state := by
  unfold httpBodyCount
  dsimp only
  split
  · obtain ⟨len, flag, cache, heq⟩ := recvChunkLoop_frame data.length data info.loc
    have hstate : (recvChunkLoop data.length data info.loc).state = info.loc.state := by rw [heq]
    unfold recvChunk
    dsimp only
    split
    · exact hstate
    · exact hstate
  · rfl

end WafProxy
