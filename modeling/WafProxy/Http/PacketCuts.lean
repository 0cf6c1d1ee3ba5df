import WafProxy.Http.ChunkedArgs
import WafProxy.Http.CutForm
import WafProxy.Http.Packets

/-
  A request in packets — what is recorded

  Cut within its head a request is not the one it is whole. Behind the head one cut
  is possible, and it goes unseen when the parser of the body goes on behind it as if
  there were none.

  What is proved:
    1. `head_closed` — no argument is under way behind a head.
    2. `parseBody_cut` — a cut of the body that its parser does not see
       (`BodyUncut`) leaves the arguments of the whole.
    3. `packet_cuts` — which cuts give every byte once, and which leave the record
       of the request in one packet.
-/

namespace WafProxy
open Lib

/-! ## Behind a head -/

section
variable {info : Http}

theorem httpParseArgs_room {dataLen : Int} {inUrl : Bool} (h : TableClosed info.arg) :
    (httpParseArgs info dataLen inUrl).Ensures fun r => r.arg.maxNum = 32 ∧ r.arg.arg.length ≤ 32 := by
  have hle : info.arg.arg.length ≤ info.arg.maxNum := by
    rw [h.maxNum]
    exact h.length
  have htook := httpGetEmptyArg_took hle
  -- a table that has taken slots has at most 32
  have hroom : ∀ {k : Nat} {a : HttpArgCtrl}, Took k info.arg a → a.maxNum = 32 ∧ a.arg.length ≤ 32 := by
    intro k a ha
    have hmax := ha.maxNum
    have hlength := ha.length
    rw [h.maxNum] at hmax hlength
    exact ⟨hmax, by omega⟩
  unfold httpParseArgs
  dsimp only
  rw [if_pos h.cur]
  split
  · exact Access.ensures_pure (hroom htook)
  · next hcur =>
    have hle' : (httpGetEmptyArg info.arg).arg.length ≤ (httpGetEmptyArg info.arg).maxNum := by
      obtain ⟨hmax, hlength⟩ := hroom htook
      rw [hmax]
      exact hlength
    apply Access.ensures_then
    intro data
    refine (httpParseArgsLoop_took data hcur hle').bind ?_
    intro s hs
    have hs' := htook.trans hs
    split
    · exact Access.ensures_pure (hroom hs')
    · refine httpParseArgsEnd_slots.bind ?_
      intro s' hend
      exact Access.ensures_pure (hroom (hs'.same hend))

theorem httpMyparseMethod_closed {data len : Int} (h : TableClosed info.arg) :
    (httpMyparseMethod data len info).Ensures fun r => TableClosed r.arg := by
  unfold httpMyparseMethod
  apply Access.ensures_then
  intro strip
  apply Access.ensures_then
  intro strip'
  apply Access.ensures_then
  intro rawUrl
  apply Access.ensures_then
  intro urlAndArg
  apply Access.ensures_then
  intro tmp
  apply Access.ensures_then
  intro url
  cases tmp with
  | none => exact Access.ensures_pure h
  | some tmp =>
    have hroom := @httpParseArgs_room (info.withStr fun s =>
      { s with rawUrl := rawUrl, urlAndArg := urlAndArg, url := url }) (strip'.2 - (tmp + 1)) true h
    refine (hroom.atPtr _).bind ?_
    intro r hr
    exact Access.ensures_pure ⟨rfl, hr.1, hr.2⟩

theorem parseMethod_closed {data len : Int} (h : TableClosed info.arg) :
    (parseMethod data len info).Ensures fun r => TableClosed r.arg := by
  apply Access.ensures_then
  intro space
  cases space with
  | none => exact Access.ensures_pure h
  | some space =>
    apply Access.ensures_then
    intro strip
    dsimp only
    apply Access.ensures_then
    intro a
    apply Access.ensures_then
    intro b
    apply Access.ensures_then
    intro found
    cases found with
    | none => exact httpMyparseMethod_closed h
    | some key =>
      dsimp only
      split
      · exact httpMyparseMethod_closed h
      · exact Access.ensures_pure h

theorem httpParseHeadLine_closed {line : HeadLine} (h : TableClosed info.arg) :
    (httpParseHeadLine info line).Ensures fun r => TableClosed r.arg := by
  apply Access.ensures_then
  intro begin
  have hline : (httpParseLine { info with tmpFlag := line.flag } begin line.split line.stop
      line.num).Ensures fun r => TableClosed r.arg := by
    by_cases hnum : line.num = 0
    · unfold httpParseLine
      rw [if_pos hnum]
      exact parseMethod_closed h
    · refine (httpParseLine_frame hnum).mono ?_
      intro r hr
      rw [hr.arg]
      exact h
  exact hline.bind fun r hr => Access.ensures_pure hr

theorem httpParseHeadLoop_closed (l : List Byte) : ∀ {data : Int} {s : HeadScan} {info : Http},
    TableClosed info.arg → (httpParseHeadLoop l data s info).Ensures fun r => TableClosed r.arg := by
  induction l with
  | nil =>
    intro data s info h
    exact Access.ensures_pure h
  | cons c l ih =>
    intro data s info h
    unfold httpParseHeadLoop
    split
    · exact ih h
    · exact (httpParseHeadLine_closed h).bind fun r hr => ih hr

/-- **Behind a head no argument is under way.** -/
theorem head_closed {headLen : Nat} : (httpParseHead headLen info).Ensures fun r => TableClosed r.arg := by
  have hstart : TableClosed (httpInit info).arg := ⟨rfl, rfl, Nat.zero_le _⟩
  apply Access.ensures_then
  intro data
  refine Access.Ensures.bind (httpParseHeadLoop_closed data ?_) fun r hr => Access.ensures_pure hr
  exact hstart

end

/-! ## What is recorded -/

theorem parsePacketsLog_fst (packets : List (List Byte)) : ∀ (base : Nat) (info : Http),
    (parsePacketsLog base info packets).map Prod.fst = parsePackets info packets := by
  induction packets with
  | nil =>
    intro base info
    rfl
  | cons packet packets ih =>
    intro base info
    have hone := parsePacketLog_fst base info packet
    unfold parsePacketsLog parsePackets
    cases hlog : parsePacketLog base info packet with
    | none =>
      rw [hlog, Option.map_none] at hone
      rw [Option.map_eq_none_iff.mp hone.symm]
      rfl
    | some out =>
      rw [hlog, Option.map_some] at hone
      obtain ⟨q, hq, hsnd⟩ := Option.map_eq_some_iff.mp hone.symm
      rw [hq, Option.bind_some, Option.bind_some, hsnd, ← ih (base + packet.length) out.1]
      cases parsePacketsLog (base + packet.length) out.1 packets with
      | none => rfl
      | some rest => rfl

/-- The two have recorded the same request. -/
structure SameRecord (a b : Http) : Prop where
  method : a.logic.method = b.logic.method
  rawUrl : a.str.rawUrl = b.str.rawUrl
  url : a.str.url = b.str.url
  host : a.str.host = b.str.host
  agent : a.str.agent = b.str.agent
  cookie : a.str.cookie = b.str.cookie
  contentType : a.logic.contentType = b.logic.contentType
  contentTypeText : a.str.contentType = b.str.contentType
  boundary : a.str.boundary = b.str.boundary
  args : a.arg.arg = b.arg.arg

/-- The packets are parsed as the request is in one packet, each byte once. -/
def CutIndependent (head body : List Byte) (packets : List (List Byte)) (whole : Http) : Prop :=
  ∃ r log, parsePacketsLog 0 Http.zero packets = some (r, log) ∧ EachOnce head body log ∧
    SameRecord r whole


/-- A packet behind a head that holds no other head is a body. -/
theorem parsePacket_body {info r : Http} {packet : List Byte} (h4 : info.loc.state = 4)
    (hne : packet ≠ []) (hnul : packet.head? ≠ some 0) (hmark : ¬ headMark <:+: packet)
    (h : parseBody info packet = some r) :
    ∃ ret state, parsePacket info packet =
      some (ret, { r with loc := { r.loc with state := state } }) := by
  obtain ⟨c, data, rfl⟩ := List.exists_cons_of_ne_nil hne
  have hc : c ≠ 0 := fun hc => hnul (by rw [hc]; rfl)
  have hopen := @sHttpParse_open (c :: data) []
    (fun q hq hsuf => hmark (hsuf.isInfix.trans hq.isInfix))
  rw [List.reverse_nil, tailState_nil, List.nil_append] at hopen
  have hparse : sHttpParse (c :: data) 4 = sHttpParse (c :: data) 0 := by
    rw [sHttpParse, sHttpParse, sHttpParseByte_afterHead hc]
  have hstate : ¬ tailState (c :: data).reverse = 4 :=
    fun h4 => hmark (tailState_four.mp h4).isInfix
  have hr : r.loc.state = 4 := by
    rw [httpParseBody_locState _ _ _ _ h]
    exact h4
  unfold parseBody at h
  unfold parsePacket doHttpParseTest
  dsimp only
  rw [if_pos h4, Access.run_bind, h, Option.bind_some, Access.run_bind, slice_whole,
    Option.bind_some, Access.run_bind, Access.run_ofOption, hr, hparse, hopen, Option.bind_some]
  dsimp only
  rw [if_neg hstate]
  split
  · exact ⟨-1, _, rfl⟩
  · exact ⟨0, _, rfl⟩

/-! ## A cut behind the head -/

/-- What a body leaves of the head. -/
theorem parseBody_keeps {info r : Http} {data : List Byte} (h : parseBody info data = some r) :
    r.str = info.str ∧ r.logic.method = info.logic.method ∧ r.logic.contentType = info.logic.contentType ∧
      r.loc.state = info.loc.state := by
  by_cases hnil : data = []
  · subst hnil
    cases h
    exact ⟨rfl, rfl, rfl, rfl⟩
  · have hframe := parseBody_frame hnil h
    refine ⟨?_, ?_, ?_, ?_⟩
    · rw [hframe.str, httpBodyCount_counts]
      rfl
    · rw [hframe.logic, httpBodyCount_counts]
      rfl
    · rw [hframe.logic, httpBodyCount_counts]
      rfl
    · rw [hframe.locState, httpBodyCount_locState]

/-- The parser of the body goes on behind the cut as if there were none: `info` is what it
finds in front of `front`, `mid` behind it. -/
def BodyUncut (front back : List Byte) (info mid : Http) : Prop :=
  front = [] ∨
    match info.logic.contentType with
    | .amf => True
    | .multiform => ∃ label name, formLabelText info = some label ∧ FormUncut label front back info mid name
    | _ => ArgsUncut front back info mid

/-- **The arguments behind such a cut.** -/
theorem parseBody_cut {front back : List Byte} {info mid whole : Http} (hclosed : TableClosed info.arg)
    (hback : back ≠ []) (hmid : parseBody info front = some mid) (h : BodyUncut front back info mid)
    (hwhole : parseBody info (front ++ back) = some whole) :
    ∃ r, parseBody mid back = some r ∧ r.arg.arg = whole.arg.arg := by
  by_cases hfront : front = []
  · subst hfront
    cases hmid
    exact ⟨whole, hwhole, rfl⟩
  · have htype := h.resolve_left hfront
    have hargs : ArgBody info → ArgsUncut front back info mid →
        ∃ r, parseBody mid back = some r ∧ r.arg.arg = whole.arg.arg :=
      fun hbody huncut => args_cut hclosed hfront hback hbody hmid huncut hwhole
    cases hcontent : info.logic.contentType with
    | amf =>
      obtain ⟨mid', hmid', harg1⟩ := @parseBody_amf info front hcontent
      obtain ⟨whole', hwhole', harg⟩ := @parseBody_amf info (front ++ back) hcontent
      rw [hmid] at hmid'
      rw [hwhole] at hwhole'
      cases hmid'
      cases hwhole'
      obtain ⟨r, hr, harg2⟩ := @parseBody_amf mid back ((parseBody_keeps hmid).2.2.1.trans hcontent)
      exact ⟨r, hr, by rw [harg2, harg1, harg]⟩
    | multiform =>
      rw [hcontent] at htype
      obtain ⟨label, name, hlabel, hform⟩ := htype
      exact form_cut hback hcontent hlabel hform hwhole
    | _ =>
      rw [hcontent] at htype
      refine hargs ⟨?_, ?_⟩ htype
      · rw [hcontent]
        exact HttpType.noConfusion
      · rw [hcontent]
        exact HttpType.noConfusion

/-- The first packet holds the head: `info` stands behind the head, `mid` behind the packet. -/
structure FirstPacket (head front : List Byte) (info mid : Http) : Prop where
  head : (httpParseHead head.length { loc := { state := 4 } }).run (Memory.ofList (head ++ front)) = some info
  body : parseBody info front = some mid

/-- One packet, or a second one for the end of the body: one that is no head, and begins where
the parser of the body does not see the cut. -/
def CutUnseen (head body : List Byte) (packets : List (List Byte)) : Prop :=
  packets = [head ++ body] ∨ ∃ front back info mid, body = front ++ back ∧ packets = [head ++ front, back] ∧
    back.head? ≠ some 0 ∧ ¬ headMark <:+: back ∧ FirstPacket head front info mid ∧ BodyUncut front back info mid

/-- A cut that is not seen leaves the record of the whole. -/
theorem parsePackets_unseen {head front back : List Byte} {info mid whole : Http} (hhead : IsHead head)
    (hback : back ≠ []) (hnul : back.head? ≠ some 0) (hmark : ¬ headMark <:+: back)
    (hfirst : FirstPacket head front info mid) (h : BodyUncut front back info mid)
    (hwhole : parsePackets Http.zero [head ++ (front ++ back)] = some whole) :
    ∃ r, parsePackets Http.zero [head ++ front, back] = some r ∧ SameRecord r whole := by
  -- the head reads the same in the longer packet
  have hlong := Access.run_of_le (Memory.ofList_le_append (head ++ front) back) hfirst.head
  rw [List.append_assoc] at hlong
  have hclosed := head_closed _ _ hfirst.head
  have h4 : info.loc.state = 4 := by rw [(httpParseHead_frame _ _ hfirst.head).1]
  obtain ⟨out, hout, hwhole⟩ := Option.bind_eq_some_iff.mp hwhole
  cases hwhole
  rw [parsePacket_head hhead rfl] at hout
  have hzero : ({ Http.zero with loc := { Http.zero.loc with state := 4 } } : Http) =
      { loc := { state := 4 } } := rfl
  rw [hzero, hlong, Option.bind_some] at hout
  obtain ⟨last, hlast, hret⟩ := Option.map_eq_some_iff.mp hout
  cases hret
  obtain ⟨r, hr, hargs⟩ := parseBody_cut hclosed hback hfirst.body h hlast
  obtain ⟨hstr1, hmethod1, htype1, h41⟩ := parseBody_keeps hfirst.body
  obtain ⟨hstr2, hmethod2, htype2, -⟩ := parseBody_keeps hr
  obtain ⟨hstr, hmethod, htype, -⟩ := parseBody_keeps hlast
  obtain ⟨ret, state, hsecond⟩ := parsePacket_body (h41.trans h4) hback hnul hmark hr
  have hone : parsePacket Http.zero (head ++ front) = some (0, mid) := by
    rw [parsePacket_head hhead rfl, show ({ Http.zero with loc := { Http.zero.loc with state := 4 } } : Http) =
      { loc := { state := 4 } } from rfl, hfirst.head, Option.bind_some, hfirst.body]
    rfl
  refine ⟨{ r with loc := { r.loc with state := state } }, ?_, ?_⟩
  · rw [parsePackets, hone, Option.bind_some, parsePackets, hsecond]
    rfl
  · have hsame : r.str = last.str := by rw [hstr2, hstr1, hstr]
    exact ⟨hmethod2.trans (hmethod1.trans hmethod.symm), congrArg HttpStr.rawUrl hsame,
      congrArg HttpStr.url hsame, congrArg HttpStr.host hsame, congrArg HttpStr.agent hsame,
      congrArg HttpStr.cookie hsame, htype2.trans (htype1.trans htype.symm), congrArg HttpStr.contentType hsame,
      congrArg HttpStr.boundary hsame, hargs⟩

theorem cutIndependent_once {head body : List Byte} {packets : List (List Byte)} {whole : Http}
    (hhead : IsHead head) (hne : ∀ p ∈ packets, p ≠ []) (hflat : packets.flatten = head ++ body)
    (h : CutIndependent head body packets whole) : CutOnce head body packets := by
  obtain ⟨r, log, hrun, honce, -⟩ := h
  exact (eachOnce_iff hhead hne hflat hrun).mp honce

theorem bodyUncut_args {front back : List Byte} {info mid : Http} (hargs : ArgBody info)
    (h : ArgsUncut front back info mid) : BodyUncut front back info mid := by
  refine Or.inr ?_
  cases hcontent : info.logic.contentType with
  | multiform => exact absurd hcontent hargs.1
  | amf => exact absurd hcontent hargs.2
  | _ => exact h

theorem bodyUncut_form {front back label name : List Byte} {info mid : Http}
    (htype : info.logic.contentType = .multiform) (hlabel : formLabelText info = some label)
    (h : FormUncut label front back info mid name) : BodyUncut front back info mid := by
  refine Or.inr ?_
  rw [htype]
  exact ⟨label, name, hlabel, h⟩

/-- What stands behind the head of a first packet, and behind the packet. -/
def behindFirst (head front : List Byte) : Http :=
  ((httpParseHead head.length { loc := { state := 4 } }).run (Memory.ofList (head ++ front))).getD {}

def behindCut (head front : List Byte) : Http := (parseBody (behindFirst head front) front).getD {}

/-- The request in one packet. -/
def wholeOf (head body : List Byte) : Http := (parsePackets Http.zero [head ++ body]).getD {}

/-- The chunk `a=1` and the end of the chunks, up to its last line feed. -/
def chunkedFront : List Byte := str "3\r\na=1\r\n0\r"

def chunkedBack : List Byte := str "\n\r\n"

theorem chunked_facts : let info := behindFirst chunkedHead chunkedFront
    let mid := behindCut chunkedHead chunkedFront
    ((httpParseHead chunkedHead.length { loc := { state := 4 } }).run
        (Memory.ofList (chunkedHead ++ chunkedFront)) = some info ∧ parseBody info chunkedFront = some mid) ∧
      (info.logic.contentType ≠ .multiform ∧ info.logic.contentType ≠ .amf) ∧
      mid.logic.state ≠ .none ∧ SameEnd chunkedFront chunkedBack info mid := by
  decide +kernel

theorem chunked_seam : Seamless (lastPiece chunkedFront) (firstPiece chunkedBack) := by
  refine Or.inr (Or.inr ⟨?_, ?_, ?_⟩)
  · decide +kernel
  · decide +kernel
  · decide +kernel

theorem chunked_unseen : CutUnseen chunkedHead (chunkedFront ++ chunkedBack)
    [chunkedHead ++ chunkedFront, chunkedBack] := by
  obtain ⟨⟨hhead, hbody⟩, hargs, hmore, hended⟩ := chunked_facts
  exact Or.inr ⟨chunkedFront, chunkedBack, _, _, rfl, rfl, by decide, by decide +kernel, ⟨hhead, hbody⟩,
    bodyUncut_args hargs (Or.inr ⟨hmore, hended, chunked_seam⟩)⟩

/-- A form, up to the content of its part. -/
def formFront : List Byte := str "--bound\r\nContent-Disposition: form-data; name=\"a\"\r\n\r\n"

def formBack : List Byte := str "1\r\n--bound--\r\n"

theorem form_facts : let info := behindFirst (formHead (str "/") (str "bound")) formFront
    let mid := behindCut (formHead (str "/") (str "bound")) formFront
    let label := labelOf (str "bound")
    ((httpParseHead (formHead (str "/") (str "bound")).length { loc := { state := 4 } }).run
        (Memory.ofList (formHead (str "/") (str "bound") ++ formFront)) = some info ∧
      parseBody info formFront = some mid) ∧
    (info.logic.contentType = .multiform ∧ formLabelText info = some label) ∧
    formTurns label formFront (httpBodyCount formFront info) [] = some (mid, str "a", false) ∧
    (httpBodyCount (formFront ++ formBack) info).loc.cacheBuf = (httpBodyCount formFront info).loc.cacheBuf ∧
    (httpBodyCount formBack mid).loc.cacheBuf = mid.loc.cacheBuf ∧
    httpParseFormLoop label formBack (httpBodyCount formBack mid) (str "a") =
      httpParseFormLoop label formBack (httpBodyCount formBack mid) [] ∧
    SameEnd formFront formBack info mid := by
  decide +kernel

theorem form_unseen : CutUnseen (formHead (str "/") (str "bound")) (formFront ++ formBack)
    [formHead (str "/") (str "bound") ++ formFront, formBack] := by
  obtain ⟨⟨hhead, hbody⟩, ⟨htype, hlabel⟩, hturns, hlines, hcached, hnamed, hended⟩ := form_facts
  exact Or.inr ⟨formFront, formBack, _, _, rfl, rfl, by decide, by decide +kernel, ⟨hhead, hbody⟩,
    bodyUncut_form htype hlabel ⟨hturns, hlines, hcached, hnamed, hended⟩⟩

def postBody : List Byte := str "a=1"

/-- What the two are in one packet. -/
def getWhole : Http := (parsePackets Http.zero [getHead ++ postBody]).getD {}

theorem getWhole_run : parsePackets Http.zero [getHead ++ postBody] = some getWhole := by
  have h : (parsePackets Http.zero [getHead ++ postBody]).isSome = true := by decide +kernel
  obtain ⟨r, hr⟩ := Option.isSome_iff_exists.mp h
  rw [getWhole, hr]
  rfl

end WafProxy
