import WafProxy.Http.Leftover
import WafProxy.Http.Packets

/-
  Requests one after the other — a connection that is kept alive

  A packet behind a complete request is first given to `http_parse_body` as a
  whole, then searched for a head, and `http_init` clears a part of `http_t`
  only. This file

   1. follows what a request that is neither chunked nor a form leaves
      (`parseBody_plain`, `httpParseHead_closed`);
   2. says when nothing of that shows in the next request (`Unleft`);
   3. proves for runs that the record of each request is then the one it has
      alone (`keep_alive`).
-/

namespace WafProxy
open Lib Access

/-! ## What a request leaves -/

/-- Requests never mark a connection closed. -/
def Http.setOpen (info : Http) : Http := { info with logic := { info.logic with isClosed := false } }

theorem setOpen_outside : OutsideType Http.setOpen where
  str _ := rfl
  arg _ := rfl
  httpInt _ := rfl
  tmpFlag _ := rfl
  setStr _ _ := rfl
  setArg _ _ _ := rfl
  setInt _ _ := rfl
  setTmp _ _ := rfl
  setChunked _ _ := rfl
  setClosed _ := rfl
  type _ := rfl
  dashes _ := rfl
  setType _ _ := rfl
  setDashes _ _ := rfl

theorem httpParseHeadLine_open (line : HeadLine) (info : Http) :
    Maps Http.setOpen (httpParseHeadLine info line) (httpParseHeadLine info.setOpen line) := by
  by_cases hnum : line.num = 0
  · unfold httpParseHeadLine
    apply maps_then
    intro begin
    have hline : Maps Http.setOpen
        (httpParseLine { info with tmpFlag := line.flag } begin line.split line.stop line.num)
        (httpParseLine { info.setOpen with tmpFlag := line.flag } begin line.split line.stop
          line.num) := by
      unfold httpParseLine
      rw [if_pos hnum, if_pos hnum]
      exact @parseMethod_outside _ setOpen_outside.toOutside (fun _ _ => rfl) begin
        (line.stop - begin) { info with tmpFlag := line.flag }
    refine hline.bind ?_
    intro r
    exact @maps_pure _ _ _ Http.setOpen (r.withInt fun i => { i with headerLineNum := i.headerLineNum + 1 })
  · exact httpParseHeadLine_outside setOpen_outside hnum

theorem httpParseHeadLoop_open (l : List Byte) : ∀ {data : Int} {s : HeadScan} {info : Http},
    Maps Http.setOpen (httpParseHeadLoop l data s info) (httpParseHeadLoop l data s info.setOpen) := by
  induction l with
  | nil =>
    intro data s info
    exact maps_pure _
  | cons c l ih =>
    intro data s info
    unfold httpParseHeadLoop
    split
    · exact ih
    · exact (httpParseHeadLine_open _ info).bind fun r => ih

/-- A head closes nothing. -/
theorem httpParseHead_closed {dataLen : Nat} {info : Http} (h : info.logic.isClosed = false) :
    (httpParseHead dataLen info).Ensures fun r => r.logic.isClosed = false := by
  apply ensures_then
  intro data
  have hloop : (httpParseHeadLoop data 0 {} ((httpInit info).withInt fun i =>
      { i with headerLen := i.headerLen + dataLen })).Ensures fun r => r.logic.isClosed = false := by
    intro m r hr
    have hsame : ((httpInit info).withInt fun i => { i with headerLen := i.headerLen + dataLen }).setOpen =
        (httpInit info).withInt fun i => { i with headerLen := i.headerLen + dataLen } := by
      obtain ⟨loc, ⟨state, method, type, chunked, closed⟩, httpInt, texts, arg, file, flag⟩ := info
      dsimp only at h
      subst h
      rfl
    have hmap := @httpParseHeadLoop_open data 0 {} ((httpInit info).withInt fun i =>
      { i with headerLen := i.headerLen + dataLen }) m
    rw [hsame, hr, Option.map_some] at hmap
    rw [Option.some.inj hmap]
    rfl
  refine hloop.bind ?_
  intro r hr
  exact ensures_pure hr

theorem httpBodyCount_plainLoc {segment : List Byte} {info : Http} (h : info.logic.isChunked = false) :
    (httpBodyCount segment info).loc =
      info.loc.setLeft (toInt32 (info.loc.unRecvContentLen - segment.length)) ∧
    (httpBodyCount segment info).file = info.file := by
  unfold httpBodyCount Http.withInt
  simp [h, httpSetState, HttpLocal.setLeft]

/-- The framing of a body changes the state only. -/
theorem httpBodyCount_logic (segment : List Byte) (info : Http) :
    (httpBodyCount segment info).logic =
      { info.logic with state := (httpBodyCount segment info).logic.state } := by
  unfold httpBodyCount recvChunk httpSetState
  dsimp only
  split
  · split <;> rfl
  · rfl

theorem parseBody_logic {segment : List Byte} {info r : Http} (h : parseBody info segment = some r) :
    r.logic = { info.logic with state := r.logic.state } := by
  by_cases hnil : segment = []
  · subst hnil
    cases h
    rfl
  · rw [(parseBody_frame hnil h).logic]
    exact httpBodyCount_logic segment info

/-- **A body that is neither chunked nor a form leaves a counter.** -/
theorem parseBody_plain {segment : List Byte} {info r : Http} (hne : segment ≠ [])
    (hchunked : info.logic.isChunked = false) (htype : info.logic.contentType ≠ .multiform)
    (h : parseBody info segment = some r) :
    r.loc = info.loc.setLeft (toInt32 (info.loc.unRecvContentLen - segment.length)) ∧
    r.file = info.file := by
  have hpos := List.length_pos_iff.mpr hne
  obtain ⟨hloc, hfile⟩ := @httpBodyCount_plainLoc segment _ hchunked
  have htype' := (httpBodyCount_arg segment info).2
  unfold parseBody httpParseBody at h
  rw [if_neg (by omega), run_bind, Int.toNat_natCast, slice_whole, Option.bind_some] at h
  unfold httpParseBodyArgs at h
  rw [if_neg (by omega), htype'] at h
  have hargs : ∀ q, r = { httpBodyCount segment info with arg := q, httpInt := r.httpInt } →
      r.loc = info.loc.setLeft (toInt32 (info.loc.unRecvContentLen - segment.length)) ∧
      r.file = info.file := by
    intro q hq
    rw [hq]
    exact ⟨hloc, hfile⟩
  split at h
  · next hmulti => exact absurd hmulti htype
  · cases h
    exact ⟨hloc, hfile⟩
  · exact hargs r.arg (httpParseArgs_frame _ _ _ _ _ h)

/-! ## One request -/

/-- Nothing that earlier requests left shows in `q`. -/
structure Unleft (info : Http) (q : Request) : Prop where
  isChunked : info.logic.isChunked = false
  dashes : info.loc.boundaryCnt = 0
  contentType : info.logic.contentType = .na ∨
    (info.logic.contentType ≠ .multiform ∧ q.HasContentType)
  counter : -2 ^ 31 ≤ info.loc.unRecvContentLen - q.packet.length - q.body.length

/-- What holds between two requests. -/
structure Between (info : Http) : Prop where
  state : info.loc.state = 0 ∨ info.loc.state = 4
  counter : info.loc.unRecvContentLen ≤ 0
  onlyType : info.logic.isChunked = false → info.logic.contentType ≠ .multiform →
    info.loc.boundaryCnt = 0 → OnlyType info

/-- The two have recorded the same message, and are equally far with it. -/
structure SameMessage (a b : Http) : Prop where
  method : a.logic.method = b.logic.method
  str : a.str = b.str
  httpInt : a.httpInt = b.httpInt
  contentType : a.logic.contentType = b.logic.contentType
  isChunked : a.logic.isChunked = b.logic.isChunked
  dashes : a.loc.boundaryCnt = b.loc.boundaryCnt
  args : a.arg = b.arg
  files : a.file = b.file
  state : a.logic.state = b.logic.state

theorem Request.packet_ne (q : Request) : q.packet ≠ [] := by
  intro h
  unfold Request.packet Request.head at h
  exact q.line.text_ne (List.append_eq_nil_iff.mp (List.append_eq_nil_iff.mp h).1).1

/-- The head and the body of a request that has been found. -/
def parseFound (q : Request) (info : Http) : Option (Int × Http) :=
  ((httpParseHead q.head.length { info with loc := { info.loc with state := 4 } }).run
    (Memory.ofList q.packet)).bind fun info => (parseBody info q.body).map fun r => (0, r)

/-- A request behind another one is a body first. -/
theorem parsePacket_again {q : Request} {info : Http} {out : Int × Http}
    (h4 : info.loc.state = 4) (h : parsePacket info q.packet = some out) :
    ∃ first, parseBody info q.packet = some first ∧ parseFound q first = some out := by
  have hhead : ∀ body, sHttpParse (q.head ++ body) 0 = some (q.head.length, 4) :=
    fun body => sHttpParse_head q.isHead
  unfold parsePacket doHttpParseTest at h
  dsimp only at h
  rw [if_pos h4] at h
  obtain ⟨first, hfirst, h⟩ := Option.bind_eq_some_iff.mp h
  refine ⟨first, hfirst, ?_⟩
  rw [run_bind, slice_whole, Option.bind_some, run_bind, run_ofOption] at h
  have hstate : first.loc.state = 4 := by
    rw [httpParseBody_locState _ _ _ _ hfirst]
    exact h4
  obtain ⟨found, hfound, h⟩ := Option.bind_eq_some_iff.mp h
  rw [hstate] at hfound
  have hzero := (sHttpParse_afterHead q.packet_ne hfound).2
  rw [Request.packet, hhead] at hzero
  cases hzero
  dsimp only at h
  rw [if_neg (by decide), if_pos rfl, run_bind] at h
  obtain ⟨info', hinfo', h⟩ := Option.bind_eq_some_iff.mp h
  rw [run_bind, run_atPtr] at h
  obtain ⟨r, hr, h⟩ := Option.bind_eq_some_iff.mp h
  cases h
  have hlen : (q.packet.length : Int) - q.head.length = q.body.length := by
    rw [Request.packet, List.length_append]
    omega
  rw [hlen, Request.packet, Memory.above_ofList] at hr
  unfold parseFound
  rw [hinfo', Option.bind_some, parseBody, hr]
  rfl

theorem parsePacket_fresh {q : Request} {info : Http} (h0 : info.loc.state = 0) :
    parsePacket info q.packet = parseFound q info := by
  have h := @parsePacket_head info q.head q.body q.isHead h0
  exact h

/-- What a request leaves, alone. -/
theorem parseFound_between {q : Request} {info r : Http} (h : OnlyType info)
    (hrun : parseFound q info = some (0, r)) : r.loc.state = 4 ∧
      (r.logic.isChunked = false → r.logic.contentType ≠ .multiform → r.loc.boundaryCnt = 0 →
        OnlyType r) := by
  obtain ⟨headed, hheaded, hrun⟩ := Option.bind_eq_some_iff.mp hrun
  obtain ⟨r', hbody, hrun⟩ := Option.map_eq_some_iff.mp hrun
  cases hrun
  obtain ⟨hloc, hfile, -⟩ := httpParseHead_frame _ _ hheaded
  have hclosed := @httpParseHead_closed _ { info with loc := { info.loc with state := 4 } } h.isClosed
    _ _ hheaded
  have hstate : r.loc.state = 4 := by
    rw [httpParseBody_locState _ _ _ _ hbody, hloc]
  refine ⟨hstate, ?_⟩
  intro hchunked htype hdashes
  have hlogic := parseBody_logic hbody
  have hchunked' : headed.logic.isChunked = false := by
    rw [hlogic] at hchunked
    exact hchunked
  have htype' : headed.logic.contentType ≠ .multiform := by
    rw [hlogic] at htype
    exact htype
  have hclosed' : r.logic.isClosed = false := by
    rw [hlogic]
    exact hclosed
  have hbehind : ∃ left, r.loc = headed.loc.setLeft left ∧ r.file = headed.file := by
    by_cases hnil : q.body = []
    · rw [hnil] at hbody
      cases hbody
      exact ⟨r.loc.unRecvContentLen, rfl, rfl⟩
    · exact ⟨_, parseBody_plain hnil hchunked' htype' hbody⟩
  obtain ⟨left, hrloc, hrfile⟩ := hbehind
  have hcnt : headed.loc.boundaryCnt = 0 := by
    rw [hrloc] at hdashes
    exact hdashes
  constructor
  · rw [hrloc, hloc, hcnt, h.loc]
    rfl
  · exact hchunked
  · exact hclosed'
  · rw [hrfile, hfile, h.file]

/-- A request over what is left is the request alone, but for the counter. -/
theorem parseFound_over {q : Request} {info : Http} (h : OnlyType info)
    (hcounter : info.loc.unRecvContentLen ≤ 0)
    (hwrap : -2 ^ 31 ≤ info.loc.unRecvContentLen - q.body.length)
    (htype : info.logic.contentType = .na ∨ q.HasContentType) :
    ∃ left ≤ 0, parseFound q info = (parseFound q Http.zero).map fun out => (out.1, out.2.setLeft left) := by
  have hover := @httpParseHead_over q { info with loc := { info.loc with state := 4 } }
    ⟨by rw [h.loc], h.isChunked, h.isClosed, h.file⟩ rfl htype
  unfold parseFound
  rw [hover]
  have hstart : ({ Http.zero with loc := { Http.zero.loc with state := 4 } } : Http) = headStart := rfl
  rw [hstart]
  cases hhead : (httpParseHead q.head.length headStart).run (Memory.ofList q.packet) with
  | none => exact ⟨0, Int.le_refl 0, rfl⟩
  | some headed =>
    have hzero : headed.loc.unRecvContentLen = 0 := by
      rw [(httpParseHead_frame _ _ hhead).1]
      rfl
    obtain ⟨left, hle, hbody⟩ := @parseBody_left info.loc.unRecvContentLen headed q.body hzero
      hcounter hwrap
    refine ⟨left, hle, ?_⟩
    rw [Option.map_some, Option.bind_some, Option.bind_some, hbody, Option.map_map, Option.map_map]
    rfl

/-- **One request**, after others that left nothing that shows in it. -/
theorem keepAlive_step {q : Request} {info r : Http} {ret : Int} (hbetween : Between info)
    (hunleft : Unleft info q) (hrun : parsePacket info q.packet = some (ret, r)) :
    (∃ alone, parsePacket Http.zero q.packet = some (ret, alone) ∧ SameMessage r alone) ∧
      Between r := by
  have hmulti : info.logic.contentType ≠ .multiform := by
    rcases hunleft.contentType with hna | h
    · rw [hna]
      decide
    · exact h.1
  have hpack := List.length_pos_iff.mpr q.packet_ne
  have honly := hbetween.onlyType hunleft.isChunked hmulti hunleft.dashes
  have htype : info.logic.contentType = .na ∨ q.HasContentType := hunleft.contentType.imp_right (·.2)
  have hcounter := hbetween.counter
  have hwrap := hunleft.counter
  -- what `http_parse_body` makes of the packet leaves a counter only
  have hfound : ∃ left ≤ 0, some (ret, r) =
      (parseFound q Http.zero).map fun out => (out.1, out.2.setLeft left) := by
    rcases hbetween.state with h0 | h4
    · rw [← hrun, parsePacket_fresh h0]
      exact parseFound_over honly hcounter (by omega) htype
    · obtain ⟨first, hfirst, hout⟩ := parsePacket_again h4 hrun
      obtain ⟨hloc, hfile⟩ := parseBody_plain q.packet_ne hunleft.isChunked hmulti hfirst
      have hlogic := parseBody_logic hfirst
      have hsmall : toInt32 (info.loc.unRecvContentLen - q.packet.length) =
          info.loc.unRecvContentLen - q.packet.length := by
        unfold toInt32
        rw [Int.bmod_def]
        split <;> omega
      rw [hsmall] at hloc
      have hleft : first.loc.unRecvContentLen = info.loc.unRecvContentLen - q.packet.length := by
        rw [hloc]
        rfl
      have honly' : OnlyType first := by
        constructor
        · rw [hloc, honly.loc]
          rfl
        · rw [hlogic]
          exact honly.isChunked
        · rw [hlogic]
          exact honly.isClosed
        · rw [hfile]
          exact honly.file
      rw [← hout]
      apply parseFound_over honly'
      · rw [hleft]
        omega
      · rw [hleft]
        omega
      · rw [hlogic]
        exact htype
  obtain ⟨left, hle, hmap⟩ := hfound
  obtain ⟨⟨ret', alone⟩, halone, hout⟩ := Option.map_eq_some_iff.mp hmap.symm
  cases hout
  have hret : ret' = 0 := by
    obtain ⟨headed, -, hbody⟩ := Option.bind_eq_some_iff.mp halone
    obtain ⟨r', -, hpair⟩ := Option.map_eq_some_iff.mp hbody
    cases hpair
    rfl
  subst hret
  obtain ⟨hstate, hbehind⟩ := parseFound_between onlyType_zero halone
  refine ⟨⟨alone, ?_, rfl, rfl, rfl, rfl, rfl, rfl, rfl, rfl, rfl⟩, ?_⟩
  · rw [parsePacket_fresh rfl]
    exact halone
  · refine ⟨Or.inr hstate, hle, ?_⟩
    intro hchunked htype' hdashes
    obtain ⟨hloc, h1, h2, h3⟩ := hbehind hchunked htype' hdashes
    refine ⟨?_, h1, h2, h3⟩
    show alone.loc.setLeft left = _
    rw [hloc]
    rfl

/-! ## Runs -/

/-- The states after each of the requests, each in one packet. -/
def parseRequests : Http → List Request → Option (List Http)
  | _, [] => some []
  | info, q :: qs =>
    (parsePacket info q.packet).bind fun out => (parseRequests out.2 qs).map (out.2 :: ·)

/-- **Requests that leave nothing behind do not influence each other**: in a run
whose steps all start so, each request is recorded as it is alone. -/
theorem keepAlive_run (qs : List Request) : ∀ {info : Http} {states : List Http}, Between info →
    parseRequests info qs = some states →
    (∀ (i : Nat) (q : Request) (before : Http), qs[i]? = some q →
      (info :: states)[i]? = some before → Unleft before q) →
    ∀ (i : Nat) (q : Request) (after : Http), qs[i]? = some q → states[i]? = some after →
      ∃ ret alone, parsePacket Http.zero q.packet = some (ret, alone) ∧ SameMessage after alone := by
  induction qs with
  | nil =>
    intro info states _ _ _ i q after hq
    simp at hq
  | cons q qs ih =>
    intro info states hbetween hrun hsteps i q' after hq hafter
    obtain ⟨⟨ret, r⟩, hone, hrun⟩ := Option.bind_eq_some_iff.mp hrun
    obtain ⟨rest, hrest, hstates⟩ := Option.map_eq_some_iff.mp hrun
    subst hstates
    obtain ⟨⟨alone, halone, hsame⟩, hbetween'⟩ :=
      keepAlive_step hbetween (hsteps 0 q info rfl rfl) hone
    cases i with
    | zero =>
      cases hq
      cases hafter
      exact ⟨ret, alone, halone, hsame⟩
    | succ i =>
      exact ih hbetween' hrest (fun j x before hx hbefore => hsteps (j + 1) x before hx hbefore)
        i q' after hq hafter

theorem between_zero : Between Http.zero := ⟨Or.inl rfl, Int.le_refl 0, fun _ _ _ => onlyType_zero⟩

/-- **A kept connection**, from a zeroed parser. -/
theorem keep_alive {qs : List Request} {states : List Http}
    (hrun : parseRequests Http.zero qs = some states)
    (hsteps : ∀ (i : Nat) (q : Request) (before : Http), qs[i]? = some q →
      (Http.zero :: states)[i]? = some before → Unleft before q) (i : Nat) (q : Request) (after : Http)
        (hq : qs[i]? = some q)
    (hafter : states[i]? = some after) :
    ∃ ret alone, parsePacket Http.zero q.packet = some (ret, alone) ∧ SameMessage after alone :=
  keepAlive_run qs between_zero hrun hsteps i q after hq hafter

/-! ## Two requests -/

/-- The line `POST / HTTP/1.1`. -/
def postLine : RequestLine where
  method := str "POST"
  path := str "/"
  query := none
  version := str "HTTP/1.1"
  method_ne := by decide
  method_token := by decide +kernel
  path_plain := slash_plain
  query_plain := by decide +kernel
  version_plain := http11_plain
  version_length := http11_length

def formPost (body : List Byte) : Request where
  line := postLine
  headers := str "Content-Type: application/x-www-form-urlencoded\r\n\r\n"
  body := body
  isHead := by decide +kernel

def chunkedPost : Request where
  line := postLine
  headers := str "Transfer-Encoding: chunked\r\n\r\n"
  body := str "0\r\n\r\n"
  isHead := by decide +kernel

def plainGet : Request where
  line := getLine [] (by decide)
  headers := str "\r\n"
  body := []
  isHead := by decide +kernel

/-- The states after the requests. -/
def statesAfter (qs : List Request) : List Http := (parseRequests Http.zero qs).getD []

theorem statesAfter_run {qs : List Request} (h : (parseRequests Http.zero qs).isSome = true) :
    parseRequests Http.zero qs = some (statesAfter qs) := by
  obtain ⟨states, hstates⟩ := Option.isSome_iff_exists.mp h
  rw [statesAfter, hstates]
  rfl

def stateAfter (qs : List Request) (i : Nat) : Http := (statesAfter qs)[i]?.getD Http.zero

/-- Two forms, one behind the other. -/
def twoForms : List Request := [formPost (str "a=1"), formPost (str "b=2")]

/-- What the first form leaves besides its texts. -/
theorem twoForms_first :
    (stateAfter twoForms 0).logic = { state := .none, method := .post, contentType := .formenc } ∧
    (stateAfter twoForms 0).loc = { unRecvContentLen := -3, state := 4 } := by
  decide +kernel

theorem twoForms_unleft (i : Nat) (q : Request) (before : Http) (hq : twoForms[i]? = some q)
    (hbefore : (Http.zero :: statesAfter twoForms)[i]? = some before) : Unleft before q := by
  cases i with
  | zero =>
    rw [twoForms, List.getElem?_cons_zero] at hq
    rw [List.getElem?_cons_zero] at hbefore
    rw [← Option.some.inj hq, ← Option.some.inj hbefore]
    exact ⟨rfl, rfl, Or.inl rfl, by decide +kernel⟩
  | succ i =>
    cases i with
    | zero =>
      rw [twoForms, List.getElem?_cons_succ, List.getElem?_cons_zero] at hq
      have hstate : before = stateAfter twoForms 0 := by
        rw [List.getElem?_cons_succ] at hbefore
        rw [stateAfter, hbefore]
        rfl
      obtain ⟨hlogic, hloc⟩ := twoForms_first
      rw [← Option.some.inj hq, hstate]
      refine ⟨by rw [hlogic], by rw [hloc], Or.inr ⟨by rw [hlogic]; decide, ?_⟩, ?_⟩
      · unfold Request.HasContentType
        decide +kernel
      · rw [hloc]
        decide +kernel
    | succ i => simp [twoForms] at hq

theorem keep_alive_forms : ∃ ret alone,
    parsePacket Http.zero (formPost (str "b=2")).packet = some (ret, alone) ∧
      SameMessage (stateAfter twoForms 1) alone :=
  keep_alive (statesAfter_run (by decide +kernel)) twoForms_unleft 1 (formPost (str "b=2"))
    (stateAfter twoForms 1) rfl (by decide +kernel)

/-- Behind a chunked request every request counts as chunked. -/
theorem chunk_flag_left :
    parseRequests Http.zero [chunkedPost, plainGet] = some (statesAfter [chunkedPost, plainGet]) ∧
    (stateAfter [chunkedPost, plainGet] 1).logic.isChunked = true ∧
    ¬ ∃ ret alone, parsePacket Http.zero plainGet.packet = some (ret, alone) ∧
      SameMessage (stateAfter [chunkedPost, plainGet] 1) alone := by
  have hflag : (stateAfter [chunkedPost, plainGet] 1).logic.isChunked = true := by decide +kernel
  refine ⟨statesAfter_run (by decide +kernel), hflag, ?_⟩
  intro h
  obtain ⟨ret, alone, halone, hsame⟩ := h
  have hclear : (parsePacket Http.zero plainGet.packet).map (fun out => out.2.logic.isChunked) =
      some false := by decide +kernel
  rw [halone, Option.map_some, ← hsame.isChunked, hflag] at hclear
  cases hclear

end WafProxy
