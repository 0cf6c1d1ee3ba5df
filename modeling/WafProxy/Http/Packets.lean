import WafProxy.Http.HeadEnd

/-
  A request in packets — which bytes reach which parser

  `s_http_parse` keeps its state between two packets, so a head may end in a
  later packet than it starts in; but `http_parse_head` and `http_parse_body`
  are given bytes of the packet at hand, and the state that says that the head
  is over is lost when the next packet is searched for CRLFCRLF as well. This
  file

   1. writes down, beside a run, the bytes each call is given
      (`parsePacketsLog`), by their places in the request;
   2. computes what one packet adds (`parsePacketLog_calls`);
   3. finds the cuts for which every byte is given once (`eachOnce_iff`).

  Correspondence (C ↔ Lean):
    `do_http_parse_test`, with its calls  ↔ `doHttpParseTestLog`
    a call of `http_parse_head`, …        ↔ `ParseCall`
-/

namespace WafProxy
open Lib

/-! ## The calls of a run -/

inductive CallKind where
  | head
  | body
  deriving DecidableEq, Repr

/-- A call of `http_parse_head` or `http_parse_body`: the place of its first
byte in the request, and the number of bytes. -/
structure ParseCall where
  kind : CallKind
  start : Nat
  len : Nat
  deriving DecidableEq, Repr

/-- The first call of `http_parse_body`, for a packet behind a head. -/
def bodyCall (base len : Nat) (info : Http) : Packet.Read (Http × List ParseCall) :=
  if info.loc.state = 4 then do
    let info ← httpParseBody len info
    pure (info, [⟨.body, base, len⟩])
  else pure (info, [])

/-- The search for CRLFCRLF, and the two calls behind it. -/
def headCalls (base len : Nat) (info : Http) : Packet.Read (Http × List ParseCall) := do
  let buf ← Access.slice 0 len
  let (headLen, state) ← Access.ofOption (sHttpParse buf info.loc.state)
  let info := { info with loc := { info.loc with state := state } }
  if state < 4 then pure (info, [])
  else if state = 4 then do
    let info ← httpParseHead headLen info
    let info ← Access.atPtr headLen (httpParseBody ((len : Int) - headLen) info)
    pure (info, [⟨.head, base, headLen⟩, ⟨.body, base + headLen, len - headLen⟩])
  else pure (info, [])

/-- `do_http_parse_test` on the bytes from place `base` on, with its calls. -/
def doHttpParseTestLog (base len : Nat) (info : Http) : Packet.Read (Http × List ParseCall) := do
  let first ← bodyCall base len info
  let rest ← headCalls base len first.1
  pure (rest.1, first.2 ++ rest.2)

def parsePacketLog (base : Nat) (info : Http) (packet : List Byte) : Option (Http × List ParseCall) :=
  (doHttpParseTestLog base packet.length info).run (Memory.ofList packet)

/-- The packets one after the other, with all the calls. -/
def parsePacketsLog : Nat → Http → List (List Byte) → Option (Http × List ParseCall)
  | _, info, [] => some (info, [])
  | base, info, packet :: packets =>
    (parsePacketLog base info packet).bind fun out =>
      (parsePacketsLog (base + packet.length) out.1 packets).map fun rest =>
        (rest.1, out.2 ++ rest.2)

/-- What a packet adds to the calls, from the state before and the one behind. -/
def packetCalls (base len before headLen state : Nat) : List ParseCall :=
  (if before = 4 then [ParseCall.mk .body base len] else []) ++
    if state = 4 then [⟨.head, base, headLen⟩, ⟨.body, base + headLen, len - headLen⟩] else []

/-! ## One packet -/

theorem httpParseBody_locState (len : Int) (info : Http) :
    (httpParseBody len info).Ensures fun r => r.loc.state = info.loc.state := by
  unfold httpParseBody
  split
  · exact Access.ensures_pure rfl
  · apply Access.ensures_then
    intro data
    refine httpParseBodyArgs_frame.mono ?_
    intro r hr
    rw [hr.locState, httpBodyCount_locState]

theorem headCalls_spec {base : Nat} {info r : Http} {packet : List Byte} {log : List ParseCall}
    (h : (headCalls base packet.length info).run (Memory.ofList packet) = some (r, log)) :
    ∃ headLen, sHttpParse packet info.loc.state = some (headLen, r.loc.state) ∧
      log = if r.loc.state = 4 then
        [⟨.head, base, headLen⟩, ⟨.body, base + headLen, packet.length - headLen⟩] else [] := by
  obtain ⟨buf, hbuf, h⟩ := Option.bind_eq_some_iff.mp h
  rw [slice_whole] at hbuf
  cases hbuf
  obtain ⟨⟨headLen, state⟩, hstate, h⟩ := Option.bind_eq_some_iff.mp h
  rw [Access.run_ofOption] at hstate
  refine ⟨headLen, ?_⟩
  dsimp only at h
  split at h
  · next hlt =>
    cases h
    rw [if_neg (by show ¬ state = 4; omega)]
    exact ⟨hstate, rfl⟩
  · split at h
    · next h4 =>
      obtain ⟨info', hhead, h⟩ := Option.bind_eq_some_iff.mp h
      obtain ⟨info'', hbody, h⟩ := Option.bind_eq_some_iff.mp h
      cases h
      have hr : r.loc.state = state := by
        rw [(httpParseBody_locState _ _).atPtr _ _ _ hbody, (httpParseHead_frame _ _ hhead).1]
      rw [hr, if_pos h4]
      exact ⟨hstate, rfl⟩
    · next h4 =>
      cases h
      rw [if_neg h4]
      exact ⟨hstate, rfl⟩

/-- **The calls of one packet.** -/
theorem parsePacketLog_calls {base : Nat} {info r : Http} {packet : List Byte} {log : List ParseCall}
    (h : parsePacketLog base info packet = some (r, log)) :
    ∃ headLen, sHttpParse packet info.loc.state = some (headLen, r.loc.state) ∧
      log = packetCalls base packet.length info.loc.state headLen r.loc.state := by
  obtain ⟨first, hfirst, h⟩ := Option.bind_eq_some_iff.mp h
  obtain ⟨rest, hrest, h⟩ := Option.bind_eq_some_iff.mp h
  cases h
  obtain ⟨headLen, hparse, hlog⟩ := headCalls_spec hrest
  rw [hlog]
  unfold packetCalls
  unfold bodyCall at hfirst
  split at hfirst
  · next h4 =>
    obtain ⟨info', hbody, hfirst⟩ := Option.bind_eq_some_iff.mp hfirst
    cases hfirst
    have hsame := httpParseBody_locState _ _ _ _ hbody
    rw [hsame] at hparse
    rw [if_pos h4]
    exact ⟨headLen, hparse, rfl⟩
  · next h4 =>
    cases hfirst
    rw [if_neg h4]
    exact ⟨headLen, hparse, rfl⟩

/-- The log is beside the run. -/
theorem parsePacketLog_fst (base : Nat) (info : Http) (packet : List Byte) :
    (parsePacketLog base info packet).map Prod.fst = (parsePacket info packet).map Prod.snd := by
  have hbehind : ∀ (info : Http) (m : Memory Byte),
      ((headCalls base packet.length info).run m).map Prod.fst =
      ((do
        let buf ← Access.slice 0 packet.length
        let (headLen, state) ← Access.ofOption (sHttpParse buf info.loc.state)
        let info := { info with loc := { info.loc with state := state } }
        if state < 4 then pure (-1, info)
        else if state = 4 then
          let info ← httpParseHead headLen info
          let info ← Access.atPtr headLen (httpParseBody ((packet.length : Int) - headLen) info)
          pure (0, info)
        else pure (0, info) : Packet.Read (Int × Http)).run m).map Prod.snd := by
    intro info m
    unfold headCalls
    rw [Access.run_bind, Access.run_bind]
    cases (Access.slice 0 packet.length).run m with
    | none => rfl
    | some buf =>
      rw [Option.bind_some, Option.bind_some, Access.run_bind, Access.run_bind, Access.run_ofOption]
      cases sHttpParse buf info.loc.state with
      | none => rfl
      | some out =>
        obtain ⟨headLen, state⟩ := out
        rw [Option.bind_some, Option.bind_some]
        dsimp only
        split
        · rfl
        · split
          · rw [Access.run_bind, Access.run_bind]
            cases (httpParseHead headLen { info with loc := { info.loc with state := state } }).run m with
            | none => rfl
            | some info' =>
              rw [Option.bind_some, Option.bind_some, Access.run_bind, Access.run_bind]
              cases (Access.atPtr (headLen : Int)
                (httpParseBody ((packet.length : Int) - headLen) info')).run m with
              | none => rfl
              | some r => rfl
          · rfl
  unfold parsePacketLog doHttpParseTestLog parsePacket doHttpParseTest bodyCall
  by_cases h4 : info.loc.state = 4
  · rw [if_pos h4]
    dsimp only
    rw [if_pos h4, Access.run_bind, Access.run_bind, Access.run_bind]
    cases (httpParseBody packet.length info).run (Memory.ofList packet) with
    | none => rfl
    | some info' =>
      rw [Option.bind_some, Option.bind_some, ← hbehind info', Access.run_pure, Option.bind_some,
        Access.run_bind]
      cases (headCalls base packet.length info').run (Memory.ofList packet) with
      | none => rfl
      | some rest => rfl
  · rw [if_neg h4]
    dsimp only
    rw [if_neg h4, Access.run_bind, Access.run_bind, Access.run_pure, Access.run_pure,
      Option.bind_some, Option.bind_some, ← hbehind info, Access.run_bind]
    cases (headCalls base packet.length info).run (Memory.ofList packet) with
    | none => rfl
    | some rest => rfl

/-! ## The search for CRLFCRLF -/

theorem sHttpParseByte_afterHead {c : Byte} (hc : c ≠ 0) : sHttpParseByte 4 c = sHttpParseByte 0 c := by
  have h0 : (0 : Byte) ≠ c := Ne.symm hc
  by_cases hr : c = 13
  · subst hr
    decide
  · have hr' : (13 : Byte) ≠ c := Ne.symm hr
    simp [sHttpParseByte, jumpBuf, ch, h0, hr']

/-- Behind a head the search starts anew, unless it meets a NUL there. -/
theorem sHttpParse_afterHead {packet : List Byte} (hne : packet ≠ []) {out : Nat × Nat}
    (h : sHttpParse packet 4 = some out) :
    packet.head? ≠ some 0 ∧ sHttpParse packet 0 = some out := by
  obtain ⟨c, data, rfl⟩ := List.exists_cons_of_ne_nil hne
  by_cases hc : c = 0
  · -- the index 5 of `jump_buf`
    subst hc
    have hnul : sHttpParseByte 4 0 = none := by decide
    rw [sHttpParse, hnul] at h
    cases h
  · refine ⟨by simpa using hc, ?_⟩
    rw [sHttpParse, sHttpParseByte_afterHead hc] at h
    rw [sHttpParse]
    exact h

/-- A text with a CRLFCRLF starts with a head. -/
theorem exists_isHead (l : List Byte) (h : headMark <:+: l) : ∃ head rest, IsHead head ∧ l = head ++ rest := by
  induction l using List.reverseRecOn with
  | nil =>
    have hlen := h.length_le
    simp [headMark] at hlen
  | append_singleton l c ih =>
    by_cases hl : headMark <:+: l
    · obtain ⟨head, rest, hhead, heq⟩ := ih hl
      exact ⟨head, rest ++ [c], hhead, by rw [heq, List.append_assoc]⟩
    · have hend : headMark <:+ l ++ [c] := by
        rcases List.infix_concat_iff.mp h with hsuf | hin
        · exact hsuf
        · exact absurd hin hl
      refine ⟨l ++ [c], [], ⟨hend, ?_⟩, by simp⟩
      intro p hp hmark
      rcases List.prefix_concat_iff.mp hp with heq | hpl
      · exact heq
      · exact absurd (hmark.isInfix.trans hpl.isInfix) hl

/-- The search ends in state 4 exactly when it meets a CRLFCRLF. -/
theorem sHttpParse_four {l : List Byte} {k state : Nat} (h : sHttpParse l 0 = some (k, state)) :
    state = 4 ↔ headMark <:+: l := by
  by_cases hmark : headMark <:+: l
  · obtain ⟨head, rest, hhead, rfl⟩ := exists_isHead l hmark
    rw [sHttpParse_head hhead] at h
    cases h
    exact ⟨fun _ => hmark, fun _ => rfl⟩
  · have hopen := @sHttpParse_open l [] (fun q hq hsuf => hmark (hsuf.isInfix.trans hq.isInfix))
    rw [List.reverse_nil, tailState_nil, List.nil_append, h] at hopen
    cases hopen
    constructor
    · intro h4
      exact absurd (tailState_four.mp h4).isInfix hmark
    · intro hin
      exact absurd hin hmark

theorem sHttpParse_pos {packet : List Byte} (hne : packet ≠ []) {state k state' : Nat}
    (h : sHttpParse packet state = some (k, state')) : 0 < k := by
  obtain ⟨c, data, rfl⟩ := List.exists_cons_of_ne_nil hne
  obtain ⟨s1, -, h⟩ := Option.bind_eq_some_iff.mp h
  dsimp only at h
  split at h
  · cases h
    exact Nat.one_pos
  · obtain ⟨⟨n, s2⟩, -, h⟩ := Option.bind_eq_some_iff.mp h
    cases h
    exact Nat.succ_pos n

/-- A packet that ends within the head leaves the search open. -/
theorem isHead_open {head front rest : List Byte} (h : IsHead head) (hsplit : head = front ++ rest)
    (hne : rest ≠ []) : ¬ headMark <:+: front := by
  intro hmark
  obtain ⟨head', rest', hhead', rfl⟩ := exists_isHead front hmark
  have heq := h.first head' ⟨rest' ++ rest, by rw [hsplit, List.append_assoc]⟩ hhead'.ends
  have hlen := congrArg List.length hsplit
  rw [← heq] at hlen
  have hpos := List.length_pos_iff.mpr hne
  simp only [List.length_append] at hlen
  omega

/-! ## Every byte once -/

/-- The places of the bytes a call is given. -/
def ParseCall.places (c : ParseCall) : List Nat := List.range' c.start c.len

/-- The places the calls of one kind are given, in order. -/
def placesOf (kind : CallKind) (log : List ParseCall) : List Nat :=
  (log.filter fun c => c.kind = kind).flatMap ParseCall.places

/-- Every byte of the head is given to `http_parse_head` once, every byte of the
body to `http_parse_body` once, in order. -/
structure EachOnce (head body : List Byte) (log : List ParseCall) : Prop where
  headOnce : placesOf .head log = List.range' 0 head.length
  bodyOnce : placesOf .body log = List.range' head.length body.length

theorem placesOf_append (kind : CallKind) (a b : List ParseCall) :
    placesOf kind (a ++ b) = placesOf kind a ++ placesOf kind b := by
  simp [placesOf]

theorem placesOf_packetCalls {base len before k state : Nat} :
    placesOf .head (packetCalls base len before k state) =
      (if state = 4 then List.range' base k else []) ∧
    placesOf .body (packetCalls base len before k state) =
      (if before = 4 then List.range' base len else []) ++
        if state = 4 then List.range' (base + k) (len - k) else [] := by
  unfold packetCalls placesOf ParseCall.places
  constructor
  · split <;> split <;> simp
  · split <;> split <;> simp

theorem mem_packetCalls {kind : CallKind} {base len before k state i : Nat}
    (h : i ∈ placesOf kind (packetCalls base len before k state)) : base ≤ i := by
  cases kind with
  | head =>
    rw [placesOf_packetCalls.1] at h
    split at h
    · exact (List.mem_range'_1.mp h).1
    · cases h
  | body =>
    rw [placesOf_packetCalls.2] at h
    rcases List.mem_append.mp h with h | h
    · split at h
      · exact (List.mem_range'_1.mp h).1
      · cases h
    · split at h
      · have hle := (List.mem_range'_1.mp h).1
        omega
      · cases h

/-- Later packets have later places. -/
theorem mem_parsePacketsLog {kind : CallKind} (packets : List (List Byte)) : ∀ {base : Nat}
    {info r : Http} {log : List ParseCall}, parsePacketsLog base info packets = some (r, log) →
    ∀ i ∈ placesOf kind log, base ≤ i := by
  induction packets with
  | nil =>
    intro base info r log h i hi
    cases h
    cases hi
  | cons packet packets ih =>
    intro base info r log h i hi
    obtain ⟨out, hout, h⟩ := Option.bind_eq_some_iff.mp h
    obtain ⟨rest, hrest, h⟩ := Option.map_eq_some_iff.mp h
    cases h
    obtain ⟨k, -, hcalls⟩ := parsePacketLog_calls hout
    rw [placesOf_append, hcalls] at hi
    rcases List.mem_append.mp hi with hi | hi
    · exact mem_packetCalls hi
    · have hle := ih hrest i hi
      omega

theorem range'_split (start m n : Nat) :
    List.range' start (m + n) = List.range' start m ++ List.range' (start + m) n := by
  have h := @List.range'_append start m n 1
  rw [Nat.one_mul] at h
  exact h.symm

/-- A packet that comes behind no head is a head, or it is given to nobody. -/
theorem unheaded_missing {p : List Byte} {packets : List (List Byte)} {base : Nat} {info r : Http}
    {log : List ParseCall} (hp : p ≠ []) (hs : ¬ info.loc.state = 4)
    (h : parsePacketsLog base info (p :: packets) = some (r, log)) :
    ¬ (placesOf .head log = [] ∧ placesOf .body log = List.range' base (p :: packets).flatten.length) := by
  intro hplaces
  obtain ⟨⟨info1, log1⟩, hout, h⟩ := Option.bind_eq_some_iff.mp h
  obtain ⟨⟨r', log2⟩, hrest, h⟩ := Option.map_eq_some_iff.mp h
  cases h
  obtain ⟨k, hparse, hcalls⟩ := parsePacketLog_calls hout
  have hk := sHttpParse_pos hp hparse
  have hpos := List.length_pos_iff.mpr hp
  obtain ⟨hhead, hbody⟩ := hplaces
  rw [placesOf_append, hcalls, placesOf_packetCalls.1] at hhead
  rw [placesOf_append, hcalls, placesOf_packetCalls.2, if_neg hs] at hbody
  by_cases hs1 : info1.loc.state = 4
  · rw [if_pos hs1] at hhead
    have hlen := congrArg List.length hhead
    simp only [List.length_append, List.length_range', List.length_nil] at hlen
    omega
  · -- its first place is missing
    rw [if_neg hs1, List.nil_append, List.nil_append] at hbody
    have hmem : base ∈ placesOf .body log2 := by
      rw [hbody, List.flatten_cons, List.length_append]
      apply List.mem_range'_1.mpr
      omega
    have hle := mem_parsePacketsLog packets hrest _ hmem
    omega

/-- Behind a head one packet is a body; what comes after it is lost. -/
theorem behindHead_iff {packets : List (List Byte)} {base : Nat} {info r : Http}
    {log : List ParseCall} (hne : ∀ p ∈ packets, p ≠ []) (h4 : info.loc.state = 4)
    (h : parsePacketsLog base info packets = some (r, log)) :
    (placesOf .head log = [] ∧ placesOf .body log = List.range' base packets.flatten.length) ↔
      packets = [] ∨ ∃ b, packets = [b] ∧ b.head? ≠ some 0 ∧ ¬ headMark <:+: b := by
  cases packets with
  | nil =>
    cases h
    exact ⟨fun _ => Or.inl rfl, fun _ => ⟨rfl, rfl⟩⟩
  | cons p ps =>
    obtain ⟨⟨info1, log1⟩, hout, h⟩ := Option.bind_eq_some_iff.mp h
    obtain ⟨⟨r', log2⟩, hrest, h⟩ := Option.map_eq_some_iff.mp h
    cases h
    obtain ⟨k, hparse, hcalls⟩ := parsePacketLog_calls hout
    have hp : p ≠ [] := hne p List.mem_cons_self
    rw [h4] at hparse hcalls
    obtain ⟨hnul, hparse0⟩ := sHttpParse_afterHead hp hparse
    have hfour := sHttpParse_four hparse0
    have hk := sHttpParse_pos hp hparse
    dsimp only
    rw [placesOf_append, placesOf_append, hcalls, placesOf_packetCalls.1, placesOf_packetCalls.2,
      if_pos rfl]
    by_cases hs : info1.loc.state = 4
    · -- a second head
      rw [if_pos hs]
      constructor
      · intro hplaces
        have hlen := congrArg List.length hplaces.1
        simp only [List.length_append, List.length_range', List.length_nil] at hlen
        omega
      · intro hshape
        rcases hshape with hnil | ⟨b, hb, -, hmark⟩
        · cases hnil
        · cases hb
          exact absurd (hfour.mp hs) hmark
    · rw [if_neg hs, if_neg hs, List.append_nil]
      have hmark : ¬ headMark <:+: p := fun hin => hs (hfour.mpr hin)
      cases ps with
      | nil =>
        cases hrest
        constructor
        · intro _
          exact Or.inr ⟨p, rfl, hnul, hmark⟩
        · intro _
          exact ⟨rfl, by simp [placesOf]⟩
      | cons p2 ps =>
        constructor
        · intro hplaces
          exfalso
          obtain ⟨hhead, hbody⟩ := hplaces
          rw [List.nil_append] at hhead
          rw [List.flatten_cons, List.length_append, range'_split, List.append_cancel_left_eq] at hbody
          have hp2 : p2 ≠ [] := hne p2 (List.mem_cons_of_mem _ List.mem_cons_self)
          exact unheaded_missing hp2 hs hrest ⟨hhead, hbody⟩
        · intro hshape
          rcases hshape with hnil | ⟨b, hb, -⟩
          · cases hnil
          · cases hb

/-- One packet, or a second one for the end of the body: one that has no CRLFCRLF
and does not start with a NUL. -/
def CutOnce (head body : List Byte) (packets : List (List Byte)) : Prop :=
  packets = [head ++ body] ∨ ∃ front back, body = front ++ back ∧ packets = [head ++ front, back] ∧
    back.head? ≠ some 0 ∧ ¬ headMark <:+: back

/-- The first packet is a piece of the head, or holds it. -/
theorem first_packet {head body p tail : List Byte} (hflat : p ++ tail = head ++ body) :
    (∃ rest, head = p ++ rest ∧ rest ≠ []) ∨ ∃ front, p = head ++ front ∧ body = front ++ tail := by
  rcases List.append_eq_append_iff.mp hflat with ⟨rest, h1, h2⟩ | ⟨front, h1, h2⟩
  · by_cases hnil : rest = []
    · subst hnil
      rw [List.append_nil] at h1
      rw [List.nil_append] at h2
      exact Or.inr ⟨[], by rw [h1, List.append_nil], h2.symm⟩
    · exact Or.inl ⟨rest, h1, hnil⟩
  · exact Or.inr ⟨front, h1, h2⟩

theorem cutOnce_length {head body p : List Byte} {ps : List (List Byte)}
    (h : CutOnce head body (p :: ps)) : head.length ≤ p.length := by
  rcases h with heq | ⟨front, back, -, heq, -⟩
  · rw [(List.cons.inj heq).1, List.length_append]
    omega
  · rw [(List.cons.inj heq).1, List.length_append]
    omega

/-- The packet that holds the head gives it and the front of the body; the rest is for the others. -/
theorem eachOnce_front {head front tail : List Byte} {log : List ParseCall} :
    EachOnce head (front ++ tail) (packetCalls 0 (head ++ front).length 0 head.length 4 ++ log) ↔
      placesOf .head log = [] ∧
        placesOf .body log = List.range' (head.length + front.length) tail.length := by
  have hlen : (head ++ front).length - head.length = front.length := by
    rw [List.length_append]
    omega
  have hplace : ∀ kind, placesOf kind (packetCalls 0 (head ++ front).length 0 head.length 4 ++ log) =
      placesOf kind (packetCalls 0 (head ++ front).length 0 head.length 4) ++ placesOf kind log :=
    fun kind => placesOf_append kind _ log
  have hhead := hplace .head
  have hbody := hplace .body
  rw [placesOf_packetCalls.1, if_pos rfl] at hhead
  rw [placesOf_packetCalls.2, if_neg (by decide), if_pos rfl, hlen, Nat.zero_add,
    List.nil_append] at hbody
  constructor
  · intro honce
    have h1 := hhead.symm.trans honce.headOnce
    have h2 := hbody.symm.trans honce.bodyOnce
    rw [List.length_append, range'_split, List.append_cancel_left_eq] at h2
    exact ⟨List.append_cancel_left (h1.trans (List.append_nil _).symm), h2⟩
  · intro hplaces
    constructor
    · rw [hhead, hplaces.1, List.append_nil]
    · rw [hbody, List.length_append, range'_split, hplaces.2]

/-- **Where every byte is given once.** -/
theorem eachOnce_iff {head body : List Byte} {packets : List (List Byte)} {r : Http}
    {log : List ParseCall} (hhead : IsHead head) (hne : ∀ p ∈ packets, p ≠ [])
    (hflat : packets.flatten = head ++ body)
    (h : parsePacketsLog 0 Http.zero packets = some (r, log)) :
    EachOnce head body log ↔ CutOnce head body packets := by
  have hhlen : 4 ≤ head.length := hhead.ends.length_le
  cases packets with
  | nil =>
    have hlen := congrArg List.length hflat
    simp only [List.flatten_nil, List.length_nil, List.length_append] at hlen
    omega
  | cons p ps =>
    obtain ⟨⟨info1, log1⟩, hout, h⟩ := Option.bind_eq_some_iff.mp h
    obtain ⟨⟨r', log2⟩, hrest, h⟩ := Option.map_eq_some_iff.mp h
    cases h
    obtain ⟨k, hparse, hcalls⟩ := parsePacketLog_calls hout
    have hp : p ≠ [] := hne p List.mem_cons_self
    have hps : ∀ q ∈ ps, q ≠ [] := fun q hq => hne q (List.mem_cons_of_mem _ hq)
    have hstart : Http.zero.loc.state = 0 := rfl
    rw [hstart] at hparse hcalls
    rw [List.flatten_cons] at hflat
    rcases first_packet hflat with ⟨rest, hsplit, hrestne⟩ | ⟨front, rfl, rfl⟩
    · -- the first byte of the head is given to nobody
      have hs : ¬ info1.loc.state = 4 := fun hs =>
        isHead_open hhead hsplit hrestne ((sHttpParse_four hparse).mp hs)
      have hlt : p.length < head.length := by
        have hpos := List.length_pos_iff.mpr hrestne
        rw [hsplit, List.length_append]
        omega
      refine iff_of_false (fun honce => ?_) fun hcut => Nat.not_lt.mpr (cutOnce_length hcut) hlt
      have hmem : 0 ∈ placesOf .head (log1 ++ log2) := by
        rw [honce.headOnce]
        apply List.mem_range'_1.mpr
        omega
      rw [placesOf_append, hcalls, placesOf_packetCalls.1, if_neg hs, List.nil_append] at hmem
      have hle := mem_parsePacketsLog ps hrest _ hmem
      have hpos := List.length_pos_iff.mpr hp
      omega
    · rw [sHttpParse_head hhead] at hparse
      obtain ⟨hk, hs⟩ := Prod.mk.inj (Option.some.inj hparse)
      have hbehind := behindHead_iff hps hs.symm hrest
      have hbase : 0 + (head ++ front).length = head.length + front.length := by
        rw [Nat.zero_add, List.length_append]
      rw [hbase] at hbehind
      rw [← hk, ← hs] at hcalls
      -- what is left is about the packets behind the head
      rw [hcalls, eachOnce_front, hbehind]
      unfold CutOnce
      constructor
      · intro hshape
        rcases hshape with rfl | ⟨b, rfl, hnul, hmark⟩
        · left
          simp
        · right
          exact ⟨front, b, by simp, rfl, hnul, hmark⟩
      · intro hcut
        rcases hcut with heq | ⟨front', back, hbody, heq, hnul, hmark⟩
        · exact Or.inl (List.cons.inj heq).2
        · exact Or.inr ⟨back, (List.cons.inj heq).2, hnul, hmark⟩

end WafProxy
