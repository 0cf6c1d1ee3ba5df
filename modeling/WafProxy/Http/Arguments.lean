import WafProxy.Http.ContentLength
import WafProxy.Http.RequestLine
import WafProxy.Rules.Complete

/-
  Every argument of a request

  The 32 entries of the argument table go to the arguments of the query, then to
  those of the body. When they run out, `http_get_empty_arg` returns NULL and
  `_http_parse_args` returns -1, which `http_myparse_method` and
  `http_parse_body_args` do not pass on. This file

   1. follows the table through a head and a body (`httpParseHead_records`,
      `parseBody_records`) and through one packet (`parsePacket_records`): it
      holds what the first 32 arguments leave, bytes and all;
   2. concludes that every argument is recorded, or the request reported, exactly
      when there are at most 32 of them (`every_argument`).
-/

namespace WafProxy
open Lib

/-- A request: its first line, its header lines with the empty one, its body. -/
structure Request where
  line : RequestLine
  headers : List Byte
  body : List Byte
  isHead : IsHead (line.text ++ ch '\r' :: ch '\n' :: headers)

namespace Request

def head (q : Request) : List Byte := q.line.text ++ ch '\r' :: ch '\n' :: q.headers

def packet (q : Request) : List Byte := q.head ++ q.body

/-- The number of arguments a body carries. -/
def bodyArgs (body : List Byte) : Nat := if body = [] then 0 else argCount body

/-- The number of arguments of the query and of the body. -/
def args (q : Request) : Nat := q.line.args + bodyArgs q.body

end Request

/-- What the arguments of a body leave in the table. -/
def bodyEntries (body : List Byte) (closed : Bool) : List (Option (List Byte × List Byte)) :=
  if body = [] then [] else argEntries [] closed (pieces body)

/-- **The entries of a request**: those of its query, with the rest of the packet behind it, and those
of its body. -/
def Request.Entries (q : Request) (closed : Bool) (es : List (Option (List Byte × List Byte))) : Prop :=
  ∃ line, QueryEntries q.line.query
      (ch ' ' :: q.line.version ++ (ch '\r' :: ch '\n' :: q.headers ++ q.body)) line ∧
    es = line ++ bodyEntries q.body closed

theorem Request.Entries.length {q : Request} {closed : Bool} {es : List (Option (List Byte × List Byte))}
    (h : q.Entries closed es) : es.length = q.args := by
  obtain ⟨line, hline, rfl⟩ := h
  have hargs : q.line.args = (q.line.query.map argCount).getD 0 := by
    unfold RequestLine.args
    cases q.line.query <;> rfl
  rw [List.length_append, hline.length, Request.args, hargs, bodyEntries, Request.bodyArgs]
  split
  · rfl
  · rw [argEntries_length, pieces_length]

/-! ## The head -/

/-- A line is numbered by the lines before it. -/
theorem headScanByte_num {s s' : HeadScan} {c : Byte} {data : Int} {line : Option HeadLine}
    (h : headScanByte s c data = (s', line)) :
    s.num ≤ s'.num ∧ ∀ x ∈ line, x.num = s.num := by
  have hnum := (headScanChar_fields s c data).2.2
  unfold headScanByte headScanLine at h
  split at h
  · cases h
    exact ⟨Nat.le_of_eq hnum.symm, fun x hx => by cases hx⟩
  · cases h
    refine ⟨?_, fun x hx => ?_⟩
    · show s.num ≤ (headScanChar s c data).num + 1
      omega
    · cases hx
      exact hnum
  · cases h
    exact ⟨Nat.le_of_eq hnum.symm, fun x hx => by cases hx⟩

/-- The lines behind the first leave the tables alone. -/
theorem httpParseHeadLoop_headers (l : List Byte) : ∀ {data : Int} {s : HeadScan} {info : Http},
    s.num ≠ 0 → (httpParseHeadLoop l data s info).Ensures fun r => r.arg = info.arg := by
  induction l with
  | nil =>
    intro data s info _
    exact Access.ensures_pure rfl
  | cons c l ih =>
    intro data s info hnum
    unfold httpParseHeadLoop
    split
    · next s' hs =>
      apply ih
      have hle := (headScanByte_num hs).1
      omega
    · next s' line hs =>
      obtain ⟨hle, hline⟩ := headScanByte_num hs
      have hl : line.num ≠ 0 := by
        rw [hline line rfl]
        exact hnum
      have hone : (httpParseHeadLine info line).Ensures fun r => r.arg = info.arg := by
        apply Access.ensures_then
        intro begin
        refine (httpParseLine_frame hl).bind ?_
        intro r hr
        exact Access.ensures_pure hr.arg
      refine hone.bind ?_
      intro r hr
      exact (ih (by omega)).mono fun q hq => hq.trans hr

/-- **A head puts the arguments of its query into the table.** -/
theorem httpParseHead_records {q : Request} {info r : Http}
    (h : (httpParseHead q.head.length info).run (Memory.ofList q.packet) = some r) :
    LineEntries q.line (ch ' ' :: q.line.version ++ (ch '\r' :: ch '\n' :: q.headers ++ q.body)) r.arg := by
  obtain ⟨data, hdata, h⟩ := Option.bind_eq_some_iff.mp h
  have hslice : (Access.slice 0 q.head.length).run (Memory.ofList q.packet) = some q.head := by
    have hs := Access.slice_ofList [] q.head q.body
    simpa [Request.packet] using hs
  rw [hslice] at hdata
  cases hdata
  obtain ⟨r', hloop, h⟩ := Option.bind_eq_some_iff.mp h
  cases h
  show LineEntries _ _ r'.arg
  rw [Request.head, httpParseHeadLoop_first q.line.text_ne q.line.text_plain] at hloop
  obtain ⟨r1, hline, hrest⟩ := Option.bind_eq_some_iff.mp hloop
  rw [httpParseHeadLoop_headers q.headers (Nat.succ_ne_zero 0) _ _ hrest]
  rw [httpParseHeadLine, Access.run_bind, lineCall, Access.run_ofOption, Option.bind_some, Int.zero_add] at hline
  obtain ⟨r2, hmethod, hline⟩ := Option.bind_eq_some_iff.mp hline
  cases hline
  show LineEntries _ _ r2.arg
  have hmem : q.packet = q.line.text ++ (ch '\r' :: ch '\n' :: q.headers ++ q.body) := by
    simp [Request.packet, Request.head]
  unfold httpParseLine at hmethod
  rw [if_pos rfl, hmem, Int.sub_zero] at hmethod
  exact parseMethod_records (by rfl) hmethod

/-! ## The body -/

/-- **A body puts its arguments behind them.** -/
theorem parseBody_records {body : List Byte} {info r : Http} (hcur : info.arg.cur = none)
    (hmax : info.arg.maxNum = 32) (hle : info.arg.arg.length ≤ 32) (htype : body ≠ [] → ArgBody r)
    (h : parseBody info body = some r) :
    r.arg.entries = info.arg.entries ++
      (bodyEntries body (decide (r.logic.state = .none))).take (32 - info.arg.arg.length) := by
  by_cases hnil : body = []
  · subst hnil
    cases h
    rw [bodyEntries, if_pos rfl, List.take_nil, List.append_nil]
  · have hpos := List.length_pos_iff.mpr hnil
    have hframe := parseBody_frame hnil h
    obtain ⟨harg, hct⟩ := httpBodyCount_arg body info
    have hargs : ArgBody (httpBodyCount body info) := by
      unfold ArgBody
      rw [← hframe.logic]
      exact htype hnil
    unfold parseBody httpParseBody at h
    have hmem : Memory.ofList body = Memory.ofList (body ++ []) := by rw [List.append_nil]
    rw [if_neg (by omega), Access.run_bind, Int.toNat_natCast, slice_whole, Option.bind_some,
      httpParseBodyArgs_eq (by omega) hargs, hmem] at h
    have hrec := (httpParseArgs_records (by rw [harg]; exact hcur) (by rw [harg]; exact hmax)
      (by rw [harg]; exact hle) (Int.toNat_natCast _) h).1
    rw [bodyEntries, if_neg hnil, hrec, harg, hframe.logic]
    simp

/-! ## One packet -/

/-- A request in one packet, to a parser that is looking for a head. -/
structure OnePacket (q : Request) (before after : Http) (ret : Int) : Prop where
  fresh : before.loc.state = 0
  run : parsePacket before q.packet = some (ret, after)
  argBody : q.body ≠ [] → ArgBody after

/-- **The table holds what the first 32 arguments of the request leave.** -/
theorem parsePacket_records {q : Request} {before after : Http} {ret : Int}
    (h : OnePacket q before after ret) :
    ret = 0 ∧ ∃ es, q.Entries (decide (after.logic.state = .none)) es ∧ after.arg.entries = es.take 32 := by
  have hrun := h.run
  rw [Request.packet, Request.head, parsePacket_head q.isHead h.fresh] at hrun
  obtain ⟨r1, hhead, hrun⟩ := Option.bind_eq_some_iff.mp hrun
  obtain ⟨r2, hbody, hrun⟩ := Option.map_eq_some_iff.mp hrun
  cases hrun
  obtain ⟨⟨line, hline, hentries⟩, hmax, hcur⟩ := httpParseHead_records hhead
  have hlen : r1.arg.arg.length = min 32 line.length := by
    rw [← List.length_take, ← hentries, HttpArgCtrl.entries, List.length_map]
  have hrec := parseBody_records hcur hmax (by omega) h.argBody hbody
  refine ⟨rfl, _, ⟨line, hline, rfl⟩, ?_⟩
  rw [hrec, hentries, List.take_append, hlen]
  congr 2
  omega

/-- Every argument of a request stands in the table, with its bytes. -/
def EveryArgRecorded (q : Request) (info : Http) : Prop :=
  q.Entries (decide (info.logic.state = .none)) info.arg.entries

/-- Every argument of a request is recorded, or the request is not taken for clean, whatever the
keywords and the rules are. -/
def EveryArgInspected (q : Request) (ret : Int) (info : Http) : Prop :=
  ∀ (keys : List KeyNode) (acsm : AcsmSearch keys) (pcre : RuleNode → List Byte → Bool)
    (node : RuleTable), EveryArgRecorded q info ∨ ret < 0 ∨ moduleDetectEntry acsm pcre node info < 0

/-- That is so exactly when there are at most 32. -/
theorem everyArgRecorded_iff {q : Request} {before after : Http} {ret : Int}
    (h : OnePacket q before after ret) : EveryArgRecorded q after ↔ q.args ≤ 32 := by
  obtain ⟨-, es, hes, hentries⟩ := parsePacket_records h
  have hlen := hes.length
  constructor
  · intro hall
    have hall' := hall.length
    rw [hentries, List.length_take] at hall'
    omega
  · intro hle
    unfold EveryArgRecorded
    rw [hentries, List.take_of_length_le (by omega)]
    exact hes

/-- Without rules every request is clean. -/
theorem moduleDetectEntry_noRules (info : Http) :
    moduleDetectEntry (inOrder []) (fun _ _ => false) (fun _ => []) info = RET_OK := by
  have hnone : ruleCheck (inOrder []) (fun _ _ => false) (fun _ => []) info = none := by
    have htext : ∀ text, ruleCheckText (inOrder []) (fun _ _ => false) (fun _ => []) text = none := by
      intro text
      unfold ruleCheckText
      generalize searchMultiPattern (inOrder []) text = ids
      induction ids with
      | nil => rfl
      | cons id ids ih =>
        rw [matchIds, matchChain]
        exact ih
    have hargs : ∀ args, ruleCheckArgs (inOrder []) (fun _ _ => false) (fun _ => []) args = none := by
      intro args
      induction args with
      | nil => rfl
      | cons item args ih =>
        rw [ruleCheckArgs, htext]
        exact ih
    simp [ruleCheck, ruleCheckUrl, ruleCheckArg, ruleCheckHeaderAgent, ruleCheckHeaderCookie, htext,
      hargs]
  rw [moduleDetectEntry, hnone]
  rfl

/-- **No argument of a request goes unrecorded and unreported exactly when there are at most 32 of
them.** -/
theorem every_argument {q : Request} {before after : Http} {ret : Int}
    (h : OnePacket q before after ret) : EveryArgInspected q ret after ↔ q.args ≤ 32 := by
  rw [← everyArgRecorded_iff h]
  constructor
  · intro hall
    rcases hall [] (inOrder []) (fun _ _ => false) (fun _ => []) with hrec | hneg | hneg
    · exact hrec
    · rw [(parsePacket_records h).1] at hneg
      exact absurd hneg (Int.lt_irrefl 0)
    · rw [moduleDetectEntry_noRules] at hneg
      exact absurd hneg (by decide)
  · intro hrec keys acsm pcre node
    exact Or.inl hrec

/-! ## Thirty-three arguments -/

theorem slash_plain : ch '?' ∉ str "/" ∧ ch '\r' ∉ str "/" ∧ ch '\n' ∉ str "/" := by decide +kernel

theorem http11_plain :
    ch '?' ∉ str "HTTP/1.1" ∧ ch '\r' ∉ str "HTTP/1.1" ∧ ch '\n' ∉ str "HTTP/1.1" := by
  decide +kernel

theorem http11_length : (str "HTTP/1.1").length = 8 := by decide

theorem get_ne : str "GET" ≠ [] := by decide

theorem get_token : ∀ c ∈ str "GET", stripped c = false := by decide +kernel

/-- The line `GET /?q HTTP/1.1`. -/
def getLine (q : List Byte) (h : ch '\r' ∉ q ∧ ch '\n' ∉ q) : RequestLine where
  method := str "GET"
  path := str "/"
  query := some q
  version := str "HTTP/1.1"
  method_ne := get_ne
  method_token := get_token
  path_plain := slash_plain
  query_plain := fun p hp => by
    cases hp
    exact h
  version_plain := http11_plain
  version_length := http11_length

def twoArgs : Request where
  line := getLine (str "a=1&b=2") (by decide)
  headers := str "\r\n"
  body := []
  isHead := by decide +kernel

/-- `a=1` and 32 times `&a=1`. -/
def manyArgs : Request where
  line := getLine (str "a=1" ++ (List.replicate 32 (str "&a=1")).flatten) (by decide +kernel)
  headers := str "\r\n"
  body := []
  isHead := by decide +kernel

/-- What a zeroed parser makes of a request in one packet. -/
def parsed (q : Request) : Int × Http := (parsePacket Http.zero q.packet).getD (0, {})

theorem onePacket_parsed {q : Request} (hbody : q.body = [])
    (h : (parsePacket Http.zero q.packet).isSome = true) :
    OnePacket q Http.zero (parsed q).2 (parsed q).1 where
  fresh := rfl
  run := by
    obtain ⟨r, hr⟩ := Option.isSome_iff_exists.mp h
    rw [parsed, hr]
    rfl
  argBody hne := absurd hbody hne

theorem every_argument_two : EveryArgInspected twoArgs (parsed twoArgs).1 (parsed twoArgs).2 :=
  (every_argument (onePacket_parsed rfl (by decide +kernel))).mpr (by decide)

/-- The thirty-third argument is dropped, and nobody is told. -/
theorem thirty_third_dropped :
    OnePacket manyArgs Http.zero (parsed manyArgs).2 (parsed manyArgs).1 ∧
    ¬ EveryArgInspected manyArgs (parsed manyArgs).1 (parsed manyArgs).2 := by
  have h : OnePacket manyArgs Http.zero (parsed manyArgs).2 (parsed manyArgs).1 :=
    onePacket_parsed rfl (by decide +kernel)
  refine ⟨h, ?_⟩
  intro hall
  have hret := (parsePacket_records h).1
  rcases hall [] (inOrder []) (fun _ _ => false) (fun _ => []) with hrec | hneg | hneg
  · have hle := (everyArgRecorded_iff h).mp hrec
    exact absurd hle (by decide +kernel)
  · rw [hret] at hneg
    exact absurd hneg (Int.lt_irrefl 0)
  · rw [moduleDetectEntry_noRules] at hneg
    exact absurd hneg (by decide)

end WafProxy
