import WafProxy.Http.LineScan
import WafProxy.Http.Strings

/-
  The lines of a head and the calls they lead to — `http_parse_head` of http.c,
  `http_match_header_table` of http_header.c

  A line behind the request line calls the function that the table has for its
  name, with the value behind its first colon. `split` is still set from an
  earlier line when a line has no colon. The name then has a negative length, and
  no slot of the table has such a key.

  What is proved:
    1. `httpLookupHeader_run` — the function found for a name is the one of the
       table entry with that name, and none when something else than a blank or
       the colon stands behind it; `httpLookupHeader_negative` — none for a name
       of negative length.
    2. `httpParseHeadLine_call` — a line leads to one call (`LineCall`).
    3. `httpParseHead_calls` — a head leads to the call of its request line and
       to the calls of its lines, one after the other (`Calls`).

  Correspondence (C ↔ Lean):
    a line behind the request line         ↔ `FieldLine`
    the name and the value found in it     ↔ `FieldLine.name`, `FieldLine.value`
    `table[i].func` for a line             ↔ `FieldLine.fn`
-/

namespace WafProxy
open Lib

/-! ## The table -/

/-- No key has a negative length. -/
theorem httpFindHeader_negative {name nameLen : Int} (h : nameLen < 0) (table : List (List Byte × HeaderFn)) :
    httpFindHeader name nameLen table = pure none := by
  induction table with
  | nil => rfl
  | cons e table ih =>
    obtain ⟨key, f⟩ := e
    rw [httpFindHeader, if_pos (by omega), ih]

theorem headerTable_keys : ∀ e ∈ httpHeaderTable, 3 ≤ e.1.length := by decide

/-- The function of the table entry that has a name. -/
def headerFn (name : List Byte) : Option HeaderFn := (entryOf name httpHeaderTable).map Prod.snd

theorem httpLookupHeader_negative {m : Memory Byte} {name nameLen : Int} (h : nameLen < 0)
    {found : Option HeaderFn} (hrun : (httpLookupHeader name nameLen).run m = some found) : found = none := by
  obtain ⟨a, -, hrun⟩ := Option.bind_eq_some_iff.mp hrun
  obtain ⟨b, -, hrun⟩ := Option.bind_eq_some_iff.mp hrun
  obtain ⟨d, -, hrun⟩ := Option.bind_eq_some_iff.mp hrun
  change (httpFindHeader name nameLen (headerCell a b d)).run m = some found at hrun
  rw [httpFindHeader_negative h] at hrun
  exact (Option.some.inj hrun).symm

/-- **The lookup of a name.** The byte behind it decides whether there is an entry. -/
theorem httpLookupHeader_run {front name post : List Byte} {c : Byte} {found : Option HeaderFn}
    (hrun : (httpLookupHeader front.length name.length).run (Memory.ofList (front ++ name ++ c :: post)) =
      some found) : found = if endsName c then headerFn name else none := by
  obtain ⟨a, ha, hrun⟩ := Option.bind_eq_some_iff.mp hrun
  obtain ⟨b, hb, hrun⟩ := Option.bind_eq_some_iff.mp hrun
  obtain ⟨d, hd, hrun⟩ := Option.bind_eq_some_iff.mp hrun
  change (httpFindHeader front.length name.length (headerCell a b d)).run _ = some found at hrun
  have hhashed : (name ++ c :: post).take 3 = [a, b, d] := by
    have hslice : (Access.slice (front.length : Int) 3).run (Memory.ofList (front ++ name ++ c :: post)) =
        some [a, b, d] := by
      have htwo : (front.length : Int) + 1 + 1 = front.length + 2 := by omega
      rw [Access.run_read] at ha hb hd
      simp only [Access.slice, Access.run_bind, Access.run_read, Access.run_pure, ha, hb, htwo, hd,
        Option.bind_some]
    obtain ⟨htake, -⟩ := Access.slice_some 3 hslice
    rw [htake, List.append_assoc, List.drop_left]
  have hentry : entryOf name (headerCell a b d) = entryOf name httpHeaderTable :=
    entryOf_cell headerTable_keys hhashed
  have hfind : (httpFindHeader front.length name.length (headerCell a b d)).run
      (Memory.ofList (front ++ name ++ c :: post)) =
        some (if endsName c then (entryOf name (headerCell a b d)).map Prod.snd else none) :=
    entryOf_run (httpFindHeader front.length name.length) Prod.snd rfl (fun _ _ => rfl) _
  rw [hfind, hentry] at hrun
  exact (Option.some.inj hrun).symm

/-- A function of the table is found for one name only. -/
theorem headerFn_iff {f : HeaderFn} {key : List Byte} (hmem : (key, f) ∈ httpHeaderTable)
    (hkey : ∀ e ∈ httpHeaderTable, e.2 = f ↔ e.1.map tolower = key.map tolower) (name : List Byte) :
    headerFn name = some f ↔ name.map tolower = key.map tolower := by
  unfold headerFn
  constructor
  · intro h
    obtain ⟨e, he, hf⟩ := Option.map_eq_some_iff.mp h
    obtain ⟨hin, hsame⟩ := entryOf_some he
    rw [← hsame]
    exact (hkey e hin).mp hf
  · intro h
    cases he : entryOf name httpHeaderTable with
    | none => exact absurd h.symm (entryOf_none he (key, f) hmem)
    | some e =>
      obtain ⟨hin, hsame⟩ := entryOf_some he
      exact congrArg some ((hkey e hin).mpr (hsame.trans h))

/-! ## A line -/

/-- In front of a colon, `strlstrip` takes off white space only. -/
theorem takeWhile_stripped {l : List Byte} (h : ch ':' ∉ l) : l.takeWhile stripped = l.takeWhile isspace := by
  induction l with
  | nil => rfl
  | cons c l ih =>
    have hc : c ≠ ch ':' := fun heq => h (heq ▸ List.mem_cons_self)
    have hsame : stripped c = isspace c := by rw [stripped, decide_eq_false hc, Bool.or_false]
    rw [List.takeWhile_cons, List.takeWhile_cons, hsame, ih fun hmem => h (List.mem_cons_of_mem c hmem)]

/-- A line behind the request line that does not continue the line in front of it. -/
structure FieldLine where
  text : List Byte
  ne : text ≠ []
  plain : ∀ c ∈ text, c ≠ ch '\r' ∧ c ≠ ch '\n'
  start : ∀ c ∈ text.head?, isspace c = false

namespace FieldLine
variable (l : FieldLine)

/-- The text in front of the first colon. -/
def before : List Byte := l.text.takeWhile (· ≠ ch ':')

def name : List Byte := stripText l.before

/-- The text behind the first colon. -/
def after : List Byte := l.text.drop (l.before.length + 1)

/-- The same without white space and colons around it. -/
def value : List Byte := stripText l.after

def flag : DecodeFlag := lineFlag l.text

/-- What stands between the name and the colon. -/
def gap : List Byte := (l.before.reverse.takeWhile stripped).reverse

/-- The byte behind the name. -/
def behind : Byte := l.gap.head?.getD (ch ':')

/-- The function that the table has for the line. -/
def fn : Option HeaderFn := if ch ':' ∈ l.text ∧ endsName l.behind then headerFn l.name else none

theorem text_split (h : ch ':' ∈ l.text) : l.text = l.before ++ ch ':' :: l.after := by
  apply split_first
  have hle := (List.takeWhile_prefix (l := l.text) (· ≠ ch ':')).length_le
  refine Nat.lt_of_le_of_ne hle fun heq => ?_
  have hall : l.before = l.text := (List.takeWhile_prefix (· ≠ ch ':')).eq_of_length heq
  rw [← hall] at h
  have hne := List.mem_takeWhile_imp h
  simp at hne

theorem before_plain : ch ':' ∉ l.before := by
  intro h
  have hne := List.mem_takeWhile_imp h
  simp at hne

/-- Nothing is taken off the front of the name. -/
theorem before_head : ∀ c ∈ l.before.head?, stripped c = false := by
  intro c hc
  have hmem := List.mem_of_mem_head? hc
  have hcolon : c ≠ ch ':' := fun heq => l.before_plain (heq ▸ hmem)
  have hspace : isspace c = false := by
    obtain ⟨rest, hrest⟩ : l.before <+: l.text := List.takeWhile_prefix _
    apply l.start
    rw [← hrest, List.head?_append, Option.mem_def.mp hc]
    rfl
  rw [stripped, hspace, decide_eq_false hcolon]
  rfl

theorem before_split : l.before = l.name ++ l.gap := by
  have hname : l.name = (l.before.reverse.dropWhile stripped).reverse := by
    rw [name, stripText, dropWhile_of_head l.before_head]
  rw [hname, gap, ← List.reverse_append, List.takeWhile_append_dropWhile, List.reverse_reverse]

/-- Where the byte behind the name stands. -/
theorem name_end (h : ch ':' ∈ l.text) : ∃ rest, l.text = l.name ++ l.behind :: rest := by
  have htext := l.text_split h
  rw [before_split] at htext
  unfold behind
  cases hgap : l.gap with
  | nil =>
    rw [hgap, List.append_nil] at htext
    exact ⟨l.after, htext⟩
  | cons c gap =>
    rw [hgap, List.append_assoc, List.cons_append] at htext
    exact ⟨gap ++ ch ':' :: l.after, htext⟩

/-- Where the name stands. -/
theorem name_strip (front rest : List Byte) (h : ch ':' ∈ l.text) :
    (strlstrip front.length ((front.length + l.before.length : Nat) : Int)).run
      (Memory.ofList (front ++ l.text ++ rest)) =
      some ((front.length : Int), ((front.length + l.name.length : Nat) : Int)) := by
  have hlist : front ++ l.text ++ rest = front ++ l.before ++ (ch ':' :: l.after ++ rest) := by
    conv_lhs => rw [l.text_split h]
    simp
  rw [hlist, strlstrip_run, takeWhile_of_head l.before_head, List.append_nil]
  rfl

/-- Where the value stands: the colon is taken off with what surrounds the value. -/
theorem value_strip (front : List Byte) {c : Byte} (hc : stripped c = true) (rest : List Byte)
    (h : ch ':' ∈ l.text) : ∃ pre d post, stripped d = true ∧
    front ++ l.text ++ c :: rest = pre ++ l.value ++ d :: post ∧
    (strlstrip ((front.length + l.before.length : Nat) : Int) ((front.length + l.text.length : Nat) : Int)).run
      (Memory.ofList (front ++ l.text ++ c :: rest)) =
      some ((pre.length : Int), ((pre.length + l.value.length : Nat) : Int)) := by
  have hvalue : stripText (ch ':' :: l.after) = l.value := by
    rw [stripText, List.dropWhile_cons_of_pos (by decide)]
    rfl
  have hlist : front ++ l.text ++ c :: rest = (front ++ l.before) ++ (ch ':' :: l.after) ++ c :: rest := by
    conv_lhs => rw [l.text_split h]
    simp
  have hstop : front.length + l.text.length = (front ++ l.before).length + (ch ':' :: l.after).length := by
    conv_lhs => rw [l.text_split h]
    simp only [List.length_append]
    omega
  obtain ⟨trail, htrail, hall⟩ := stripText_split (ch ':' :: l.after)
  -- the value ends at white space of the line, or at the CR behind it
  obtain ⟨d, post, hd, hpost⟩ : ∃ d post, stripped d = true ∧ trail ++ c :: rest = d :: post := by
    cases trail with
    | nil => exact ⟨c, rest, hc, rfl⟩
    | cons d trail => exact ⟨d, trail ++ c :: rest, hall d List.mem_cons_self, rfl⟩
  refine ⟨front ++ l.before ++ (ch ':' :: l.after).takeWhile stripped, d, post, hd, ?_, ?_⟩
  · rw [hlist, ← hpost]
    conv_lhs => rw [htrail, hvalue]
    simp only [List.append_assoc]
  · rw [hlist, hstop, ← List.length_append, strlstrip_run, hvalue]

end FieldLine

/-! ## The call of a line -/

/-- The state a header function is called with: the flags of the line, and its length counted. -/
def Http.atLine (info : Http) (flag : DecodeFlag) (max : Int) : Http :=
  Http.withInt { info with tmpFlag := flag } fun i => { i with maxHeaderLineLen := max }

/-- What a line makes of the parser's state, before it is counted. -/
inductive FieldLine.Call (l : FieldLine) (info : Http) : Http → Prop where
  | none {max : Int} (hfn : l.fn = none) : l.Call info (info.atLine l.flag max)
  | some {max : Int} {f : HeaderFn} {pre post : List Byte} {c : Byte} {r : Http} (hfn : l.fn = some f)
      (hbehind : stripped c = true) (hrun : (f.call pre.length l.value.length (info.atLine l.flag max)).run
        (Memory.ofList (pre ++ l.value ++ c :: post)) = some r) : l.Call info r

section
variable {l : FieldLine} {front rest : List Byte} {c : Byte} {info r : Http} {num : Nat}

/-- **A line with a colon** calls the function of its name with its value. -/
theorem httpParseLine_colon (hcolon : ch ':' ∈ l.text) (hnum : num ≠ 0) (hc : stripped c = true)
    (h : (httpParseLine { info with tmpFlag := l.flag } front.length
      (some ((front.length + l.before.length : Nat) : Int)) ((front.length + l.text.length : Nat) : Int) num).run
        (Memory.ofList (front ++ l.text ++ c :: rest)) = some r) : l.Call info r := by
  obtain ⟨pre, d, post, hd, hlist, hvalue⟩ := l.value_strip front hc rest hcolon
  obtain ⟨rest', htext⟩ := l.name_end hcolon
  have hnamed : front ++ l.text ++ c :: rest = front ++ l.name ++ l.behind :: (rest' ++ c :: rest) := by
    rw [htext]
    simp
  have hnameLen : ((front.length + l.name.length : Nat) : Int) - front.length = l.name.length := by omega
  have hvalueLen : ((pre.length + l.value.length : Nat) : Int) - pre.length = l.value.length := by omega
  unfold httpParseLine at h
  rw [if_neg hnum] at h
  dsimp only at h
  rw [Access.run_bind, l.name_strip front (c :: rest) hcolon, Option.bind_some] at h
  dsimp only at h
  rw [Access.run_bind, hvalue, Option.bind_some] at h
  dsimp only at h
  rw [hnameLen, hvalueLen] at h
  obtain ⟨found, hfound, h⟩ := Option.bind_eq_some_iff.mp h
  rw [hnamed] at hfound
  have hfn : l.fn = found := by
    rw [httpLookupHeader_run hfound, FieldLine.fn]
    simp [hcolon]
  cases found with
  | none =>
    obtain rfl := Option.some.inj h
    exact .none hfn
  | some f =>
    rw [hlist] at h
    exact .some hfn hd h

/-- **A line without a colon** calls nothing, whatever `split` still points to. -/
theorem httpParseLine_plain {m : Memory Byte} {begin stop : Int} {split : Option Int}
    (hcolon : ch ':' ∉ l.text) (hsplit : ∀ p ∈ split, p < begin) (hnum : num ≠ 0)
    (h : (httpParseLine { info with tmpFlag := l.flag } begin split stop num).run m = some r) : l.Call info r := by
  have hfn : l.fn = none := if_neg fun hc => hcolon hc.1
  unfold httpParseLine at h
  rw [if_neg hnum] at h
  cases split with
  | none =>
    obtain rfl := Option.some.inj h
    exact .none hfn
  | some p =>
    have hp := hsplit p rfl
    have hstrip : (strlstrip begin p).run m = some (begin, p) := by
      have hzero : (p - begin).toNat = 0 := by omega
      unfold strlstrip
      rw [hzero, Access.run_bind, stripFront, Access.run_pure, Option.bind_some, hzero, Access.run_bind, stripBack,
        Access.run_pure, Option.bind_some, Access.run_pure]
    dsimp only at h
    rw [Access.run_bind, hstrip, Option.bind_some] at h
    dsimp only at h
    obtain ⟨⟨tmp, stop'⟩, -, h⟩ := Option.bind_eq_some_iff.mp h
    obtain ⟨found, hfound, h⟩ := Option.bind_eq_some_iff.mp h
    obtain rfl := httpLookupHeader_negative (by omega) hfound
    obtain rfl := Option.some.inj h
    exact .none hfn

end

/-- The line is counted. -/
def Http.countLine (info : Http) : Http := info.withInt fun i => { i with headerLineNum := i.headerLineNum + 1 }

/-- What a line makes of the parser's state. -/
def LineCall (l : FieldLine) (info r : Http) : Prop := ∃ r', l.Call info r' ∧ r = r'.countLine

/-- **The call of one line**, whatever the lines in front of it have left. -/
theorem httpParseHeadLine_call {l : FieldLine} {front rest : List Byte} {c : Byte} {s : HeadScan} {info r : Http}
    (hnum : s.num ≠ 0) (hc : stripped c = true) (hsplit : ∀ p ∈ s.split, p < (front.length : Int))
    (h : (httpParseHeadLine info (lineCall s front.length l.text)).run
      (Memory.ofList (front ++ l.text ++ c :: rest)) = some r) : LineCall l info r := by
  obtain ⟨r', hline, h⟩ := Option.bind_eq_some_iff.mp h
  obtain rfl := Option.some.inj h
  refine ⟨r', ?_, rfl⟩
  by_cases hcolon : ch ':' ∈ l.text
  · have hsplit' : splitBehind s.split front.length l.text = some ((front.length + l.before.length : Nat) : Int) :=
      if_pos hcolon
    change (httpParseLine _ front.length (splitBehind s.split front.length l.text)
      ((front.length + l.text.length : Nat) : Int) s.num).run _ = some r' at hline
    rw [hsplit'] at hline
    exact httpParseLine_colon hcolon hnum hc hline
  · have hsplit' : splitBehind s.split front.length l.text = s.split := if_neg hcolon
    change (httpParseLine _ front.length (splitBehind s.split front.length l.text) _ s.num).run _ = some r' at hline
    rw [hsplit'] at hline
    exact httpParseLine_plain hcolon hsplit hnum hline

/-! ## The request line -/

/-- The counters that the lines of a head move. -/
def HttpInt.counts (i : HttpInt) : Int × Int := (i.headerLineNum, i.headerCookieNum)

/-- The strings and counters that belong to the lines behind the request line. -/
structure HeaderKept (info r : Http) : Prop where
  fields : info.str.SameFields r.str
  counts : r.httpInt.counts = info.httpInt.counts

theorem HeaderKept.refl (info : Http) : HeaderKept info info := ⟨⟨rfl, rfl, rfl, rfl, rfl⟩, rfl⟩

/-- The argument parser counts arguments, not lines. -/
theorem appendTmp_counts {s : ArgScan} :
    s.appendTmp.Ensures fun r => r.httpInt.counts = s.httpInt.counts := by
  unfold ArgScan.appendTmp
  split
  · exact Access.ensures_pure rfl
  · apply Access.ensures_then
    intro value
    apply Access.ensures_then
    intro arg
    exact Access.ensures_pure rfl

theorem appendNul_counts {s : ArgScan} :
    s.appendNul.Ensures fun r => r.httpInt.counts = s.httpInt.counts := by
  apply Access.ensures_then
  intro arg
  exact Access.ensures_pure rfl

theorem extend_counts (s : ArgScan) (inUrl : Bool) (begin : Int) :
    (s.extend inUrl begin).httpInt.counts = s.httpInt.counts := by
  cases inUrl <;> rfl

theorem httpParseArgsByte_counts {inUrl : Bool} {begin : Int} {c : Byte} {s : ArgScan} :
    (httpParseArgsByte inUrl begin c s).Ensures fun r => r.httpInt.counts = s.httpInt.counts := by
  unfold httpParseArgsByte
  split
  · exact Access.ensures_pure (extend_counts _ _ _)
  · split
    · exact Access.ensures_pure (extend_counts _ _ _)
    · split
      · refine appendTmp_counts.bind fun s' hs' => Access.ensures_pure ?_
        cases inUrl <;> exact hs'
      · split
        · split
          · refine appendTmp_counts.bind fun s' hs' => appendNul_counts.bind fun t ht => Access.ensures_pure ?_
            exact ht.trans hs'
          · exact Access.ensures_pure rfl
        · exact Access.ensures_pure (extend_counts _ _ _)

theorem httpParseArgsLoop_counts {inUrl : Bool} (data : List Byte) : ∀ {begin : Int} {s : ArgScan},
    (httpParseArgsLoop inUrl data begin s).Ensures fun r => r.httpInt.counts = s.httpInt.counts := by
  induction data with
  | nil =>
    intro begin s
    exact Access.ensures_pure rfl
  | cons c data ih =>
    intro begin s
    refine httpParseArgsByte_counts.bind fun s' hs' => ?_
    split
    · exact Access.ensures_pure hs'
    · exact ih.mono fun r hr => hr.trans hs'

theorem httpParseArgsEnd_counts {inUrl : Bool} {state : HttpState} {s : ArgScan} :
    (httpParseArgsEnd inUrl state s).Ensures fun r => r.httpInt.counts = s.httpInt.counts := by
  refine appendTmp_counts.bind fun s' hs' => ?_
  split
  · refine appendNul_counts.bind fun t ht => Access.ensures_pure ?_
    exact ht.trans hs'
  · split
    · refine appendNul_counts.bind fun t ht => Access.ensures_pure ?_
      exact ht.trans hs'
    · exact Access.ensures_pure hs'

theorem httpParseArgs_kept (info : Http) (dataLen : Int) (inUrl : Bool) :
    (httpParseArgs info dataLen inUrl).Ensures (HeaderKept info) := by
  unfold httpParseArgs
  dsimp only
  generalize (if info.arg.cur = none then httpGetEmptyArg info.arg else info.arg) = arg
  split
  · exact Access.ensures_pure ⟨⟨rfl, rfl, rfl, rfl, rfl⟩, rfl⟩
  · apply Access.ensures_then
    intro text
    refine (httpParseArgsLoop_counts text).bind fun s hs => ?_
    split
    · exact Access.ensures_pure ⟨⟨rfl, rfl, rfl, rfl, rfl⟩, hs⟩
    · refine httpParseArgsEnd_counts.bind fun s' hs' => ?_
      exact Access.ensures_pure ⟨⟨rfl, rfl, rfl, rfl, rfl⟩, hs'.trans hs⟩

theorem httpMyparseMethod_kept {data len : Int} {info : Http} :
    (httpMyparseMethod data len info).Ensures (HeaderKept info) := by
  unfold httpMyparseMethod
  apply Access.ensures_then
  intro strip
  apply Access.ensures_then
  intro strip'
  apply Access.ensures_then
  intro rawUrl
  apply Access.ensures_then
  intro urlAndArg
  apply Access.ensures_then
  intro tmp
  apply Access.ensures_then
  intro url
  cases tmp with
  | none => exact Access.ensures_pure ⟨⟨rfl, rfl, rfl, rfl, rfl⟩, rfl⟩
  | some tmp =>
    refine Access.Ensures.bind (Access.Ensures.atPtr (httpParseArgs_kept _ _ _) _) ?_
    intro r hr
    exact Access.ensures_pure ⟨⟨hr.fields.host, hr.fields.agent, hr.fields.location, hr.fields.reference,
      hr.fields.cookie⟩, hr.counts⟩

/-- **The request line changes none of them.** -/
theorem parseMethod_kept {data len : Int} {info : Http} :
    (parseMethod data len info).Ensures (HeaderKept info) := by
  have hmethod : ∀ (method : HttpMethod) (r : Http),
      HeaderKept { info with logic := { info.logic with method := method } } r → HeaderKept info r :=
    fun _ _ hr => ⟨hr.fields, hr.counts⟩
  apply Access.ensures_then
  intro space
  cases space with
  | none => exact Access.ensures_pure (HeaderKept.refl info)
  | some space =>
    apply Access.ensures_then
    intro strip
    dsimp only
    apply Access.ensures_then
    intro a
    apply Access.ensures_then
    intro b
    apply Access.ensures_then
    intro found
    cases found with
    | none => exact httpMyparseMethod_kept.mono (hmethod _)
    | some key =>
      dsimp only
      split
      · exact httpMyparseMethod_kept.mono (hmethod _)
      · exact Access.ensures_pure ⟨⟨rfl, rfl, rfl, rfl, rfl⟩, rfl⟩

/-! ## The calls of a head -/

/-- The lines, each with its CRLF. -/
def fieldsText (lines : List FieldLine) : List Byte := lines.flatMap fun l => l.text ++ crlf

theorem fieldsText_cons (l : FieldLine) (lines : List FieldLine) :
    fieldsText (l :: lines) = l.text ++ ch '\r' :: ch '\n' :: fieldsText lines := by
  simp [fieldsText, crlf]

/-- The calls of the lines, one after the other. -/
def Calls : List FieldLine → Http → Http → Prop
  | [], info, r => r = info
  | l :: lines, info, r => ∃ mid, LineCall l info mid ∧ Calls lines mid r

/-- The CRLF that ends a head calls nothing. -/
theorem headLinesLoop_last {s : HeadScan} {last : List Byte} {data : Int} (hs : s.Between)
    (hlast : last = [] ∨ last = crlf) : headLinesLoop last data s = [] := by
  rcases hlast with rfl | rfl
  · rfl
  · obtain ⟨st, flag, begin, split, tmpFlag, num⟩ := s
    obtain rfl : st = .char0 := hs.st
    rfl

/-- `split` never points behind the line that was read last. -/
theorem splitBehind_lt {split : Option Int} {data : Int} {l : List Byte} (h : ∀ p ∈ split, p < data) :
    ∀ p ∈ splitBehind split data l, p < data + l.length + 2 := by
  intro p hp
  unfold splitBehind at hp
  split at hp
  · have hle : (l.takeWhile (· ≠ ch ':')).length ≤ l.length := (List.takeWhile_prefix _).length_le
    obtain rfl := Option.some.inj hp
    omega
  · have hlt := h p hp
    omega

theorem httpParseLines_calls {last post : List Byte} (hlast : last = [] ∨ last = crlf)
    (lines : List FieldLine) : ∀ {front : List Byte} {s : HeadScan} {info r : Http}, s.Between → s.num ≠ 0 →
    (∀ p ∈ s.split, p < (front.length : Int)) →
    (httpParseLines (headLinesLoop (fieldsText lines ++ last) front.length s) info).run
      (Memory.ofList (front ++ fieldsText lines ++ last ++ post)) = some r → Calls lines info r := by
  induction lines with
  | nil =>
    intro front s info r hs _ _ h
    rw [fieldsText, List.flatMap_nil, List.nil_append, headLinesLoop_last hs hlast] at h
    exact (Option.some.inj h).symm
  | cons l lines ih =>
    intro front s info r hs hnum hsplit h
    have hlist : front ++ fieldsText (l :: lines) ++ last ++ post =
        front ++ l.text ++ ch '\r' :: (ch '\n' :: (fieldsText lines ++ last ++ post)) := by
      rw [fieldsText_cons]
      simp
    have hlist' : front ++ fieldsText (l :: lines) ++ last ++ post =
        (front ++ l.text ++ crlf) ++ fieldsText lines ++ last ++ post := by
      rw [hlist]
      simp [crlf]
    have hlen : (front.length : Int) + l.text.length + 2 = ((front ++ l.text ++ crlf).length : Nat) := by
      simp [crlf]
      omega
    have hloop := @headLinesLoop_line (fieldsText lines ++ last) l.text front.length s hs l.ne l.plain
    rw [fieldsText_cons, List.append_assoc, List.cons_append, List.cons_append, hloop] at h
    rw [← fieldsText_cons] at h
    obtain ⟨mid, hmid, h⟩ := Option.bind_eq_some_iff.mp h
    rw [hlist] at hmid
    rw [hlist', hlen] at h
    refine ⟨mid, httpParseHeadLine_call hnum (by decide) hsplit hmid, ih (s.next_between _ _) (Nat.succ_ne_zero _)
      ?_ h⟩
    intro p hp
    rw [← hlen]
    exact splitBehind_lt hsplit p hp

/-- The request line leads to the first call. -/
theorem requestLine_lines {request : List Byte} (hne : request ≠ [])
    (hplain : ∀ c ∈ request, c ≠ ch '\r' ∧ c ≠ ch '\n') (rest last : List Byte) :
    headLinesLoop (request ++ crlf ++ rest ++ last) 0 {} = lineCall {} 0 request ::
      headLinesLoop (rest ++ last) (request ++ crlf).length (HeadScan.next {} 0 request) := by
  have hlist : request ++ crlf ++ rest ++ last = request ++ ch '\r' :: ch '\n' :: (rest ++ last) := by
    simp [crlf]
  have hlen : (request.length : Int) + 2 = ((request ++ crlf).length : Nat) := by simp [crlf]
  rw [hlist, ← hlen, ← headLines_first hne hplain]
  rfl

/-- The state in front of the request line. -/
def requestStart (info : Http) (len : Int) (request : List Byte) : Http :=
  { (httpInit info).withInt fun i => { i with headerLen := i.headerLen + len } with tmpFlag := lineFlag request }

/-- **A head leads to the call of its request line and to the calls of its lines.** -/
theorem httpParseHead_calls {request : List Byte} (hne : request ≠ [])
    (hplain : ∀ c ∈ request, c ≠ ch '\r' ∧ c ≠ ch '\n') (lines : List FieldLine) {last post : List Byte}
    (hlast : last = [] ∨ last = crlf) {info r : Http}
    (h : (httpParseHead (request ++ crlf ++ fieldsText lines ++ last).length info).run
      (Memory.ofList (request ++ crlf ++ fieldsText lines ++ last ++ post)) = some r) :
    ∃ (len : Nat) (first r' : Http), (parseMethod 0 request.length (requestStart info len request)).run
        (Memory.ofList (request ++ crlf ++ fieldsText lines ++ last ++ post)) = some first ∧
      Calls lines first.countLine r' ∧ r = httpSetState r' .head := by
  obtain ⟨data, hdata, hparse⟩ := Option.bind_eq_some_iff.mp h
  obtain ⟨r', hloop, hstate⟩ := Option.bind_eq_some_iff.mp hparse
  obtain rfl := Option.some.inj hstate
  have hslice := Access.slice_ofList [] (request ++ crlf ++ fieldsText lines ++ last) post
  rw [List.nil_append] at hslice
  obtain rfl := Option.some.inj (hdata.symm.trans hslice)
  rw [httpParseHeadLoop_lines, requestLine_lines hne hplain] at hloop
  obtain ⟨mid, hrequest, hlines⟩ := Option.bind_eq_some_iff.mp hloop
  obtain ⟨first, hfirst, hmid⟩ := Option.bind_eq_some_iff.mp hrequest
  obtain rfl := Option.some.inj hmid
  have hlen : ((request ++ crlf).length : Int) = 0 + request.length + 2 := by simp [crlf]
  have hsplit : ∀ p ∈ (HeadScan.next {} 0 request).split, p < ((request ++ crlf).length : Int) := by
    intro p hp
    rw [hlen]
    exact splitBehind_lt (fun q hq => by cases hq) p hp
  have hsecond : (HeadScan.next {} 0 request).num ≠ 0 := Nat.succ_ne_zero 0
  have hcalls := httpParseLines_calls hlast lines (HeadScan.next_between _ _ _) hsecond hsplit hlines
  refine ⟨(request ++ crlf ++ fieldsText lines ++ last).length, first, r', ?_, hcalls, rfl⟩
  have hstop : ((request.length : Int) - 0) = request.length := Int.sub_zero _
  change (parseMethod 0 (0 + (request.length : Int) - 0) _).run _ = some first at hfirst
  rw [Int.zero_add, hstop] at hfirst
  exact hfirst

end WafProxy
