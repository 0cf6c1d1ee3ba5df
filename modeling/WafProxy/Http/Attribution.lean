import Mathlib.Data.List.Induction
import WafProxy.Http.FieldLines
import WafProxy.Http.StoredText

/-
  Which line a header field comes from — `http_parse_head` of http.c,
  `http_match_header_table` of http_header.c

  What is proved:
    1. `HeaderFn.call_called` — what a header function makes of `host`, `agent`,
       `reference` and `location`.
    2. `LineCall.attributes` — what the call of a line changes of the four comes
       from that line alone.
    3. `head_attributed` — behind a head each of the four is the decoded value of
       the last line that names it and has one.

  Correspondence (C ↔ Lean):
    a line behind the request line         ↔ `HeaderText`
    the name and the value found in it     ↔ `HeaderText.name`, `HeaderText.value`
-/

namespace WafProxy
open Lib

/-- A line behind the request line. -/
structure HeaderText where
  text : List Byte
  ne : text ≠ []
  plain : ∀ c ∈ text, c ≠ ch '\r' ∧ c ≠ ch '\n' ∧ c ≠ 0
  start : ∀ c ∈ text.head?, isspace c = false
  length : text.length ≤ 4000
  /-- only spaces and tabs stand between a name and its colon -/
  blanks : ch ':' ∈ text →
    ∀ c ∈ (text.takeWhile (· ≠ ch ':')).reverse.takeWhile isspace, c = ch ' ' ∨ c = ch '\t'

namespace HeaderText

/-- The text in front of the first colon. -/
def before (l : HeaderText) : List Byte := l.text.takeWhile (· ≠ ch ':')

def name (l : HeaderText) : List Byte := stripText l.before

/-- The text behind the first colon without white space and colons around it. -/
def value (l : HeaderText) : List Byte := stripText (l.text.drop (l.before.length + 1))

def flag (l : HeaderText) : DecodeFlag := lineFlag l.text

/-- The line has the name, in any letter case. -/
def named (key : List Byte) (l : HeaderText) : Bool :=
  ch ':' ∈ l.text ∧ l.name.map tolower = key.map tolower

end HeaderText

/-- The decoded value of the last of the lines that has the name and a value. -/
def lastValue (key : List Byte) (lines : List HeaderText) : Option (List Byte) :=
  ((lines.filter fun l => l.named key && decide (l.value ≠ [])).getLast?).map fun l => decodedText l.flag l.value

/-- What a field becomes line by line. -/
def lastStored (key : List Byte) (x : XStr) (lines : List HeaderText) : XStr :=
  lines.foldl (fun x l => if l.named key then x.store l.flag l.value else x) x

/-- What the lines make of the four fields and of the number of lines. -/
structure Attributes (lines : List HeaderText) (info r : Http) : Prop where
  host : r.str.host = lastStored (str "host") info.str.host lines
  agent : r.str.agent = lastStored (str "User-Agent") info.str.agent lines
  reference : r.str.reference = lastStored (str "Referer") info.str.reference lines
  location : r.str.location = lastStored (str "location") info.str.location lines
  number : r.httpInt.headerLineNum = info.httpInt.headerLineNum + lines.length

/-! ## The header functions -/

/-- What a header function, if any, makes of the four fields. -/
structure Called (f : Option HeaderFn) (value : List Byte) (info r : Http) : Prop where
  host : r.str.host = if f = some .ho then info.str.host.store info.tmpFlag value else info.str.host
  agent : r.str.agent = if f = some .us then info.str.agent.store info.tmpFlag value else info.str.agent
  reference : r.str.reference =
    if f = some .re then info.str.reference.store info.tmpFlag value else info.str.reference
  location : r.str.location =
    if f = some .lo then info.str.location.store info.tmpFlag value else info.str.location
  number : r.httpInt.headerLineNum = info.httpInt.headerLineNum

/-- The four fields and the number of lines are as they were. -/
structure Untouched (info r : Http) : Prop where
  host : r.str.host = info.str.host
  agent : r.str.agent = info.str.agent
  reference : r.str.reference = info.str.reference
  location : r.str.location = info.str.location
  number : r.httpInt.headerLineNum = info.httpInt.headerLineNum

theorem Untouched.refl (info : Http) : Untouched info info := ⟨rfl, rfl, rfl, rfl, rfl⟩

theorem Untouched.trans {a b c : Http} (h : Untouched a b) (h' : Untouched b c) : Untouched a c where
  host := h'.host.trans h.host
  agent := h'.agent.trans h.agent
  reference := h'.reference.trans h.reference
  location := h'.location.trans h.location
  number := h'.number.trans h.number

theorem untouched_writes : HeaderWrites Untouched where
  refl := Untouched.refl
  trans := Untouched.trans
  str _ _ h := ⟨h.host, h.agent, h.reference, h.location, rfl⟩
  httpInt _ _ h _ := ⟨rfl, rfl, rfl, rfl, h⟩
  logic _ _ _ := ⟨rfl, rfl, rfl, rfl, rfl⟩
  dashes _ _ := ⟨rfl, rfl, rfl, rfl, rfl⟩

theorem Untouched.called {info r : Http} (h : Untouched info r) {f : Option HeaderFn} {value : List Byte}
    (hf : f ≠ some .ho ∧ f ≠ some .us ∧ f ≠ some .lo ∧ f ≠ some .re) : Called f value info r where
  host := by rw [if_neg hf.1, h.host]
  agent := by rw [if_neg hf.2.1, h.agent]
  reference := by rw [if_neg hf.2.2.2, h.reference]
  location := by rw [if_neg hf.2.2.1, h.location]
  number := h.number

theorem Untouched.called_none {info r : Http} (h : Untouched info r) {value : List Byte} :
    Called none value info r := h.called (by decide)

/-- **What a header function does with the value it is given.** -/
theorem HeaderFn.call_called {f : HeaderFn} {front value post : List Byte} {info r : Http}
    (h : (f.call front.length value.length info).run (Memory.ofList (front ++ value ++ post)) = some r) :
    Called (some f) value info r := by
  have hset : ∀ {x y : XStr}, (httpSetStr info.tmpFlag x front.length value.length).run
      (Memory.ofList (front ++ value ++ post)) = some y → y = x.store info.tmpFlag value := by
    intro x y hy
    rw [httpSetStr_run] at hy
    exact (Option.some.inj hy).symm
  cases f with
  | ho =>
    obtain ⟨y, hy, h⟩ := Option.bind_eq_some_iff.mp h
    obtain rfl := Option.some.inj h
    exact ⟨by rw [if_pos rfl, ← hset hy]; rfl, rfl, rfl, rfl, rfl⟩
  | us =>
    obtain ⟨y, hy, h⟩ := Option.bind_eq_some_iff.mp h
    obtain rfl := Option.some.inj h
    exact ⟨rfl, by rw [if_pos rfl, ← hset hy]; rfl, rfl, rfl, rfl⟩
  | re =>
    obtain ⟨y, hy, h⟩ := Option.bind_eq_some_iff.mp h
    obtain rfl := Option.some.inj h
    exact ⟨rfl, rfl, by rw [if_pos rfl, ← hset hy]; rfl, rfl, rfl⟩
  | lo =>
    obtain ⟨y, hy, h⟩ := Option.bind_eq_some_iff.mp h
    obtain rfl := Option.some.inj h
    exact ⟨rfl, rfl, rfl, by rw [if_pos rfl, ← hset hy]; rfl, rfl⟩
  | coo =>
    obtain ⟨x, cnt, rfl⟩ := parseCoo_writes _ _ h
    have huntouched : Untouched info ((info.withStr fun s => { s with cookie := x }).withInt fun i =>
        { i with headerCookieNum := cnt }) := ⟨rfl, rfl, rfl, rfl, rfl⟩
    exact huntouched.called (by decide)
  | au | ac | ace | conl | cont | conn | cone | ra | set | tr | xp | xpb | xa | xf =>
    have huntouched := HeaderFn.call_writes untouched_writes (by decide) _ _ h
    exact huntouched.called (by decide)

/-! ## One line -/

namespace HeaderText
variable (l : HeaderText)

/-- The same line, of which only the plain characters and the start are known. -/
def field : FieldLine where
  text := l.text
  ne := l.ne
  plain c hc := ⟨(l.plain c hc).1, (l.plain c hc).2.1⟩
  start := l.start

/-- A blank or the colon stands behind the name. -/
theorem name_ends (h : ch ':' ∈ l.text) : endsName l.field.behind = true := by
  have hblank : ∀ c ∈ l.field.gap, c = ch ' ' ∨ c = ch '\t' := by
    intro c hc
    have hmem := List.mem_reverse.mp hc
    rw [takeWhile_stripped fun hmem => l.field.before_plain (List.mem_reverse.mp hmem)] at hmem
    exact l.blanks h c hmem
  unfold FieldLine.behind
  cases hgap : l.field.gap with
  | nil => decide
  | cons c gap =>
    rw [List.head?_cons, Option.getD_some]
    rcases hblank c (by rw [hgap]; exact List.mem_cons_self) with rfl | rfl
    · decide
    · decide

theorem field_fn (h : ch ':' ∈ l.text) : l.field.fn = headerFn l.name := if_pos ⟨h, l.name_ends h⟩

theorem field_fn_plain (h : ch ':' ∉ l.text) : l.field.fn = none := if_neg fun hc => h hc.1

end HeaderText

/-! ## The lines of a head -/

/-- What one line makes of a field. -/
theorem lastStored_single (key : List Byte) (x : XStr) (l : HeaderText) :
    lastStored key x [l] = if l.named key then x.store l.flag l.value else x := rfl

theorem lastStored_cons (key : List Byte) (x : XStr) (l : HeaderText) (lines : List HeaderText) :
    lastStored key (lastStored key x [l]) lines = lastStored key x (l :: lines) := rfl

theorem Attributes.cons {l : HeaderText} {lines : List HeaderText} {a b c : Http} (h : Attributes [l] a b)
    (h' : Attributes lines b c) : Attributes (l :: lines) a c where
  host := by rw [h'.host, h.host, lastStored_cons]
  agent := by rw [h'.agent, h.agent, lastStored_cons]
  reference := by rw [h'.reference, h.reference, lastStored_cons]
  location := by rw [h'.location, h.location, lastStored_cons]
  number := by
    rw [h'.number, h.number]
    simp only [List.length_cons, List.length_nil]
    omega

/-- The function found for a name with a colon behind it, and the field it stores. -/
theorem Called.attributes {l : HeaderText} {info r : Http} (hcolon : ch ':' ∈ l.text)
    (h : Called (headerFn l.name) l.value { info with tmpFlag := l.flag } r) :
    Attributes [l] info (r.withInt fun i => { i with headerLineNum := i.headerLineNum + 1 }) := by
  have hnamed : ∀ key, l.named key = true ↔ l.name.map tolower = key.map tolower := by
    intro key
    simp [HeaderText.named, hcolon]
  have hiff : ∀ {f : HeaderFn} {key : List Byte}, (key, f) ∈ httpHeaderTable →
      (∀ e ∈ httpHeaderTable, e.2 = f ↔ e.1.map tolower = key.map tolower) →
      (headerFn l.name = some f ↔ l.named key = true) :=
    fun hmem hkey => (headerFn_iff hmem hkey l.name).trans (hnamed _).symm
  exact {
    host := h.host.trans (if_congr (hiff (by decide) (by decide)) rfl rfl)
    agent := h.agent.trans (if_congr (hiff (by decide) (by decide)) rfl rfl)
    reference := h.reference.trans (if_congr (hiff (by decide) (by decide)) rfl rfl)
    location := h.location.trans (if_congr (hiff (by decide) (by decide)) rfl rfl)
    number := congrArg (· + 1) h.number }

/-- A line without a colon, and the request line, change none of the fields. -/
theorem Untouched.attributes {l : HeaderText} {info r : Http} (hcolon : ch ':' ∉ l.text)
    (h : Untouched { info with tmpFlag := l.flag } r) :
    Attributes [l] info (r.withInt fun i => { i with headerLineNum := i.headerLineNum + 1 }) := by
  have hnamed : ∀ (key : List Byte) (x : XStr), lastStored key x [l] = x := by
    intro key x
    rw [lastStored_single, if_neg (by simp [HeaderText.named, hcolon])]
  exact {
    host := h.host.trans (hnamed _ _).symm
    agent := h.agent.trans (hnamed _ _).symm
    reference := h.reference.trans (hnamed _ _).symm
    location := h.location.trans (hnamed _ _).symm
    number := congrArg (· + 1) h.number }

/-- **What the call of one line changes**, whatever the lines in front of it have left. -/
theorem LineCall.attributes {l : HeaderText} {info r : Http} (h : LineCall l.field info r) :
    Attributes [l] info r := by
  obtain ⟨r', hcall, rfl⟩ := h
  cases hcall with
  | @none max hfn =>
    by_cases hcolon : ch ':' ∈ l.text
    · rw [l.field_fn hcolon] at hfn
      have huntouched : Untouched { info with tmpFlag := l.flag } (info.atLine l.flag max) :=
        ⟨rfl, rfl, rfl, rfl, rfl⟩
      apply Called.attributes hcolon
      rw [hfn]
      exact huntouched.called_none
    · exact Untouched.attributes hcolon ⟨rfl, rfl, rfl, rfl, rfl⟩
  | some hfn _ hrun =>
    by_cases hcolon : ch ':' ∈ l.text
    · rw [l.field_fn hcolon] at hfn
      have hcalled := HeaderFn.call_called hrun
      apply Called.attributes hcolon
      rw [hfn]
      exact ⟨hcalled.host, hcalled.agent, hcalled.reference, hcalled.location, hcalled.number⟩
    · rw [l.field_fn_plain hcolon] at hfn
      cases hfn

/-! ## All lines -/

/-- The lines, each with its CRLF. -/
def linesText (lines : List HeaderText) : List Byte := lines.flatMap fun l => l.text ++ crlf

theorem linesText_fields (lines : List HeaderText) : linesText lines = fieldsText (lines.map HeaderText.field) := by
  rw [fieldsText, List.flatMap_map]
  rfl

/-- **What the lines of a head make of the four fields.** -/
theorem Calls.attributes (lines : List HeaderText) : ∀ {info r : Http}, Calls (lines.map HeaderText.field) info r →
    Attributes lines info r := by
  induction lines with
  | nil =>
    intro info r h
    obtain rfl : r = info := h
    exact ⟨rfl, rfl, rfl, rfl, by simp⟩
  | cons l lines ih =>
    intro info r h
    obtain ⟨mid, hline, hlines⟩ := h
    exact hline.attributes.cons (ih hlines)

/-! ## The head -/

/-- **The request line changes none of the fields.** -/
theorem HeaderKept.untouched {info r : Http} (h : HeaderKept info r) : Untouched info r :=
  ⟨h.fields.host, h.fields.agent, h.fields.reference, h.fields.location, congrArg Prod.fst h.counts⟩

theorem HeaderText.value_length (l : HeaderText) : l.value.length ≤ 4000 := by
  obtain ⟨trail, hsplit, -⟩ := stripText_split (l.text.drop (l.before.length + 1))
  have hlen := congrArg List.length hsplit
  simp only [List.length_append, List.length_drop] at hlen
  have hline := l.length
  unfold HeaderText.value
  omega

/-- A field that no line has set yet holds the last value. -/
theorem lastStored_eq (key : List Byte) (lines : List HeaderText) :
    (lastStored key {} lines).p = lastValue key lines := by
  induction lines using List.reverseRecOn with
  | nil => rfl
  | append_singleton lines l ih =>
    have hsnoc : lastStored key {} (lines ++ [l]) =
        if l.named key then (lastStored key {} lines).store l.flag l.value else lastStored key {} lines := by
      rw [lastStored, List.foldl_append]
      rfl
    rw [hsnoc, lastValue, List.filter_append, List.filter_singleton]
    by_cases hnamed : l.named key = true
    · by_cases hvalue : l.value = []
      · -- an empty value leaves the field as it is
        rw [if_pos hnamed, XStr.store, if_pos hvalue, ih, lastValue]
        simp [hnamed, hvalue]
      · have hlen : l.value.length < DECODE_BUF := Nat.lt_of_le_of_lt l.value_length (by decide)
        rw [if_pos hnamed, XStr.store, if_neg hvalue, ofText_decoded hvalue hlen]
        simp [hnamed, hvalue]
    · rw [if_neg hnamed, ih, lastValue]
      simp [hnamed]

/-- A head: the request line, the lines behind it, and perhaps the empty line. -/
def requestHead (request : List Byte) (lines : List HeaderText) (closed : Bool) : List Byte :=
  request ++ crlf ++ linesText lines ++ if closed then crlf else []

/-- What `http_parse_head` should leave. -/
structure Attributed (lines : List HeaderText) (r : Http) : Prop where
  host : r.str.host.p = lastValue (str "host") lines
  agent : r.str.agent.p = lastValue (str "User-Agent") lines
  reference : r.str.reference.p = lastValue (str "Referer") lines
  location : r.str.location.p = lastValue (str "location") lines
  number : r.httpInt.headerLineNum = lines.length + 1

/-- **Which line a header field comes from.** Behind a head `host`, `agent`, `reference` and
`location` are each the value of the last line that has the name and a value, decoded as the
escape characters of that line say, and the number of lines is counted; whatever stands in
the lines, in front of the head or behind it. -/
theorem head_attributed {request : List Byte} (hne : request ≠ [])
    (hplain : ∀ c ∈ request, c ≠ ch '\r' ∧ c ≠ ch '\n') (lines : List HeaderText) (closed : Bool)
    {post : List Byte} {info r : Http}
    (h : (httpParseHead (requestHead request lines closed).length info).run
      (Memory.ofList (requestHead request lines closed ++ post)) = some r) : Attributed lines r := by
  unfold requestHead at h
  generalize hlast : (if closed then crlf else []) = last at h
  have hlast' : last = [] ∨ last = crlf := by
    rw [← hlast]
    cases closed
    · exact Or.inl rfl
    · exact Or.inr rfl
  rw [linesText_fields] at h
  obtain ⟨len, first, r', hrequest, hcalls, rfl⟩ := httpParseHead_calls hne hplain _ hlast' h
  have huntouched := (parseMethod_kept _ _ hrequest).untouched
  have hattributes := Calls.attributes lines hcalls
  have hfield : ∀ {key : List Byte} {x y z : XStr}, x = lastStored key y lines → y = z → z = {} →
      x.p = lastValue key lines := by
    intro key x y z hx hy hz
    rw [hx, hy, hz, lastStored_eq]
  exact {
    host := hfield hattributes.host huntouched.host rfl
    agent := hfield hattributes.agent huntouched.agent rfl
    reference := hfield hattributes.reference huntouched.reference rfl
    location := hfield hattributes.location huntouched.location rfl
    number := by
      have hnumber := hattributes.number
      have hfirst : first.httpInt.headerLineNum = 0 := huntouched.number
      change r'.httpInt.headerLineNum = first.httpInt.headerLineNum + 1 + lines.length at hnumber
      show r'.httpInt.headerLineNum = lines.length + 1
      omega }

/-- `Host: a`. -/
def hostLine : HeaderText where
  text := str "Host: a"
  ne := by decide
  plain := forall_text (by decide)
  start c hc := by
    rw [← Option.some.inj hc]
    decide
  length := by decide
  blanks _ := forall_text (by decide)

/-- A line without a colon. -/
def plainLine : HeaderText where
  text := str "x"
  ne := by decide
  plain := forall_text (by decide)
  start c hc := by
    rw [← Option.some.inj hc]
    decide
  length := by decide
  blanks h := absurd h (by decide)

/-- The host again, encoded. -/
def hostAgain : HeaderText where
  text := str "HOST : %62"
  ne := by decide
  plain := forall_text (by decide)
  start c hc := by
    rw [← Option.some.inj hc]
    decide
  length := by decide
  blanks _ := forall_text (by decide)

example : lastValue (str "host") [hostLine, plainLine, hostAgain] = some (str "b") := by decide +kernel

theorem head_attributed_three :
    ∃ r, (httpParseHead (requestHead (str "GET / HTTP/1.1") [hostLine, plainLine, hostAgain] true).length {}).run
      (Memory.ofList (requestHead (str "GET / HTTP/1.1") [hostLine, plainLine, hostAgain] true ++ [])) = some r ∧
      Attributed [hostLine, plainLine, hostAgain] r := by
  obtain ⟨r, hr⟩ : ∃ r,
      (httpParseHead (requestHead (str "GET / HTTP/1.1") [hostLine, plainLine, hostAgain] true).length {}).run
        (Memory.ofList (requestHead (str "GET / HTTP/1.1") [hostLine, plainLine, hostAgain] true ++ [])) = some r :=
    Option.isSome_iff_exists.mp (by decide +kernel)
  exact ⟨r, hr, head_attributed (by decide) (forall_text (by decide)) [hostLine, plainLine, hostAgain] true hr⟩

end WafProxy
