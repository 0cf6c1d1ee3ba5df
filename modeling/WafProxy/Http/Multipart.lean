import WafProxy.Http.Boundary
import WafProxy.Http.ContentLength
import WafProxy.Http.UrlArgs

/-
  The arguments of a multipart body — http_form.c

  A body is read part by part: the label, the lines of the part's head up to the
  empty one, the content with the next delimiter behind it, which is cut off when
  its last byte is met. The end of the message cuts once more.

  What is proved:
    1. `loop_head` — the lines of a head are read up to the empty one.
    2. `loop_part` — a part whose delimiter is met is recorded with its content.
    3. `form_detected` — a body whose delimiters are all met, up to its end.
    4. `form_recorded` — the parts of such a body are recorded when the second cut
       finds nothing to take off.
-/

namespace WafProxy
open Lib

/-! ## Bodies -/

/-- A part: the lines of its head, and its content. -/
structure Part where
  lines : List (List Byte)
  value : List Byte

/-- The lines of a head, each behind a line break, and the empty line. -/
def Part.head (p : Part) : List Byte := (p.lines.flatMap fun l => str "\r\n" ++ l) ++ str "\r\n\r\n"

/-- What stands behind a label: the parts, and the end of the body. -/
def formTail (boundary : List Byte) : List Part → List Byte
  | [] => str "--\r\n"
  | p :: parts => p.head ++ p.value ++ str "\r\n" ++ str "--" ++ boundary ++ formTail boundary parts

/-- A whole body. -/
def formText (boundary : List Byte) (parts : List Part) : List Byte :=
  str "--" ++ boundary ++ formTail boundary parts

/-- What `label` has no room for. -/
def labelTail (boundary : List Byte) : List Byte := (str "--" ++ boundary).drop 255

theorem label_split (boundary : List Byte) : str "--" ++ boundary = labelOf boundary ++ labelTail boundary :=
  (List.take_append_drop _ _).symm

/-! ## The head of a part -/

/-- `form_header_state` behind a byte; 4 is the end of the head. -/
def lineState (state : Nat) (c : Byte) : Nat :=
  if c = ch '\r' then if state = 0 then 1 else if state = 2 then 3 else state
  else if c = ch '\n' then if state = 1 then 2 else if state = 3 then 4 else state
  else 0

/-- No byte of the text ends the head. -/
def headGoesOn : Nat → List Byte → Prop
  | _, [] => True
  | state, c :: text => lineState state c ≠ 4 ∧ headGoesOn (lineState state c) text

/-- `form_header_state` behind a text. -/
def linesState (state : Nat) (text : List Byte) : Nat := text.foldl lineState state

theorem linesState_append (state : Nat) (a b : List Byte) :
    linesState state (a ++ b) = linesState (linesState state a) b := List.foldl_append

theorem headGoesOn_append {a b : List Byte} : ∀ {state : Nat}, headGoesOn state (a ++ b) ↔
    headGoesOn state a ∧ headGoesOn (linesState state a) b := by
  induction a with
  | nil => exact ⟨fun h => ⟨trivial, h⟩, fun h => h.2⟩
  | cons c a ih =>
    intro state
    show lineState state c ≠ 4 ∧ headGoesOn (lineState state c) (a ++ b) ↔ _
    rw [ih]
    exact and_assoc.symm

/-- The text of one line. -/
structure LineText (l : List Byte) : Prop where
  cr : ch '\r' ∉ l
  lf : ch '\n' ∉ l

theorem lineState_text {state : Nat} {c : Byte} (hcr : c ≠ ch '\r') (hlf : c ≠ ch '\n') :
    lineState state c = 0 := by
  simp [lineState, hcr, hlf]

/-- The text of a line does not end the head, and is followed by the state 0. -/
theorem line_goesOn {l : List Byte} (h : LineText l) :
    ∀ state, headGoesOn state l ∧ linesState state l = if l = [] then state else 0 := by
  induction l with
  | nil => exact fun _ => ⟨trivial, rfl⟩
  | cons c l ih =>
    intro state
    have hc : lineState state c = 0 := by
      refine lineState_text (fun heq => h.cr ?_) fun heq => h.lf ?_
      · exact heq ▸ List.mem_cons_self
      · exact heq ▸ List.mem_cons_self
    have hl : LineText l :=
      ⟨fun hmem => h.cr (List.mem_cons_of_mem _ hmem), fun hmem => h.lf (List.mem_cons_of_mem _ hmem)⟩
    obtain ⟨hgo, hstate⟩ := ih hl 0
    refine ⟨⟨by rw [hc]; decide, by rw [hc]; exact hgo⟩, ?_⟩
    show linesState (lineState state c) l = _
    rw [hc, hstate, if_neg (List.cons_ne_nil c l)]
    split <;> rfl

/-- The lines of a head do not end it. -/
theorem lines_goOn : ∀ lines : List (List Byte), (∀ l ∈ lines, l ≠ [] ∧ LineText l) →
    headGoesOn 0 (lines.flatMap fun l => str "\r\n" ++ l) ∧
      linesState 0 (lines.flatMap fun l => str "\r\n" ++ l) = 0 := by
  intro lines
  induction lines with
  | nil => exact fun _ => ⟨trivial, rfl⟩
  | cons l lines ih =>
    intro h
    obtain ⟨hl, hlines⟩ := List.forall_mem_cons.mp h
    obtain ⟨hgo, hstate⟩ := line_goesOn hl.2 2
    rw [if_neg hl.1] at hstate
    obtain ⟨hgo', hstate'⟩ := ih hlines
    have hbreak : headGoesOn 0 (str "\r\n") ∧ linesState 0 (str "\r\n") = 2 :=
      ⟨⟨by decide, by decide, trivial⟩, rfl⟩
    rw [List.flatMap_cons]
    refine ⟨?_, ?_⟩
    · rw [headGoesOn_append, headGoesOn_append, linesState_append, hbreak.2, hstate]
      exact ⟨⟨hbreak.1, hgo⟩, hgo'⟩
    · rw [linesState_append, linesState_append, hbreak.2, hstate, hstate']

/-- One byte of a head, while there is room in `cache_buf` or none. -/
theorem httpWaitLineStr_byte {loc : HttpLocal} (c : Byte) (hcache : loc.cacheBuf.length ≤ 511)
    (hstate : loc.formHeaderState < 4) :
    httpWaitLineStr c loc = some
      (if lineState loc.formHeaderState c = 4 then
        (some ((loc.cacheBuf ++ [c]).take 511), { loc with cacheBuf := [], formHeaderState := 0 })
      else (none, { loc with
        cacheBuf := (loc.cacheBuf ++ [c]).take 511
        formHeaderState := lineState loc.formHeaderState c })) := by
  have hbyte : cacheByte loc c = some { loc with cacheBuf := (loc.cacheBuf ++ [c]).take 511 } := by
    unfold cacheByte
    rcases Nat.lt_or_ge loc.cacheBuf.length 511 with hlt | hge
    · rw [if_pos hlt, List.take_of_length_le (by rw [List.length_append, List.length_singleton]; omega)]
    · rw [if_neg (Nat.not_lt.mpr hge), if_pos (Nat.le_antisymm hcache hge),
        List.take_append_of_le_length hge, List.take_of_length_le hcache]
  unfold httpWaitLineStr
  rw [hbyte, Option.map_some]
  unfold lineState
  obtain h | h | h | h : loc.formHeaderState = 0 ∨ loc.formHeaderState = 1 ∨
      loc.formHeaderState = 2 ∨ loc.formHeaderState = 3 := by omega
  all_goals
    simp only [h]
    by_cases hcr : c = ch '\r'
    · simp [hcr]
    · by_cases hlf : c = ch '\n'
      · simp [hlf, show ch '\n' ≠ ch '\r' by decide]
      · simp [hcr, hlf]

theorem lineState_lt {state : Nat} {c : Byte} (h : state < 4) (hne : lineState state c ≠ 4) :
    lineState state c < 4 := by
  unfold lineState at *
  repeat' split at *
  all_goals omega

/-- What is cut off early is cut off later, too. -/
theorem take_take_append (n : Nat) (a b : List Byte) : (a.take n ++ b).take n = (a ++ b).take n := by
  have hlen : n - min n a.length = n - a.length := by omega
  rw [List.take_append, List.take_append, List.take_take, Nat.min_self, List.length_take, hlen]

/-- The arguments recorded so far, the last of which `cur` points to. -/
def tableOf (items : List HttpArg) : HttpArgCtrl where
  cur := if items = [] then none else some (items.length - 1)
  maxNum := 32
  arg := items

theorem tableOf_concat (items : List HttpArg) (item : HttpArg) :
    tableOf (items ++ [item]) = tableWith items item := by
  simp [tableOf, tableWith]

theorem tableOf_empty {items : List HttpArg} (h : items.length < 32) :
    httpGetEmptyArg (tableOf items) = tableWith items {} := by
  unfold httpGetEmptyArg
  rw [if_neg (show ¬ (tableOf items).maxNum ≤ (tableOf items).arg.length from Nat.not_le.mpr h)]
  rfl

/-- `local_t` behind a label: `t` dashes are counted. -/
structure BehindLabel (boundary : List Byte) (t : Nat) (loc : HttpLocal) : Prop where
  status : loc.formStatus = .header
  flag : loc.formFlag = .arg
  line : loc.formHeaderState = 0
  cnt : loc.boundaryCnt = dashCount boundary
  reads : Reads loc ⟨t, none⟩

/-- The parser behind a label: `items` are recorded, `t` dashes are counted. -/
structure AtHeader (boundary : List Byte) (items : List HttpArg) (t : Nat) (info : Http) : Prop where
  status : info.loc.formStatus = .header
  flag : info.loc.formFlag = .arg
  line : info.loc.formHeaderState = 0
  cnt : info.loc.boundaryCnt = dashCount boundary
  reads : Reads info.loc ⟨t, none⟩
  arg : info.arg = tableOf items

theorem AtHeader.behind {boundary : List Byte} {items : List HttpArg} {t : Nat} {info : Http}
    (h : AtHeader boundary items t info) : BehindLabel boundary t info.loc :=
  ⟨h.status, h.flag, h.line, h.cnt, h.reads⟩

section
variable {boundary : List Byte} {items : List HttpArg} {t : Nat} {info : Http} {label rest : List Byte}

/-- Within a head. -/
def inHead (info : Http) (cache : List Byte) (state : Nat) : Http :=
  { info with loc := { info.loc with cacheBuf := cache, formHeaderState := state } }

/-- The bytes of a head in front of the one that ends it. -/
theorem loop_lines (name : List Byte) : ∀ (text : List Byte) (info : Http), info.loc.formStatus = .header →
    info.loc.cacheBuf.length ≤ 511 → info.loc.formHeaderState < 4 →
    headGoesOn info.loc.formHeaderState text →
    httpParseFormLoop label (text ++ rest) info name = httpParseFormLoop label rest
      (inHead info ((info.loc.cacheBuf ++ text).take 511) (linesState info.loc.formHeaderState text)) name := by
  intro text
  induction text with
  | nil =>
    intro info _ hcache _ _
    rw [List.nil_append, List.append_nil, List.take_of_length_le hcache]
    rfl
  | cons c text ih =>
    intro info hstatus hcache hstate hgo
    have hbyte := httpWaitLineStr_byte c hcache hstate
    rw [if_neg hgo.1] at hbyte
    have hheader : formHeader c info name = some (inHead info ((info.loc.cacheBuf ++ [c]).take 511)
        (lineState info.loc.formHeaderState c), name, false) := by
      unfold formHeader
      rw [hbyte]
      rfl
    have hnext := ih (inHead info ((info.loc.cacheBuf ++ [c]).take 511)
      (lineState info.loc.formHeaderState c)) hstatus (List.length_take_le _ _)
      (lineState_lt hstate hgo.1) hgo.2
    have htake : ((info.loc.cacheBuf ++ [c]).take 511 ++ text).take 511 =
        (info.loc.cacheBuf ++ c :: text).take 511 := by
      rw [take_take_append, List.append_assoc, List.singleton_append]
    rw [List.cons_append, httpParseFormLoop, hstatus]
    simp only [hheader, Option.bind_some, Bool.false_eq_true, if_false]
    rw [hnext, show (inHead info ((info.loc.cacheBuf ++ [c]).take 511)
      (lineState info.loc.formHeaderState c)).loc.cacheBuf = (info.loc.cacheBuf ++ [c]).take 511 from rfl,
      htake]
    rfl

theorem strlstrText_none {pattern l : List Byte} (h : ¬ pattern <:+: l) : strlstrText pattern l = none := by
  induction l with
  | nil => rfl
  | cons c l ih =>
    unfold strlstrText
    rw [if_neg fun hprefix => h (List.isPrefixOf_iff_prefix.mp hprefix).isInfix]
    exact ih fun hl => h (hl.trans (List.suffix_cons c l).isInfix)

/-- A new item with this name, ready for its value. -/
def namedItem (name : List Byte) : HttpArg := { name := .text (name ++ [0]), argFlag := true }

/-- A part without a file name gets an argument. -/
theorem formArg_named {name : List Byte} (hflag : info.loc.formFlag = .arg)
    (hempty : httpGetEmptyArg info.arg = tableWith items {}) (hname : name.length < 4000) :
    formArg name info = some ({ info with arg := tableWith items (namedItem name) }, false) := by
  have hmax : APPEND_MAX = 4096 := rfl
  obtain ⟨item, happend, hnul⟩ : ∃ item : HttpArg,
      httpAppendArg name (tableWith items {}) = some (tableWith items item) ∧
        { item with argFlag := false }.append [0] = some { name := .text (name ++ [0]) } := by
    by_cases hnil : name = []
    · exact ⟨{}, by rw [hnil]; rfl, by rw [hnil]; rfl⟩
    · refine ⟨{ name := .text name }, tableWith_append (name_append hname) rfl hnil, ?_⟩
      unfold HttpArg.append
      simp only [Bool.false_eq_true, if_false]
      rw [text_append (by rw [List.length_singleton]; omega)]
      rfl
  unfold formArg
  rw [if_pos hflag, hempty]
  simp only [tableWith_cur, Option.some_ne_none, if_false, happend, Option.bind_eq_bind, Option.bind_some,
    tableWith_onCur, tableWith_append hnul rfl (List.cons_ne_nil 0 [])]
  rfl

/-- The bytes of a head that `cache_buf` holds when the head ends. -/
def headText (boundary : List Byte) (p : Part) : List Byte := (labelTail boundary ++ p.head).take 511

/-- A part without a file name, with lines for its head. -/
structure Part.Plain (boundary : List Byte) (p : Part) : Prop where
  line : ∀ l ∈ p.lines, l ≠ [] ∧ LineText l
  noFile : ¬ str "filename=\"" <:+: p.head

/-- A boundary as a line of the head has it, without quotes and not all dashes. -/
structure BoundaryOk (boundary : List Byte) : Prop where
  line : LineText boundary
  unquoted : ch '"' ∉ boundary
  other : ∃ c ∈ boundary, c ≠ ch '-'

theorem labelTail_subset {boundary : List Byte} {c : Byte} (h : c ∈ labelTail boundary) :
    c = ch '-' ∨ c ∈ boundary := by
  have hmem := (List.drop_subset _ _) h
  rcases List.mem_append.mp hmem with hin | hin
  · left
    simpa [str] using hin
  · exact Or.inr hin

theorem labelTail_line (hb : BoundaryOk boundary) : LineText (labelTail boundary) := by
  refine ⟨fun h => ?_, fun h => ?_⟩
  · rcases labelTail_subset h with heq | hin
    · exact absurd heq (by decide)
    · exact hb.line.cr hin
  · rcases labelTail_subset h with heq | hin
    · exact absurd heq (by decide)
    · exact hb.line.lf hin

/-- A head begins with a line break. -/
theorem Part.head_cons (p : Part) : ∃ rest, p.head = ch '\r' :: rest := by
  unfold Part.head
  cases p.lines with
  | nil => exact ⟨_, rfl⟩
  | cons l lines => exact ⟨_, rfl⟩

/-- No file name is found in what is cached of a head. -/
theorem headText_noFile (hb : BoundaryOk boundary) {p : Part} (hp : p.Plain boundary) :
    strlstrText (str "filename=\"") (headText boundary p) = none := by
  refine strlstrText_none fun h => ?_
  have hwhole := h.trans (List.take_prefix _ _).isInfix
  obtain ⟨rest, hhead⟩ := p.head_cons
  rw [hhead] at hwhole
  rcases WindowReader.infix_around (by decide) hwhole with hin | hin
  · -- the quote is not in the boundary
    have hquote : ch '"' ∈ labelTail boundary := hin.subset (by decide)
    rcases labelTail_subset hquote with heq | hmem
    · exact absurd heq (by decide)
    · exact hb.unquoted hmem
  · refine hp.noFile (hin.trans ?_)
    rw [hhead]
    exact (List.suffix_cons _ _).isInfix

/-- The name the part is recorded under: the one in its head, else the one before. -/
def partName (boundary : List Byte) (p : Part) (name : List Byte) : List Byte :=
  (httpGetFormLableValue (headText boundary p) (str "name=\"") 512).getD name

theorem partName_length {p : Part} {name : List Byte} (h : name.length < 4000) :
    (partName boundary p name).length < 4000 := by
  unfold partName
  cases hvalue : httpGetFormLableValue (headText boundary p) (str "name=\"") 512 with
  | none => exact h
  | some n =>
    obtain ⟨found, -, hvalue⟩ := Option.bind_eq_some_iff.mp hvalue
    obtain ⟨-, -, hvalue⟩ := Option.bind_eq_some_iff.mp hvalue
    cases hvalue
    rw [Option.getD_some, List.length_take]
    omega

/-- A head without the line feed that ends it. -/
def headFront (boundary : List Byte) (p : Part) : List Byte :=
  labelTail boundary ++ (p.lines.flatMap fun l => str "\r\n" ++ l) ++ str "\r\n\r"

theorem headFront_eq (boundary : List Byte) (p : Part) :
    labelTail boundary ++ p.head = headFront boundary p ++ [ch '\n'] := by
  unfold Part.head headFront
  simp only [List.append_assoc]
  rfl

theorem headFront_goesOn (hb : BoundaryOk boundary) {p : Part} (hline : ∀ l ∈ p.lines, l ≠ [] ∧ LineText l) :
    headGoesOn 0 (headFront boundary p) ∧ linesState 0 (headFront boundary p) = 3 := by
  obtain ⟨htail, htailState⟩ := line_goesOn (labelTail_line hb) 0
  obtain ⟨hlines, hlinesState⟩ := lines_goOn p.lines hline
  have hzero : linesState 0 (labelTail boundary) = 0 := by
    rw [htailState]
    split <;> rfl
  have hbreak : headGoesOn 0 (str "\r\n\r") ∧ linesState 0 (str "\r\n\r") = 3 :=
    ⟨⟨by decide, by decide, by decide, trivial⟩, rfl⟩
  unfold headFront
  refine ⟨?_, ?_⟩
  · rw [headGoesOn_append, headGoesOn_append, linesState_append, hzero, hlinesState]
    exact ⟨⟨htail, hlines⟩, hbreak.1⟩
  · rw [linesState_append, linesState_append, hzero, hlinesState, hbreak.2]

/-- Behind the line feed that ends a head. -/
def headEnd (info : Http) : Http := inHead { info with loc := { info.loc with formStatus := .body } } [] 0

/-- **A head is read up to its empty line**, and then looked through once. -/
theorem loop_headEnd (hb : BoundaryOk boundary) (h : BehindLabel boundary t info.loc) {p : Part}
    (hline : ∀ l ∈ p.lines, l ≠ [] ∧ LineText l) (name : List Byte) :
    httpParseFormLoop label (labelTail boundary ++ p.head ++ rest) info name =
      (formArg (partName boundary p name) (formFile (headText boundary p) (headEnd info))).bind fun out =>
        if out.2 then some (out.1, true) else httpParseFormLoop label rest out.1 (partName boundary p name) := by
  obtain ⟨hgo, hstate⟩ := headFront_goesOn hb hline
  have hcache : info.loc.cacheBuf = [] := (h.reads.idle rfl).1
  have hlines := @loop_lines label (ch '\n' :: rest) name (headFront boundary p) info h.status
    (by rw [hcache]; exact Nat.zero_le _) (by rw [h.line]; decide) (by rw [h.line]; exact hgo)
  rw [hcache, h.line, hstate, List.nil_append] at hlines
  -- the line feed of the empty line
  have hbyte := @httpWaitLineStr_byte (inHead info ((headFront boundary p).take 511) 3).loc (ch '\n')
    (List.length_take_le _ _) (by show 3 < 4; decide)
  rw [if_pos (by rfl), show (inHead info ((headFront boundary p).take 511) 3).loc.cacheBuf =
    (headFront boundary p).take 511 from rfl, take_take_append, ← headFront_eq,
    show (labelTail boundary ++ p.head).take 511 = headText boundary p from rfl] at hbyte
  have hheader : formHeader (ch '\n') (inHead info ((headFront boundary p).take 511) 3) name =
      (formArg (partName boundary p name) (formFile (headText boundary p) (headEnd info))).bind fun out =>
        some (out.1, partName boundary p name, out.2) := by
    unfold formHeader
    rw [hbyte]
    rfl
  rw [headFront_eq, List.append_assoc, List.singleton_append, hlines, httpParseFormLoop,
    show (inHead info ((headFront boundary p).take 511) 3).loc.formStatus = .header from h.status]
  simp only [hheader, Option.bind_assoc, Option.bind_some]

/-- The head of a part without a file name. -/
theorem loop_head (hb : BoundaryOk boundary) (h : AtHeader boundary items t info)
    (hroom : items.length < 32) {p : Part} (hp : p.Plain boundary) {name : List Byte}
    (hname : name.length < 4000) :
    ∃ r, httpParseFormLoop label (labelTail boundary ++ p.head ++ rest) info name =
        httpParseFormLoop label rest r (partName boundary p name) ∧
      InBody boundary r ⟨t, none⟩ ∧ r.loc.formFlag = .arg ∧ r.loc.formHeaderState = 0 ∧
      r.arg = tableWith items (namedItem (partName boundary p name)) ∧
      r.str = info.str ∧ r.logic = info.logic := by
  have hfile : formFile (headText boundary p) (headEnd info) = headEnd info := by
    unfold formFile httpGetFormLableValue
    rw [headText_noFile hb hp]
    rfl
  have hempty : httpGetEmptyArg (headEnd info).arg = tableWith items {} := by
    show httpGetEmptyArg info.arg = _
    rw [h.arg, tableOf_empty hroom]
  have harg := @formArg_named items (headEnd info) (partName boundary p name) h.flag hempty
    (partName_length hname)
  refine ⟨{ headEnd info with arg := tableWith items (namedItem (partName boundary p name)) }, ?_, ?_,
    h.flag, rfl, rfl, rfl, rfl⟩
  · rw [loop_headEnd hb h.behind hp.line, hfile, harg]
    rfl
  · refine ⟨rfl, h.cnt, ⟨h.reads.num, fun _ => ⟨rfl, (h.reads.idle rfl).2⟩, fun w hw => by cases hw⟩,
      WindowReader.sound_idle t, fun _ => ?_⟩
    rw [tableWith_item]
    exact Option.some_ne_none _

/-! ## The content of a part -/

/-- The value behind these bytes: what came after the 4095th is not stored. -/
def storedBytes (v : List Byte) : XStr := if v = [] then {} else .text (v.take 4095)

theorem storedBytes_append (v : List Byte) (c : Byte) :
    (storedBytes v).append [c] = some (storedBytes (v ++ [c])) := by
  have hmax : APPEND_MAX = 4096 := rfl
  unfold storedBytes
  rw [if_neg (List.concat_ne_nil _ _)]
  by_cases hnil : v = []
  · rw [hnil, if_pos rfl]
    exact empty_append (show 1 ≤ APPEND_MAX by decide)
  · rw [if_neg hnil]
    rcases Nat.lt_or_ge v.length 4095 with hlt | hge
    · have hlen : (v ++ [c]).length ≤ 4095 := by
        rw [List.length_append, List.length_singleton]
        omega
      rw [List.take_of_length_le (Nat.le_of_lt hlt), List.take_of_length_le hlen, text_append]
      rw [List.length_singleton]
      omega
    · rw [List.take_append_of_le_length hge]
      unfold XStr.text XStr.append
      have hfull : (v.take 4095).length = 4095 := by
        rw [List.length_take]
        omega
      simp only [hfull, List.length_singleton]
      rfl

/-- The item of a part with these bytes of its content. -/
def partItem (name v : List Byte) : HttpArg := { namedItem name with value := storedBytes v }

theorem partItem_append (name v : List Byte) (c : Byte) :
    httpAppendArg [c] (tableWith items (partItem name v)) =
      some (tableWith items (partItem name (v ++ [c]))) := by
  refine tableWith_append ?_ rfl (List.cons_ne_nil c [])
  unfold HttpArg.append
  rw [if_pos (by rfl), show (partItem name v).value = storedBytes v from rfl, storedBytes_append]
  rfl

/-- A part is being read: `v` of its content is behind. -/
structure AtContent (boundary : List Byte) (items : List HttpArg) (name v : List Byte)
    (s : WindowReader Byte) (info : Http) : Prop where
  body : InBody boundary info s
  flag : info.loc.formFlag = .arg
  line : info.loc.formHeaderState = 0
  arg : info.arg = tableWith items (partItem name v)

/-- The bytes of a content up to the next label. -/
theorem loop_content (hne : labelRest boundary ≠ []) (name nm text v : List Byte) (s : WindowReader Byte)
    (info : Http) (h : AtContent boundary items name v s info)
    (hno : labelRest boundary ∉ windows boundary text s) :
    ∃ r, httpParseFormLoop (labelOf boundary) (text ++ rest) info nm =
        httpParseFormLoop (labelOf boundary) rest r nm ∧
      AtContent boundary items name (v ++ text) (labelAfter boundary text s) r ∧
      r.str = info.str ∧ r.logic = info.logic := by
  obtain ⟨r, hloop, hr, hflag, hline, harg, hsame⟩ := @loop_stored boundary
    (fun v i => i.loc.formFlag = .arg ∧ i.loc.formHeaderState = 0 ∧
      i.arg = tableWith items (partItem name v) ∧ i.str = info.str ∧ i.logic = info.logic) hne
    (by
      rintro v i loc honly ⟨hflag, hline, hrest⟩
      refine ⟨?_, ?_, hrest⟩
      · show loc.formFlag = .arg
        rw [honly.eq]
        exact hflag
      · show loc.formHeaderState = 0
        rw [honly.eq]
        exact hline)
    (by
      rintro v c i r ⟨hflag, hline, harg, hsame⟩ hstored
      unfold formContent at hstored
      rw [if_neg (by simp [hflag]), harg, partItem_append] at hstored
      cases hstored
      exact ⟨hflag, hline, rfl, hsame⟩)
    rest nm text v info s h.body ⟨h.flag, h.line, h.arg, rfl, rfl⟩ hno
  exact ⟨r, hloop, ⟨hr, hflag, hline, harg⟩, hsame⟩

/-- The value of a part once a label is cut off behind these bytes. -/
def cutItem (boundary name v : List Byte) : HttpArg :=
  { partItem name v with value := (storedBytes v).cut ((labelOf boundary).length + 1) }

/-- The byte that meets a label. -/
theorem loop_contentEnd {name nm v : List Byte} {s : WindowReader Byte} {c : Byte}
    (h : AtContent boundary items name v s info) (hne : labelRest boundary ≠ []) (hv : v ≠ [])
    (hmet : (labelStep boundary c s).1 = some (labelRest boundary)) :
    ∃ r, httpParseFormLoop (labelOf boundary) (c :: rest) info nm =
        httpParseFormLoop (labelOf boundary) rest r nm ∧
      AtHeader boundary (items ++ [cutItem boundary name v]) (labelStep boundary c s).2.marks r ∧
      r.str = info.str ∧ r.logic = info.logic := by
  obtain ⟨loc, hloop, hreads, honly⟩ := loop_met h.body hne hmet rest nm
  have hstored : (partItem name v).value.p ≠ none ∧ 0 < (partItem name v).value.len := by
    have hpos : 0 < (v.take 4095).length := by
      have h := List.length_pos_iff.mpr hv
      rw [List.length_take]
      omega
    show (storedBytes v).p ≠ none ∧ 0 < (storedBytes v).len
    unfold storedBytes
    rw [if_neg hv]
    exact ⟨Option.some_ne_none _, hpos⟩
  have hcut : formMet (labelOf boundary) { info with loc := loc } =
      { info with
        loc := { loc with formStatus := .header, formFlag := .arg }
        arg := tableWith items (cutItem boundary name v) } := by
    have hflag : loc.formFlag ≠ .file := by
      rw [honly.eq, show _ = info.loc.formFlag from rfl, h.flag]
      decide
    unfold formMet
    rw [if_neg hflag, if_pos ⟨partItem name v, by rw [h.arg, tableWith_item]; rfl, hstored⟩]
    unfold formCutArg
    rw [h.arg, tableWith_onCur]
    rfl
  rw [hcut] at hloop
  have hwindow := WindowReader.step_closes hmet
  have hreads' : Reads loc ⟨(labelStep boundary c s).2.marks, none⟩ := by rwa [← hwindow]
  refine ⟨_, hloop, ⟨rfl, rfl, ?_, ?_, ?_, (tableOf_concat items _).symm⟩, rfl, rfl⟩
  · show loc.formHeaderState = 0
    rw [honly.eq]
    exact h.line
  · show loc.boundaryCnt = dashCount boundary
    rw [honly.eq]
    exact h.body.cnt
  · exact ⟨hreads'.num, hreads'.idle, fun w hw => by cases hw⟩

/-- A content with the delimiter behind it. -/
def delimited (boundary v : List Byte) : List Byte := v ++ str "\r\n" ++ labelOf boundary

theorem formTail_cons (boundary : List Byte) (p : Part) (parts : List Part) :
    formTail boundary (p :: parts) =
      p.head ++ (delimited boundary p.value ++ (labelTail boundary ++ formTail boundary parts)) := by
  unfold delimited
  simp only [formTail, List.append_assoc]
  rw [← List.append_assoc (labelOf boundary), ← label_split]
  simp only [List.append_assoc]

theorem delimited_concat (hne : labelRest boundary ≠ []) (v : List Byte) :
    ∃ c, delimited boundary v = (delimited boundary v).dropLast ++ [c] ∧ (delimited boundary v).dropLast ≠ [] := by
  have hlabel : 0 < (labelOf boundary).length := by
    have h := List.length_pos_iff.mpr hne
    rw [labelOf_length hne]
    omega
  have hlen : 1 < (delimited boundary v).length := by
    unfold delimited
    rw [List.length_append, List.length_append]
    have h : (str "\r\n").length = 2 := rfl
    omega
  have hcons : delimited boundary v ≠ [] := List.ne_nil_of_length_pos (by omega)
  refine ⟨_, (List.dropLast_concat_getLast hcons).symm, List.ne_nil_of_length_pos ?_⟩
  rw [List.length_dropLast]
  omega

/-- What is recorded for a part whose delimiter was met. -/
def recordedItem (boundary name : List Byte) (p : Part) : HttpArg :=
  cutItem boundary name (delimited boundary p.value).dropLast

/-- It holds the content, when `cut` finds all of it and of the delimiter stored. -/
theorem recordedItem_value {p : Part} (name : List Byte) (hne : labelRest boundary ≠ [])
    (hsize : p.value.length + (labelOf boundary).length + 1 < 4096) :
    (recordedItem boundary name p).value.p = some p.value := by
  obtain ⟨c, -, hcons⟩ := delimited_concat hne p.value
  have hlabel : 0 < (labelOf boundary).length := by
    have h := List.length_pos_iff.mpr hne
    rw [labelOf_length hne]
    omega
  have hlen : (delimited boundary p.value).dropLast.length = p.value.length + (labelOf boundary).length + 1 := by
    rw [List.length_dropLast, delimited, List.length_append, List.length_append]
    have h : (str "\r\n").length = 2 := rfl
    omega
  show ((storedBytes (delimited boundary p.value).dropLast).cut ((labelOf boundary).length + 1)).p = _
  unfold storedBytes XStr.cut XStr.text XStr.len
  rw [if_neg hcons, List.take_of_length_le (by omega)]
  simp only [Option.map_some, Option.getD_some, hlen]
  rw [show p.value.length + (labelOf boundary).length + 1 - ((labelOf boundary).length + 1) =
    p.value.length by omega, List.dropLast_eq_take, List.take_take, Nat.min_eq_left (by
      rw [List.length_dropLast] at hlen
      omega), delimited, List.append_assoc, List.take_left' rfl]

/-- A label that is met with the last byte of a text is met by that byte. -/
theorem found_byte {text : List Byte} {s s' : WindowReader Byte} (hne : text ≠ [])
    (hfound : WindowReader.FoundLast (ch '-') (dashCount boundary) (labelRest boundary) text s)
    (hafter : labelAfter boundary text s = s') :
    ∃ c, text = text.dropLast ++ [c] ∧ labelRest boundary ∉ windows boundary text.dropLast s ∧
      labelStep boundary c (labelAfter boundary text.dropLast s) = (some (labelRest boundary), s') := by
  have hpos := List.length_pos_iff.mpr hne
  have hsplit := (List.dropLast_concat_getLast hne).symm
  have hno : labelRest boundary ∉ windows boundary text.dropLast s := by
    intro hmem
    rw [List.dropLast_eq_take] at hmem
    have heq := (hfound _ (Nat.sub_le _ _)).mp hmem
    omega
  have hmem := (hfound _ (Nat.le_refl _)).mpr rfl
  rw [List.take_length, hsplit, WindowReader.closed_append] at hmem
  rw [hsplit] at hafter
  refine ⟨_, hsplit, hno, Prod.ext ?_ ?_⟩
  · exact (mem_windows_cons.mp ((List.mem_append.mp hmem).resolve_left hno)).resolve_right List.not_mem_nil
  · exact WindowReader.after_append.symm.trans hafter

/-- The label of a delimiter that is met is met with its last byte. -/
theorem detects_last {v : List Byte} {d : Nat} (h : Detects boundary v d) :
    ∃ c, delimited boundary v = (delimited boundary v).dropLast ++ [c] ∧
      labelRest boundary ∉ windows boundary (delimited boundary v).dropLast ⟨d, none⟩ ∧
      labelStep boundary c (labelAfter boundary (delimited boundary v).dropLast ⟨d, none⟩) =
        (some (labelRest boundary), ⟨labelMarks boundary, none⟩) := by
  refine found_byte ?_ ((found_iff_detects h.rest).mpr h) h.after
  obtain ⟨c, hsplit, -⟩ := delimited_concat h.rest v
  rw [hsplit]
  exact List.concat_ne_nil _ _

/-- **One part**, when its delimiter is met. -/
theorem loop_part (hb : BoundaryOk boundary) (h : AtHeader boundary items t info)
    (hroom : items.length < 32) {p : Part} (hp : p.Plain boundary) {name : List Byte}
    (hname : name.length < 4000) (hdet : Detects boundary p.value t) :
    ∃ r, httpParseFormLoop (labelOf boundary) (labelTail boundary ++ p.head ++
          (delimited boundary p.value ++ rest)) info name =
        httpParseFormLoop (labelOf boundary) rest r (partName boundary p name) ∧
      AtHeader boundary (items ++ [recordedItem boundary (partName boundary p name) p])
        (labelMarks boundary) r ∧ r.str = info.str ∧ r.logic = info.logic := by
  obtain ⟨i, hhead, hbody, hflag, hline, harg, hstr, hlogic⟩ :=
    @loop_head boundary items t info (labelOf boundary) (delimited boundary p.value ++ rest) hb h hroom p hp
      name hname
  have hstart : AtContent boundary items (partName boundary p name) [] ⟨t, none⟩ i := ⟨hbody, hflag, hline, harg⟩
  obtain ⟨c, hsplit, hno, hlast⟩ := detects_last hdet
  obtain ⟨-, -, hcons⟩ := delimited_concat hdet.rest p.value
  obtain ⟨i', hcontent, hi', hstr', hlogic'⟩ := @loop_content boundary items (c :: rest) hdet.rest _
    (partName boundary p name) _ _ _ _ hstart hno
  obtain ⟨r, hend, hr, hstr'', hlogic''⟩ := @loop_contentEnd boundary items i' rest _
    (partName boundary p name) _ _ c hi' hdet.rest hcons (by rw [hlast])
  rw [hlast] at hr
  refine ⟨r, ?_, hr, hstr''.trans (hstr'.trans hstr), hlogic''.trans (hlogic'.trans hlogic)⟩
  rw [hhead, hsplit, List.append_assoc, List.singleton_append, hcontent, hend]

/-- What is recorded for parts whose delimiters are met. -/
def recordedItems (boundary : List Byte) : List Byte → List Part → List HttpArg
  | _, [] => []
  | name, p :: parts =>
    recordedItem boundary (partName boundary p name) p ::
      recordedItems boundary (partName boundary p name) parts

/-- **All parts**, by induction on them. -/
theorem loop_parts (hb : BoundaryOk boundary) : ∀ (parts : List Part) (items : List HttpArg) (info : Http)
    (name : List Byte), AtHeader boundary items (labelMarks boundary) info → name.length < 4000 →
    items.length + parts.length ≤ 32 → (∀ p ∈ parts, p.Plain boundary) →
    (∀ p ∈ parts, Detects boundary p.value (labelMarks boundary)) →
    ∃ r nm, httpParseFormLoop (labelOf boundary) (labelTail boundary ++ formTail boundary parts) info name =
        httpParseFormLoop (labelOf boundary) (labelTail boundary ++ formTail boundary []) r nm ∧
      AtHeader boundary (items ++ recordedItems boundary name parts) (labelMarks boundary) r ∧
      r.str = info.str ∧ r.logic = info.logic := by
  intro parts
  induction parts with
  | nil =>
    intro items info name h _ _ _ _
    exact ⟨info, name, rfl, by rwa [recordedItems, List.append_nil], rfl, rfl⟩
  | cons p parts ih =>
    intro items info name h hname hroom hplain hdet
    rw [List.length_cons] at hroom
    obtain ⟨hp, hplain⟩ := List.forall_mem_cons.mp hplain
    obtain ⟨hd, hdet⟩ := List.forall_mem_cons.mp hdet
    obtain ⟨i, hpart, hi, hstr, hlogic⟩ := @loop_part boundary items _ info
      (labelTail boundary ++ formTail boundary parts) hb h (by omega) p hp name hname hd
    obtain ⟨r, nm, hrest, hr, hstr', hlogic'⟩ := ih _ i _ hi (partName_length hname)
      (by rw [List.length_append, List.length_singleton]; omega) hplain hdet
    refine ⟨r, nm, ?_, ?_, hstr'.trans hstr, hlogic'.trans hlogic⟩
    · rw [formTail_cons, ← List.append_assoc, hpart, hrest]
    · rw [recordedItems, List.append_cons]
      exact hr

/-! ## The first label, and the end -/

/-- `local_t` in front of the first label. -/
structure BeforeLabel (boundary : List Byte) (s : WindowReader Byte) (loc : HttpLocal) : Prop where
  status : loc.formStatus = .begin
  flag : loc.formFlag = .arg
  line : loc.formHeaderState = 0
  cnt : loc.boundaryCnt = dashCount boundary
  reads : Reads loc s
  sound : LabelSound boundary s

/-- The parser in front of the first label. -/
structure AtBegin (boundary : List Byte) (s : WindowReader Byte) (info : Http) : Prop where
  status : info.loc.formStatus = .begin
  flag : info.loc.formFlag = .arg
  line : info.loc.formHeaderState = 0
  cnt : info.loc.boundaryCnt = dashCount boundary
  reads : Reads info.loc s
  sound : LabelSound boundary s
  arg : info.arg = tableOf []

theorem AtBegin.before {s : WindowReader Byte} (h : AtBegin boundary s info) : BeforeLabel boundary s info.loc :=
  ⟨h.status, h.flag, h.line, h.cnt, h.reads, h.sound⟩

/-- What is in front of the first label is passed over. -/
theorem loop_before (hne : labelRest boundary ≠ []) (nm : List Byte) :
    ∀ (text : List Byte) (s : WindowReader Byte) (info : Http), BeforeLabel boundary s info.loc →
      labelRest boundary ∉ windows boundary text s →
      ∃ loc, httpParseFormLoop (labelOf boundary) (text ++ rest) info nm =
          httpParseFormLoop (labelOf boundary) rest { info with loc := loc } nm ∧
        BeforeLabel boundary (labelAfter boundary text s) loc := by
  intro text
  induction text with
  | nil => exact fun s info h _ => ⟨info.loc, rfl, h⟩
  | cons c text ih =>
    intro s info h hno
    rw [mem_windows_cons, not_or] at hno
    obtain ⟨loc, hlabel, hreads, honly⟩ := @formLabel_reads boundary info.loc s c hne h.cnt h.reads h.sound
    have hbegin : formBegin (labelOf boundary) c info = some { info with loc := loc } := by
      unfold formBegin
      rw [hlabel, decide_eq_false hno.1]
      rfl
    have hnext : BeforeLabel boundary (labelStep boundary c s).2 loc := by
      refine ⟨?_, ?_, ?_, ?_, hreads, (WindowReader.step_sound (dashCount_pos boundary) h.sound).1⟩
      all_goals rw [honly.eq]
      · exact h.status
      · exact h.flag
      · exact h.line
      · exact h.cnt
    obtain ⟨loc', hloop, hr⟩ := ih _ { info with loc := loc } hnext hno.2
    refine ⟨loc', ?_, hr⟩
    rw [List.cons_append, httpParseFormLoop, h.status]
    simp only [hbegin, Option.bind_some]
    exact hloop

/-- The first label. -/
theorem loop_firstLabel (h : BeforeLabel boundary ⟨0, none⟩ info.loc) (hne : labelRest boundary ≠ [])
    (hregular : ¬ List.replicate (dashCount boundary) (ch '-') <:+: labelRest boundary) (nm : List Byte) :
    ∃ loc, httpParseFormLoop (labelOf boundary) (labelOf boundary ++ rest) info nm =
        httpParseFormLoop (labelOf boundary) rest { info with loc := loc } nm ∧
      BehindLabel boundary (labelMarks boundary) loc := by
  have hpos := dashCount_pos boundary
  have hr : WindowReader.quiet (ch '-') (dashCount boundary) 0 (labelRest boundary) = true :=
    (WindowReader.quiet_iff hpos).mpr hregular
  have hlabel : labelOf boundary =
      List.replicate (dashCount boundary - 1) (ch '-') ++ ch '-' :: labelRest boundary := by
    have h := delimiter_split hne []
    simp only [List.nil_append, List.append_assoc] at h
    exact List.append_cancel_left h
  have hmarks : WindowReader.marksAfter (ch '-') 0 (List.replicate (dashCount boundary - 1) (ch '-')) + 1 =
      dashCount boundary := by
    rw [WindowReader.marksAfter_replicate, Nat.zero_add, Nat.sub_add_cancel hpos]
  have hquiet : WindowReader.quiet (ch '-') (dashCount boundary) 0
      (List.replicate (dashCount boundary - 1) (ch '-')) = true :=
    WindowReader.quiet_replicate (by omega)
  obtain ⟨hclosed, hafter⟩ := @WindowReader.idle_quiet _ _ (ch '-') (dashCount boundary)
    (labelRest boundary).length 0 _ hpos hquiet
  have hfound := (WindowReader.found_iff hpos (labelRest_head boundary) (WindowReader.sound_idle 0) hmarks).mpr
    ⟨hne, hr, by rw [hclosed]; exact List.not_mem_nil, by rw [hafter]⟩
  have hbehind := WindowReader.found_after hpos (labelRest_head boundary) hne hr hmarks (by rw [hafter])
  rw [← hlabel] at hfound hbehind
  have hcons : labelOf boundary ≠ [] := by
    rw [hlabel]
    exact List.append_ne_nil_of_right_ne_nil _ (List.cons_ne_nil _ _)
  obtain ⟨c, hsplit, hno, hlast⟩ := found_byte hcons hfound hbehind
  obtain ⟨mid, hloop, hmid⟩ := @loop_before boundary (c :: rest) hne nm _ _ info h hno
  obtain ⟨loc, hlabel', hreads, honly⟩ := @formLabel_reads boundary mid _ c hne hmid.cnt hmid.reads hmid.sound
  rw [hlast] at hlabel' hreads
  have hbegin : formBegin (labelOf boundary) c { info with loc := mid } =
      some { info with loc := { loc with formStatus := .header, formFlag := .arg } } := by
    unfold formBegin
    rw [hlabel']
    simp
  refine ⟨{ loc with formStatus := .header, formFlag := .arg }, ?_, ⟨rfl, rfl, ?_, ?_, ?_⟩⟩
  · have htext : labelOf boundary ++ rest = (labelOf boundary).dropLast ++ c :: rest := by
      conv => lhs; rw [hsplit]
      rw [List.append_assoc, List.singleton_append]
    rw [htext, hloop, httpParseFormLoop, hmid.status]
    simp only [hbegin, Option.bind_some]
  · show loc.formHeaderState = 0
    rw [honly.eq]
    exact hmid.line
  · show loc.boundaryCnt = dashCount boundary
    rw [honly.eq]
    exact hmid.cnt
  · exact ⟨hreads.num, hreads.idle, fun w hw => by cases hw⟩

/-- The first label, with no argument recorded. -/
theorem loop_label (h : AtBegin boundary ⟨0, none⟩ info) (hne : labelRest boundary ≠ [])
    (hregular : ¬ List.replicate (dashCount boundary) (ch '-') <:+: labelRest boundary) (nm : List Byte) :
    ∃ r, httpParseFormLoop (labelOf boundary) (labelOf boundary ++ rest) info nm =
        httpParseFormLoop (labelOf boundary) rest r nm ∧
      AtHeader boundary [] (labelMarks boundary) r ∧ r.str = info.str ∧ r.logic = info.logic := by
  obtain ⟨loc, hloop, hloc⟩ := @loop_firstLabel boundary info rest h.before hne hregular nm
  exact ⟨_, hloop, ⟨hloc.status, hloc.flag, hloc.line, hloc.cnt, hloc.reads, h.arg⟩, rfl, rfl⟩

/-- What the end of the message leaves of the last argument. -/
def endItem (boundary : List Byte) (item : HttpArg) : HttpArg :=
  if item.value.p ≠ none ∧ (item.value.p.getD []).head? ≠ some 0 ∧ 0 < item.value.len then
    { item with value := item.value.cut ((labelOf boundary).length + 2) }
  else item

/-- The end of the message, with arguments recorded. -/
theorem formEnd_concat {item : HttpArg} (hflag : info.loc.formFlag = .arg) (hstate : info.logic.state = .none)
    (harg : info.arg = tableWith items item) :
    formEnd (labelOf boundary) info = { info with arg := tableWith items (endItem boundary item) } := by
  unfold formEnd endItem
  rw [if_pos hstate, if_neg (by rw [hflag]; decide), harg, tableWith_item]
  by_cases hcut : item.value.p ≠ none ∧ (item.value.p.getD []).head? ≠ some 0 ∧ 0 < item.value.len
  · rw [if_pos ⟨item, rfl, hcut⟩, if_pos hcut]
    unfold formCutArg
    rw [harg, tableWith_onCur]
  · rw [if_neg hcut, if_neg]
    · rw [← harg]
    · rintro ⟨item', hitem', h⟩
      cases hitem'
      exact hcut h

theorem formEnd_empty (hflag : info.loc.formFlag = .arg) (harg : info.arg = tableOf []) :
    formEnd (labelOf boundary) info = info := by
  unfold formEnd
  split
  · rw [if_neg (by rw [hflag]; decide), if_neg]
    rintro ⟨item, hitem, -⟩
    rw [harg] at hitem
    cases hitem
  · rfl

/-- The end of the body is no head. -/
theorem loop_close (hb : BoundaryOk boundary) {t : Nat} (h : BehindLabel boundary t info.loc) (nm : List Byte) :
    ∃ cache state, httpParseFormLoop label (labelTail boundary ++ formTail boundary []) info nm =
      some (inHead info cache state, false) := by
  have hcache : info.loc.cacheBuf = [] := (h.reads.idle rfl).1
  have htail : LineText (labelTail boundary ++ str "--") := by
    have hline := labelTail_line hb
    refine ⟨fun hmem => ?_, fun hmem => ?_⟩
    · exact (List.mem_append.mp hmem).elim hline.cr (by decide)
    · exact (List.mem_append.mp hmem).elim hline.lf (by decide)
  obtain ⟨hgo, hstate⟩ := line_goesOn htail 0
  rw [if_neg (List.append_ne_nil_of_right_ne_nil _ (by decide))] at hstate
  have hsplit : labelTail boundary ++ formTail boundary [] = labelTail boundary ++ str "--" ++ str "\r\n" := by
    rw [List.append_assoc]
    rfl
  have hall : headGoesOn info.loc.formHeaderState (labelTail boundary ++ formTail boundary []) := by
    rw [h.line, hsplit, headGoesOn_append, hstate]
    exact ⟨hgo, by decide, by decide, trivial⟩
  have hloop := @loop_lines label [] nm (labelTail boundary ++ formTail boundary []) info h.status
    (by rw [hcache]; exact Nat.zero_le _) (by rw [h.line]; decide) hall
  rw [List.append_nil] at hloop
  exact ⟨_, _, hloop⟩

/-! ## A body in one packet -/

/-- The parser in front of a multipart body of `len` bytes, with which the message ends: the counter
of the bytes to come is 0 behind a head, and a body takes it to 0 or below. -/
structure FormStart (boundary : List Byte) (len : Nat) (info : Http) : Prop where
  stored : info.str.boundary.cString = some boundary
  type : info.logic.contentType = .multiform
  notChunked : info.logic.isChunked = false
  left : toInt32 (info.loc.unRecvContentLen - len) ≤ 0
  start : AtBegin boundary ⟨0, none⟩ info

theorem parseBody_form {data : List Byte} (hne : data ≠ []) (htype : info.logic.contentType = .multiform)
    (hchunked : info.logic.isChunked = false) (hleft : toInt32 (info.loc.unRecvContentLen - data.length) ≤ 0) :
    ∃ httpInt left, parseBody info data = httpParseForm data { info with
      httpInt := httpInt
      loc := { info.loc with unRecvContentLen := left }
      logic := { info.logic with state := .none } } := by
  have hcount : httpBodyCount data info = { info with
      httpInt := { info.httpInt with bodyLen := info.httpInt.bodyLen + data.length }
      loc := { info.loc with unRecvContentLen := toInt32 (info.loc.unRecvContentLen - data.length) }
      logic := { info.logic with state := .none } } := by
    unfold httpBodyCount
    rw [if_neg (by show ¬ info.logic.isChunked = true; rw [hchunked]; exact Bool.false_ne_true)]
    show httpSetState { info with
      httpInt := { info.httpInt with bodyLen := info.httpInt.bodyLen + data.length }
      loc := { info.loc with
        unRecvContentLen := toInt32 (info.loc.unRecvContentLen - data.length) } }
      (if toInt32 (info.loc.unRecvContentLen - data.length) ≤ 0 then .none else .body) = _
    rw [if_pos hleft]
    rfl
  refine ⟨(httpBodyCount data info).httpInt, toInt32 (info.loc.unRecvContentLen - data.length), ?_⟩
  rw [parseBody_ofForm hne htype, hcount]

/-- What a head leaves for the label's reader and for the counter. -/
theorem head_leaves {head : List Byte}
    (h : (httpParseHead head.length Http.zero).run (Memory.ofList head) = some info)
    (hcnt : info.loc.boundaryCnt = dashCount boundary) {len : Nat} (hlen : len ≤ 2 ^ 31) :
    BeforeLabel boundary ⟨0, none⟩ info.loc ∧ toInt32 (info.loc.unRecvContentLen - len) ≤ 0 ∧
      info.file.file = [] := by
  obtain ⟨hloc, hfile, -⟩ := httpParseHead_frame _ _ h
  have hfields : info.loc.formHeaderState = 0 ∧ info.loc.unRecvContentLen = 0 ∧
      info.loc.myformLabelNum = 0 ∧ info.loc.cacheBuf = [] ∧ info.loc.myformLabelState = .unset := by
    rw [hloc]
    exact ⟨rfl, rfl, rfl, rfl, rfl⟩
  obtain ⟨hline, hleft, hnum, hcache, hstate⟩ := hfields
  refine ⟨⟨by rw [hloc], by rw [hloc], hline, hcnt, ⟨hnum, fun _ => ⟨hcache, ?_, ?_⟩, fun w hw => (by cases hw)⟩,
    WindowReader.sound_idle 0⟩, ?_, by rw [hfile]; rfl⟩
  · rw [hstate]
    exact LabelState.noConfusion
  · rw [hstate]
    exact LabelState.noConfusion
  · rw [hleft]
    unfold toInt32
    rw [Int.bmod_def]
    split
    · omega
    · omega

/-- **A head read by a zeroed parser leaves it so**, when it names the boundary and has no query. -/
theorem formStart_head {head : List Byte}
    (h : (httpParseHead head.length Http.zero).run (Memory.ofList head) = some info)
    (hstored : info.str.boundary.cString = some boundary) (htype : info.logic.contentType = .multiform)
    (hchunked : info.logic.isChunked = false) (hcnt : info.loc.boundaryCnt = dashCount boundary)
    (harg : info.arg = tableOf []) {len : Nat} (hlen : len ≤ 2 ^ 31) : FormStart boundary len info := by
  obtain ⟨hbefore, hleft, -⟩ := head_leaves h hcnt hlen
  exact ⟨hstored, htype, hchunked, hleft, ⟨hbefore.status, hbefore.flag, hbefore.line, hcnt, hbefore.reads,
    hbefore.sound, harg⟩⟩

/-- The table holds exactly these parts, in order, each with its content. -/
def FormRecorded (parts : List Part) (r : Http) : Prop :=
  r.arg.arg.map (fun item => item.value.p.getD []) = parts.map Part.value

/-- When the parts of a body are recorded. -/
structure FormOk (boundary : List Byte) (parts : List Part) : Prop where
  /-- every part's delimiter is met, with the dashes of the label in front counted -/
  detects : ∀ p ∈ parts, Detects boundary p.value (labelMarks boundary)
  /-- with its delimiter a content is stored whole -/
  size : ∀ p ∈ parts, p.value.length + (labelOf boundary).length + 1 < 4096
  /-- the second cut finds nothing to take off -/
  last : ∀ p ∈ parts.getLast?, p.value = [] ∨ p.value.head? = some 0

/-! ## Recorded parts -/

theorem recordedItems_values (hne : labelRest boundary ≠ []) : ∀ (parts : List Part) (name : List Byte),
    (∀ p ∈ parts, p.value.length + (labelOf boundary).length + 1 < 4096) →
    (recordedItems boundary name parts).map (fun item => item.value.p.getD []) = parts.map Part.value := by
  intro parts
  induction parts with
  | nil => exact fun _ _ => rfl
  | cons p parts ih =>
    intro name hsize
    obtain ⟨hp, hparts⟩ := List.forall_mem_cons.mp hsize
    rw [recordedItems, List.map_cons, List.map_cons, recordedItem_value _ hne hp, ih _ hparts]
    rfl

theorem recordedItems_concat (p : Part) : ∀ (parts : List Part) (name : List Byte), ∃ nm,
    recordedItems boundary name (parts ++ [p]) =
      recordedItems boundary name parts ++ [recordedItem boundary nm p] := by
  intro parts
  induction parts with
  | nil => exact fun name => ⟨_, rfl⟩
  | cons q parts ih =>
    intro name
    obtain ⟨nm, h⟩ := ih (partName boundary q name)
    exact ⟨nm, by rw [List.cons_append, recordedItems, h, recordedItems, List.cons_append]⟩

/-- The name a part has in its head is the one it is recorded under. -/
theorem recordedItems_name : ∀ (parts : List Part) (name : List Byte) (i : Nat) (p : Part) (item : HttpArg)
    (n : List Byte), parts[i]? = some p → (recordedItems boundary name parts)[i]? = some item →
    httpGetFormLableValue (headText boundary p) (str "name=\"") 512 = some n →
    item.name.p = some (n ++ [0]) := by
  intro parts
  induction parts with
  | nil =>
    intro _ _ _ _ _ h
    cases h
  | cons q parts ih =>
    intro name i p item n hp hitem hn
    cases i with
    | zero =>
      cases hp
      cases hitem
      show some (partName boundary q name ++ [0]) = some (n ++ [0])
      rw [partName, hn]
      rfl
    | succ i => exact ih _ i p item n hp hitem hn

/-- A body whose delimiters are met, up to the end of the message. -/
theorem form_detected (hb : BoundaryOk boundary) {parts : List Part} (h : AtBegin boundary ⟨0, none⟩ info)
    (hstored : info.str.boundary.cString = some boundary) (hne : labelRest boundary ≠ [])
    (hregular : ¬ List.replicate (dashCount boundary) (ch '-') <:+: labelRest boundary)
    (hcount : parts.length ≤ 31) (hplain : ∀ p ∈ parts, p.Plain boundary)
    (hdet : ∀ p ∈ parts, Detects boundary p.value (labelMarks boundary)) :
    ∃ r, httpParseForm (formText boundary parts) info = some (formEnd (labelOf boundary) r) ∧
      r.arg = tableOf (recordedItems boundary [] parts) ∧ r.loc.formFlag = .arg ∧ r.logic = info.logic := by
  obtain ⟨i, hlabel, hi, -, hlogic⟩ := @loop_label boundary info
    (labelTail boundary ++ formTail boundary parts) h hne hregular []
  obtain ⟨r, nm, hparts, hr, -, hlogic'⟩ := loop_parts hb parts [] i [] hi (by decide)
    (by rw [List.length_nil]; omega) hplain hdet
  obtain ⟨cache, state, hclose⟩ := @loop_close boundary r (labelOf boundary) hb _ hr.behind nm
  have hlabelText : formLabelText info = some (labelOf boundary) := by
    rw [formLabelText, hstored]
    rfl
  refine ⟨inHead r cache state, ?_, hr.arg, hr.flag, hlogic'.trans hlogic⟩
  unfold httpParseForm
  rw [hlabelText, formText, label_split, List.append_assoc]
  simp only [Option.bind_eq_bind, Option.bind_some, hlabel, hparts, hclose]
  rfl

/-- `cache_buf` is not overrun. -/
theorem formLabel_defined (label : List Byte) (c : Byte) {loc : HttpLocal} (hcache : loc.cacheBuf.length ≤ 511) :
    ∃ x, formLabel label c loc = some x ∧ x.2.cacheBuf.length ≤ 511 := by
  have hcount : (countLabel c loc).cacheBuf = loc.cacheBuf := by
    unfold countLabel
    split <;> rfl
  unfold formLabel
  dsimp only
  split
  · unfold httpWaitLabelStr cacheByte
    rw [hcount]
    split
    next hroom =>
      refine ⟨_, rfl, ?_⟩
      dsimp only
      split
      · exact Nat.zero_le _
      · rw [List.length_append, List.length_singleton]
        omega
    next hfull =>
      rw [if_pos (by omega)]
      refine ⟨_, rfl, ?_⟩
      dsimp only
      split
      · exact Nat.zero_le _
      · rw [hcount]
        exact hcache
  · exact ⟨_, rfl, by rw [hcount]; exact hcache⟩

/-- A label without a rest is passed over like everything else. -/
theorem loop_dashes (hrest : labelRest boundary = []) (nm : List Byte) : ∀ (text : List Byte) (info : Http),
    info.loc.formStatus = .begin → info.loc.cacheBuf.length ≤ 511 → info.loc.boundaryCnt = dashCount boundary →
    ∃ loc, httpParseFormLoop (labelOf boundary) text info nm = some ({ info with loc := loc }, false) ∧
      loc.formFlag = info.loc.formFlag := by
  have hlen : (labelOf boundary).length ≤ dashCount boundary := by
    have hlen := congrArg List.length hrest
    rw [labelRest, List.length_drop, List.length_nil] at hlen
    omega
  intro text
  induction text with
  | nil => exact fun info _ _ _ => ⟨info.loc, rfl, rfl⟩
  | cons c text ih =>
    intro info hstatus hcache hcnt
    obtain ⟨loc, hlabel, hcache'⟩ : ∃ loc, formLabel (labelOf boundary) c info.loc = some (false, loc) ∧
        loc.cacheBuf.length ≤ 511 := by
      obtain ⟨⟨met, loc⟩, hlabel, hcache'⟩ := formLabel_defined (labelOf boundary) c hcache
      obtain rfl := formLabel_never (hcnt ▸ hlen) hlabel
      exact ⟨loc, hlabel, hcache'⟩
    have honly := formLabel_readerOnly hlabel
    have hbegin : formBegin (labelOf boundary) c info = some { info with loc := loc } := by
      unfold formBegin
      rw [hlabel]
      rfl
    obtain ⟨loc', hloop, hflag⟩ :=
      ih { info with loc := loc } (by show loc.formStatus = _; rw [honly.eq]; exact hstatus)
      hcache' (by show loc.boundaryCnt = _; rw [honly.eq]; exact hcnt)
    refine ⟨loc', ?_, hflag.trans (by show loc.formFlag = _; rw [honly.eq])⟩
    rw [httpParseFormLoop, hstatus]
    simp only [hbegin, Option.bind_some, hloop]

/-- A label that cannot be met is never behind. -/
theorem loop_unmet (h : BeforeLabel boundary ⟨0, none⟩ info.loc)
    (hunmet : labelRest boundary = [] ∨
      List.replicate (dashCount boundary) (ch '-') <:+: labelRest boundary) (text nm : List Byte) :
    ∃ loc, httpParseFormLoop (labelOf boundary) text info nm = some ({ info with loc := loc }, false) ∧
      loc.formFlag = .arg := by
  by_cases hrest : labelRest boundary = []
  · obtain ⟨loc, hloop, hflag⟩ := loop_dashes hrest nm text info h.status
      (by rw [(h.reads.idle rfl).1]; exact Nat.zero_le _) h.cnt
    exact ⟨loc, hloop, hflag.trans h.flag⟩
  · have hno : labelRest boundary ∉ windows boundary text ⟨0, none⟩ := by
      intro hmem
      have hquiet := (WindowReader.closed_isQuiet (dashCount_pos boundary) (WindowReader.sound_idle 0)
        _ hmem).1
      exact (WindowReader.quiet_iff (dashCount_pos boundary)).mp hquiet (hunmet.resolve_left hrest)
    obtain ⟨loc, hloop, hloc⟩ := @loop_before boundary [] hrest nm text _ info h hno
    rw [List.append_nil] at hloop
    exact ⟨loc, hloop, hloc.flag⟩

/-- It leaves the table empty. -/
theorem form_unmet (h : AtBegin boundary ⟨0, none⟩ info) (hstored : info.str.boundary.cString = some boundary)
    (hunmet : labelRest boundary = [] ∨
      List.replicate (dashCount boundary) (ch '-') <:+: labelRest boundary) (text : List Byte) :
    ∃ r, httpParseForm text info = some r ∧ r.arg.arg = [] := by
  have hlabelText : formLabelText info = some (labelOf boundary) := by
    rw [formLabelText, hstored]
    rfl
  obtain ⟨loc, hloop, hflag⟩ := loop_unmet h.before hunmet text []
  refine ⟨{ info with loc := loc }, ?_, by show info.arg.arg = []; rw [h.arg]; rfl⟩
  unfold httpParseForm
  rw [hlabelText]
  simp only [Option.bind_eq_bind, Option.bind_some, hloop,
    @formEnd_empty boundary { info with loc := loc } hflag h.arg]
  rfl

/-- The second cut leaves a value alone that is empty or begins with NUL, and shortens every other. -/
theorem endItem_value {item : HttpArg} {v : List Byte} (h : item.value.p = some v) :
    (endItem boundary item).value.p = some v ↔ v = [] ∨ v.head? = some 0 := by
  have hlen : item.value.len = v.length := by rw [XStr.len, h, Option.getD_some]
  unfold endItem
  rw [h, hlen, Option.getD_some]
  split
  next hcut =>
    refine iff_of_false (fun heq => ?_) fun hor => hor.elim (fun hnil => ?_) hcut.2.1
    · have htake : (item.value.cut ((labelOf boundary).length + 2)).p =
          some (v.take (v.length - ((labelOf boundary).length + 2))) := by
        rw [XStr.cut, h, hlen]
        rfl
      rw [show _ = some v from heq] at htake
      have hlen' := congrArg List.length (Option.some.inj htake)
      rw [List.length_take] at hlen'
      have hpos := hcut.2.2
      omega
    · rw [hnil] at hcut
      exact absurd hcut.2.2 (Nat.lt_irrefl _)
  next hcut =>
    refine iff_of_true h ?_
    by_contra hno
    rw [not_or] at hno
    exact hcut ⟨Option.some_ne_none v, hno.2, List.length_pos_iff.mpr hno.1⟩

theorem endItem_some {item : HttpArg} {v : List Byte} (h : item.value.p = some v) :
    ∃ w, (endItem boundary item).value.p = some w := by
  unfold endItem
  split
  · exact ⟨_, by rw [XStr.cut, h]; rfl⟩
  · exact ⟨v, h⟩

theorem endItem_name (item : HttpArg) : (endItem boundary item).name = item.name := by
  unfold endItem
  split <;> rfl

/-- The names the parts have in their heads. -/
def Named (boundary : List Byte) (parts : List Part) (r : Http) : Prop :=
  ∀ (i : Nat) (p : Part) (item : HttpArg) (n : List Byte), parts[i]? = some p → r.arg.arg[i]? = some item →
    httpGetFormLableValue (headText boundary p) (str "name=\"") 512 = some n →
    item.name.p = some (n ++ [0])

/-- What the end of the message leaves of the arguments. -/
def endItems (boundary : List Byte) (items : List HttpArg) : List HttpArg :=
  items.dropLast ++ (items.getLast?.map (endItem boundary)).toList

theorem formEnd_items (hflag : info.loc.formFlag = .arg) (hstate : info.logic.state = .none)
    (harg : info.arg = tableOf items) :
    (formEnd (labelOf boundary) info).arg.arg = endItems boundary items := by
  rcases List.eq_nil_or_concat items with rfl | ⟨done, item, rfl⟩
  · rw [formEnd_empty hflag harg, harg]
    rfl
  · rw [List.concat_eq_append] at harg ⊢
    rw [tableOf_concat] at harg
    rw [formEnd_concat hflag hstate harg]
    simp [endItems, tableWith]

/-- Parts whose delimiters are met are recorded when the second cut changes nothing. -/
theorem endItems_recorded (hne : labelRest boundary ≠ []) (parts : List Part) (name : List Byte)
    (hsize : ∀ p ∈ parts, p.value.length + (labelOf boundary).length + 1 < 4096) :
    (endItems boundary (recordedItems boundary name parts)).map (fun item => item.value.p.getD []) =
        parts.map Part.value ↔
      ∀ p ∈ parts.getLast?, p.value = [] ∨ p.value.head? = some 0 := by
  rcases List.eq_nil_or_concat parts with rfl | ⟨front, p, rfl⟩
  · exact iff_of_true rfl fun p hp => by cases hp
  · rw [List.concat_eq_append] at hsize ⊢
    obtain ⟨nm, hitems⟩ := @recordedItems_concat boundary p front name
    have hp := hsize p (List.mem_append_right _ List.mem_cons_self)
    have hfront := recordedItems_values hne front name fun q hq => hsize q (List.mem_append_left _ hq)
    have hvalue := recordedItem_value nm hne hp
    have hend := @endItem_value boundary _ _ hvalue
    rw [hitems]
    simp only [endItems, List.dropLast_concat, List.getLast?_concat, Option.map_some, Option.toList_some,
      List.map_append, List.map_cons, List.map_nil, hfront, List.append_cancel_left_eq, List.cons.injEq,
      and_true, Option.mem_some_iff, forall_eq']
    rw [← hend]
    obtain ⟨w, hw⟩ := @endItem_some boundary _ _ hvalue
    rw [hw, Option.getD_some, Option.some.injEq]

theorem endItems_getElem {items : List HttpArg} {i : Nat} {item : HttpArg}
    (h : (endItems boundary items)[i]? = some item) :
    ∃ item', items[i]? = some item' ∧ item.name = item'.name := by
  rcases List.eq_nil_or_concat items with rfl | ⟨done, last, rfl⟩
  · cases h
  · rw [List.concat_eq_append] at h ⊢
    simp only [endItems, List.dropLast_concat, List.getLast?_concat, Option.map_some,
      Option.toList_some] at h
    rcases Nat.lt_or_ge i done.length with hlt | hge
    · rw [List.getElem?_append_left hlt] at h ⊢
      exact ⟨item, h, rfl⟩
    · rw [List.getElem?_append_right hge] at h ⊢
      obtain ⟨hi, heq⟩ := List.getElem?_eq_some_iff.mp h
      rw [List.length_singleton] at hi
      have hzero : i - done.length = 0 := by omega
      simp only [hzero, List.getElem_cons_zero] at heq
      exact ⟨last, by rw [hzero]; rfl, by rw [← heq, endItem_name]⟩

/-- A body in one packet is one call of `http_parse_form`, at the end of the message. -/
theorem FormStart.parse {data : List Byte} (h : FormStart boundary data.length info) (hne : data ≠ []) :
    ∃ i, parseBody info data = httpParseForm data i ∧ AtBegin boundary ⟨0, none⟩ i ∧
      i.str.boundary.cString = some boundary ∧ i.logic.state = .none := by
  obtain ⟨httpInt, left, hbody⟩ := parseBody_form hne h.type h.notChunked h.left
  refine ⟨_, hbody, ⟨h.start.status, h.start.flag, h.start.line, h.start.cnt, ?_, WindowReader.sound_idle 0,
    h.start.arg⟩, h.stored, rfl⟩
  exact ⟨h.start.reads.num, h.start.reads.idle, fun w hw => by cases hw⟩

/-- **The parts are recorded** when every delimiter is met, the contents fit and the
second cut finds nothing to take off. -/
theorem form_recorded (hb : BoundaryOk boundary) {parts : List Part}
    (h : FormStart boundary (formText boundary parts).length info) (hcount : parts.length ≤ 31)
    (hplain : ∀ p ∈ parts, p.Plain boundary) (hok : FormOk boundary parts) :
    ∃ r, parseBody info (formText boundary parts) = some r ∧ FormRecorded parts r ∧ Named boundary parts r := by
  have htext : formText boundary parts ≠ [] := by
    unfold formText
    exact List.cons_ne_nil _ _
  obtain ⟨i, hbody, hbegin, hstored, hstate⟩ := h.parse htext
  rw [hbody]
  by_cases hmet : labelRest boundary = [] ∨
      List.replicate (dashCount boundary) (ch '-') <:+: labelRest boundary
  · obtain ⟨r, hr, hempty⟩ := form_unmet hbegin hstored hmet (formText boundary parts)
    have hnil : parts = [] := by
      cases parts with
      | nil => rfl
      | cons p parts =>
        have hdet := hok.detects p List.mem_cons_self
        exact absurd hmet (not_or.mpr ⟨hdet.rest, hdet.regular⟩)
    refine ⟨r, hr, by rw [FormRecorded, hempty, hnil]; rfl, ?_⟩
    intro j p item n hp
    rw [hnil] at hp
    cases hp
  · rw [not_or] at hmet
    obtain ⟨r, hr, hitems, hflag, hlogic⟩ :=
      form_detected hb hbegin hstored hmet.1 hmet.2 hcount hplain hok.detects
    have hend := @formEnd_items boundary _ r hflag (by rw [hlogic]; exact hstate) hitems
    refine ⟨_, hr, ?_, ?_⟩
    · rw [FormRecorded, hend]
      exact (endItems_recorded hmet.1 parts [] hok.size).mpr hok.last
    · intro j p item n hp hitem hn
      rw [hend] at hitem
      obtain ⟨item', hitem', hname⟩ := endItems_getElem hitem
      rw [hname]
      exact recordedItems_name parts [] j p item' n hp hitem' hn

end

end WafProxy
