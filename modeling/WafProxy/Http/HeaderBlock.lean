import WafProxy.Http.Modify
import WafProxy.Lib.Pieces

/-
  Where a header line stands — `_http_locate_line_value` of http_modify.c

  A header block is the request line, the lines behind it and an empty line, each
  with its CRLF. The function looks for the label anywhere, and then for the line
  end in front of it; what does not stand at the beginning of a line is passed
  over, 127 times at most. In the request line there is no line end in front, and
  it gives up.

  What is proved:
    1. `xMemcasestr_line`, `xMemrstr_line` — the two searches in a text made of
       lines.
    2. `httpLocateLoop_rest` — the loop inside a line that does not start with the
       label; `httpLocateLoop_fields` — over the lines (`locateIn`).
    3. `locate_iff` — the value is found as it should be only if the label is not
       in the request line or no line starts with it.

  Correspondence (C ↔ Lean):
    a label `Name:`                        ↔ `HeaderLabel`
    a head and its lines                   ↔ `HeaderBlock`
-/

namespace WafProxy
open Lib

/-! ## Searching a text made of lines -/

/-- A text without CR and LF. -/
def NoLineEnd (l : List Byte) : Prop := ∀ c ∈ l, c ≠ ch '\r' ∧ c ≠ ch '\n'

theorem NoLineEnd.append {l r : List Byte} (h : NoLineEnd (l ++ r)) : NoLineEnd l ∧ NoLineEnd r :=
  ⟨fun c hc => h c (List.mem_append_left r hc), fun c hc => h c (List.mem_append_right l hc)⟩

theorem tolower_cr : ∀ c, tolower c = ch '\r' → c = ch '\r' := by
  apply forall_byte
  decide +kernel

theorem tolower_lf : ∀ c, tolower c = ch '\n' → c = ch '\n' := by
  apply forall_byte
  decide +kernel

theorem tolower_colon : ∀ c, tolower c = ch ':' → c = ch ':' := by
  apply forall_byte
  decide +kernel

section
variable {needle : List Byte} (hn : NoLineEnd needle)
include hn

/-- A match of a text without line ends does not reach over a line end. -/
theorem startsWithCase_cr (t : List Byte) : ∀ u : List Byte,
    startsWithCase (u ++ ch '\r' :: t) needle = startsWithCase u needle := by
  induction needle with
  | nil => intro u; cases u <;> rfl
  | cons c needle ih =>
    have hc := hn c List.mem_cons_self
    intro u
    cases u with
    | nil =>
      have hne : ¬ tolower (ch '\r') = tolower c := fun heq => hc.1 (tolower_cr c heq.symm)
      simp [startsWithCase, hne]
    | cons b u =>
      rw [List.cons_append, startsWithCase, startsWithCase, ih (fun d hd => hn d (List.mem_cons_of_mem c hd))]

theorem startsWithCase_crlf (hne : needle ≠ []) (t : List Byte) : startsWithCase (crlf ++ t) needle = false := by
  have hstart := startsWithCase_cr hn (ch '\n' :: t) []
  obtain ⟨c, needle, rfl⟩ := List.exists_cons_of_ne_nil hne
  exact hstart

theorem startsWithCase_lf (hne : needle ≠ []) (t : List Byte) : startsWithCase (ch '\n' :: t) needle = false := by
  obtain ⟨c, needle, rfl⟩ := List.exists_cons_of_ne_nil hne
  have hne : ¬ tolower (ch '\n') = tolower c := fun heq => (hn c List.mem_cons_self).2 (tolower_lf c heq.symm)
  simp [startsWithCase, hne]

theorem xMemcasestr_crlf (hne : needle ≠ []) (t : List Byte) :
    xMemcasestr needle (crlf ++ t) = (xMemcasestr needle t).map (· + 2) := by
  have hcr : startsWithCase (ch '\r' :: ch '\n' :: t) needle = false := startsWithCase_crlf hn hne t
  have hlf := startsWithCase_lf hn hne t
  show xMemcasestr needle (ch '\r' :: ch '\n' :: t) = _
  simp only [xMemcasestr, hcr, hlf, Bool.false_eq_true, if_false, Option.map_map]
  rfl

/-- **The first match is in the line, or behind it.** -/
theorem xMemcasestr_line (hne : needle ≠ []) (t : List Byte) (u : List Byte) :
    xMemcasestr needle (u ++ crlf ++ t) =
      ((xMemcasestr needle u).or ((xMemcasestr needle t).map (· + (u.length + 2)))) := by
  induction u with
  | nil =>
    rw [List.nil_append, xMemcasestr_crlf hn hne, xMemcasestr, Option.none_or]
    rfl
  | cons c u ih =>
    have hstart := startsWithCase_cr hn (ch '\n' :: t) (c :: u)
    have hlist : c :: u ++ crlf ++ t = c :: (u ++ crlf ++ t) := rfl
    have hlist' : c :: (u ++ crlf ++ t) = c :: u ++ ch '\r' :: ch '\n' :: t := by simp [crlf]
    rw [hlist, xMemcasestr, hlist', hstart, xMemcasestr]
    by_cases h : startsWithCase (c :: u) needle = true
    · rw [if_pos h, if_pos h]
      rfl
    · rw [if_neg h, if_neg h, ih]
      cases xMemcasestr needle u with
      | some i => rfl
      | none =>
        rw [Option.none_or, Option.map_none, Option.none_or, Option.map_map]
        rfl

end

theorem xMemrstr_none {u : List Byte} (h : NoLineEnd u) : xMemrstr crlf u = none := by
  induction u with
  | nil => rfl
  | cons c u ih =>
    have hc := (h c List.mem_cons_self).1
    have hne : ¬ crlf.isPrefixOf (c :: u) = true := by
      intro hprefix
      obtain ⟨t, ht⟩ := List.isPrefixOf_iff_prefix.mp hprefix
      exact hc (List.cons.inj ht).1.symm
    rw [xMemrstr, ih fun d hd => h d (List.mem_cons_of_mem c hd)]
    exact if_neg hne

/-- **The last line end stands in front of the line.** -/
theorem xMemrstr_line {u : List Byte} (h : NoLineEnd u) (front : List Byte) :
    xMemrstr crlf (front ++ crlf ++ u) = some front.length := by
  induction front with
  | nil =>
    have hlf : xMemrstr crlf (ch '\n' :: u) = none := by
      rw [xMemrstr, xMemrstr_none h]
      rfl
    show xMemrstr crlf (ch '\r' :: ch '\n' :: u) = some 0
    rw [xMemrstr, hlf]
    rfl
  | cons c front ih =>
    show xMemrstr crlf (c :: (front ++ crlf ++ u)) = _
    rw [xMemrstr, ih]
    rfl

/-! ## Labels -/

/-- A label `Name:`. -/
structure HeaderLabel where
  name : List Byte
  plain : ∀ c ∈ name, c ≠ ch ':' ∧ c ≠ ch '\r' ∧ c ≠ ch '\n' ∧ c ≠ 0

namespace HeaderLabel
variable (label : HeaderLabel)

def text : List Byte := label.name ++ [ch ':']

theorem text_ne : label.text ≠ [] := List.append_ne_nil_of_right_ne_nil _ (List.cons_ne_nil _ _)

theorem text_line : NoLineEnd label.text := by
  intro c hc
  rcases List.mem_append.mp hc with hc | hc
  · exact ⟨(label.plain c hc).2.1, (label.plain c hc).2.2.1⟩
  · rw [List.mem_singleton.mp hc]
    decide

/-- The line starts with the label, in any letter case. -/
def starts (l : List Byte) : Bool := startsWithCase l label.text

end HeaderLabel

/-- The places at which the needle stands, in any letter case. -/
def labelCount (needle : List Byte) : List Byte → Nat
  | [] => 0
  | c :: t => (if startsWithCase (c :: t) needle then 1 else 0) + labelCount needle t

theorem labelCount_crlf {needle : List Byte} (hn : NoLineEnd needle) (hne : needle ≠ []) (t : List Byte) :
    labelCount needle (crlf ++ t) = labelCount needle t := by
  have hcr : startsWithCase (ch '\r' :: ch '\n' :: t) needle = false := startsWithCase_crlf hn hne t
  have hlf := startsWithCase_lf hn hne t
  show labelCount needle (ch '\r' :: ch '\n' :: t) = _
  simp only [labelCount, hcr, hlf, Bool.false_eq_true, if_false, Nat.zero_add]

theorem labelCount_line {needle : List Byte} (hn : NoLineEnd needle) (hne : needle ≠ []) (t u : List Byte) :
    labelCount needle (u ++ crlf ++ t) = labelCount needle u + labelCount needle t := by
  induction u with
  | nil => rw [List.nil_append, labelCount_crlf hn hne, labelCount, Nat.zero_add]
  | cons c u ih =>
    have hstart := startsWithCase_cr hn (ch '\n' :: t) (c :: u)
    have hlist : c :: u ++ crlf ++ t = c :: (u ++ crlf ++ t) := rfl
    have hlist' : c :: (u ++ crlf ++ t) = c :: u ++ ch '\r' :: ch '\n' :: t := by simp [crlf]
    rw [hlist, labelCount, hlist', hstart, ih, labelCount]
    omega

/-- Where nothing is found, nothing stands. -/
theorem labelCount_eq_zero {needle u : List Byte} : xMemcasestr needle u = none ↔ labelCount needle u = 0 := by
  induction u with
  | nil => exact ⟨fun _ => rfl, fun _ => rfl⟩
  | cons c u ih =>
    rw [xMemcasestr, labelCount]
    by_cases h : startsWithCase (c :: u) needle = true
    · simp [h]
    · rw [if_neg h, if_neg h, Option.map_eq_none_iff, ih, Nat.zero_add]

/-- Up to the first match nothing stands. -/
theorem labelCount_first {needle : List Byte} : ∀ {u : List Byte} {i : Nat}, xMemcasestr needle u = some i →
    labelCount needle u = labelCount needle (u.drop i) ∧ startsWithCase (u.drop i) needle = true := by
  intro u
  induction u with
  | nil => intro i h; cases h
  | cons c u ih =>
    intro i h
    rw [xMemcasestr] at h
    by_cases hs : startsWithCase (c :: u) needle = true
    · rw [if_pos hs] at h
      obtain rfl := Option.some.inj h
      exact ⟨rfl, hs⟩
    · rw [if_neg hs] at h
      obtain ⟨j, hj, rfl⟩ := Option.map_eq_some_iff.mp h
      obtain ⟨hcount, hstart⟩ := ih hj
      exact ⟨by rw [labelCount, if_neg hs, Nat.zero_add, hcount, List.drop_succ_cons], hstart⟩

/-- Two matches of a label have their colons apart. -/
theorem startsWithCase_colon {name : List Byte} (hname : ch ':' ∉ name) (v : List Byte) :
    ∀ {x : List Byte}, ch ':' ∉ x → startsWithCase (x ++ ch ':' :: v) (name ++ [ch ':']) = true →
    x.length = name.length := by
  induction name with
  | nil =>
    intro x hx h
    cases x with
    | nil => rfl
    | cons c x =>
      rw [List.nil_append, List.cons_append, startsWithCase, Bool.and_eq_true, decide_eq_true_eq] at h
      have hcolon : tolower c = ch ':' := h.1.trans (by decide)
      exact absurd List.mem_cons_self (tolower_colon c hcolon ▸ hx)
  | cons a name ih =>
    intro x hx h
    cases x with
    | nil =>
      rw [List.nil_append, List.cons_append, startsWithCase, Bool.and_eq_true, decide_eq_true_eq] at h
      have hcolon : tolower a = ch ':' := h.1.symm.trans (by decide)
      exact absurd List.mem_cons_self (tolower_colon a hcolon ▸ hname)
    | cons c x =>
      rw [List.cons_append, List.cons_append, startsWithCase, Bool.and_eq_true] at h
      rw [List.length_cons, List.length_cons, ih (fun hm => hname (List.mem_cons_of_mem a hm))
        (fun hm => hx (List.mem_cons_of_mem c hm)) h.2]

/-- A text that starts with a label, cut at its colon. -/
theorem startsWithCase_split {name : List Byte} (hname : ch ':' ∉ name) : ∀ {u : List Byte},
    startsWithCase u (name ++ [ch ':']) = true →
    ∃ x v, u = x ++ ch ':' :: v ∧ x.length = name.length ∧ ch ':' ∉ x := by
  induction name with
  | nil =>
    intro u h
    cases u with
    | nil => cases h
    | cons c u =>
      rw [List.nil_append, startsWithCase, Bool.and_eq_true, decide_eq_true_eq] at h
      have hcolon : tolower c = ch ':' := h.1.trans (by decide)
      exact ⟨[], u, by rw [tolower_colon c hcolon]; rfl, rfl, List.not_mem_nil⟩
  | cons a name ih =>
    intro u h
    cases u with
    | nil => cases h
    | cons c u =>
      rw [List.cons_append, startsWithCase, Bool.and_eq_true, decide_eq_true_eq] at h
      obtain ⟨x, v, rfl, hlen, hx⟩ := ih (fun hm => hname (List.mem_cons_of_mem a hm)) h.2
      refine ⟨c :: x, v, rfl, congrArg (· + 1) hlen, ?_⟩
      intro hmem
      rcases List.mem_cons.mp hmem with heq | hmem
      · have hcolon : tolower a = ch ':' := by
          rw [← h.1, ← heq]
          decide
        exact hname (tolower_colon a hcolon ▸ List.mem_cons_self)
      · exact hx hmem

namespace HeaderLabel
variable (label : HeaderLabel)

theorem name_colon : ch ':' ∉ label.name := fun h => (label.plain _ h).1 rfl

/-- **A label does not overlap itself.** -/
theorem labelCount_start {u : List Byte} (h : label.starts u = true) :
    labelCount label.text u = 1 + labelCount label.text (u.drop label.text.length) := by
  obtain ⟨x, v, rfl, hlen, hx⟩ := startsWithCase_split label.name_colon h
  have hshort : ∀ y : List Byte, ch ':' ∉ y → y.length < label.name.length →
      labelCount label.text (y ++ ch ':' :: v) = labelCount label.text v := by
    intro y
    induction y with
    | nil =>
      intro hy hlt
      have hnot : ¬ startsWithCase (ch ':' :: v) label.text = true := fun hs =>
        Nat.ne_of_lt hlt (startsWithCase_colon label.name_colon v hy hs)
      rw [List.nil_append, labelCount, if_neg hnot, Nat.zero_add]
    | cons c y ih =>
      intro hy hlt
      have hnot : ¬ startsWithCase (c :: (y ++ ch ':' :: v)) label.text = true := fun hs =>
        Nat.ne_of_lt hlt (@startsWithCase_colon _ label.name_colon v (c :: y) hy hs)
      rw [List.cons_append, labelCount, if_neg hnot, Nat.zero_add]
      exact ih (fun hm => hy (List.mem_cons_of_mem c hm)) (Nat.lt_of_succ_lt hlt)
  have hdrop : (x ++ ch ':' :: v).drop label.text.length = v := by
    have htext : label.text.length = (x ++ [ch ':']).length := by simp [text, hlen]
    have hcons : x ++ ch ':' :: v = (x ++ [ch ':']) ++ v := by simp
    rw [hcons, htext, List.drop_left]
  rw [hdrop]
  unfold starts at h
  cases x with
  | nil =>
    rw [List.nil_append] at h
    rw [List.nil_append, labelCount, if_pos h]
  | cons c x =>
    rw [List.cons_append, labelCount, ← List.cons_append, if_pos h,
      hshort x (fun hm => hx (List.mem_cons_of_mem c hm)) (by rw [← hlen]; exact Nat.lt_succ_self _)]

end HeaderLabel

/-! ## Blocks -/

/-- The lines, each with its CRLF. -/
def crlfLines (lines : List (List Byte)) : List Byte := joined (ch '\r') (ch '\n') lines

theorem crlfLines_cons (l : List Byte) (lines : List (List Byte)) :
    crlfLines (l :: lines) = l ++ crlf ++ crlfLines lines := rfl

theorem crlfLines_append (front back : List (List Byte)) :
    crlfLines (front ++ back) = crlfLines front ++ crlfLines back :=
  List.flatMap_append

/-- A header block: the request line, the lines behind it, and an empty line. -/
structure HeaderBlock where
  request : List Byte
  fields : List (List Byte)
  request_line : NoLineEnd request
  fields_line : ∀ l ∈ fields, NoLineEnd l

namespace HeaderBlock

def text (b : HeaderBlock) : List Byte := b.request ++ crlf ++ crlfLines b.fields ++ crlf

/-- The place of the line behind `front`. -/
def place (b : HeaderBlock) (front : List (List Byte)) : Nat := (b.request ++ crlf ++ crlfLines front).length

end HeaderBlock

/-! ## The loop -/

section
variable {data : List Byte} {label : HeaderLabel}

/-- The place of the first match from `start` on. -/
def firstFrom (data needle : List Byte) (start : Nat) : Option Nat :=
  (xMemcasestr needle (data.drop start)).map (start + ·)

/-- A turn depends on the first match only. -/
theorem httpLocateLoop_succ (data needle : List Byte) (cnt start : Nat) :
    httpLocateLoop data needle (cnt + 1) start =
      match firstFrom data needle start with
      | none => none
      | some begin =>
        match xMemrstr crlf (data.take begin) with
        | none => none
        | some lastEnd =>
          if lastEnd + 2 < begin then httpLocateLoop data needle cnt (begin + needle.length)
          else (xMemcasestr (str "\r") (data.drop (begin + needle.length))).map fun j =>
            (begin + needle.length, begin + needle.length + j) := by
  have hcrlf : str "\r\n" = crlf := by decide
  rw [httpLocateLoop, firstFrom, hcrlf]
  by_cases h : data.length ≤ start
  · rw [if_pos h, List.drop_eq_nil_of_le h]
    rfl
  · rw [if_neg h]
    cases xMemcasestr needle (data.drop start) <;> rfl

theorem httpLocateLoop_congr {needle : List Byte} {start start' : Nat}
    (h : firstFrom data needle start = firstFrom data needle start') (cnt : Nat) :
    httpLocateLoop data needle cnt start = httpLocateLoop data needle cnt start' := by
  cases cnt with
  | zero => rfl
  | succ cnt => rw [httpLocateLoop_succ, httpLocateLoop_succ, h]

/-- The first match behind a line that holds none. -/
theorem firstFrom_line {front u t : List Byte} (hu : xMemcasestr label.text u = none) :
    firstFrom (front ++ u ++ crlf ++ t) label.text front.length =
      firstFrom (front ++ u ++ crlf ++ t) label.text (front ++ u ++ crlf).length := by
  have hfirst : (front ++ u ++ crlf ++ t).drop front.length = u ++ crlf ++ t := by
    rw [List.append_assoc front, List.append_assoc front, List.drop_left]
  have hlen : (front ++ u ++ crlf).length = front.length + (u.length + 2) := by
    simp only [List.length_append]
    rw [Nat.add_assoc]
    rfl
  rw [firstFrom, firstFrom, hfirst, List.drop_left, xMemcasestr_line label.text_line label.text_ne, hu,
    Option.none_or,
    Option.map_map, hlen]
  congr 1
  funext i
  simp only [Function.comp]
  omega

/-- What is in front of the first match, the match, and what is behind it. -/
theorem labelCount_split {u : List Byte} {i : Nat} (hfind : xMemcasestr label.text u = some i) :
    ∃ a w v, u = a ++ (w ++ v) ∧ a.length = i ∧ w.length = label.text.length ∧
      labelCount label.text u = labelCount label.text v + 1 := by
  obtain ⟨hcount, hmatch⟩ := labelCount_first hfind
  obtain ⟨a, b, rfl, rfl⟩ : ∃ a b, u = a ++ b ∧ a.length = i :=
    ⟨u.take i, u.drop i, (List.take_append_drop i u).symm, by
      have := xMemcasestr_le hfind
      rw [List.length_take]
      omega⟩
  rw [List.drop_left] at hcount hmatch
  obtain ⟨w, v, rfl, hw⟩ : ∃ w v, b = w ++ v ∧ w.length = label.text.length :=
    ⟨b.take label.text.length, b.drop label.text.length, (List.take_append_drop _ _).symm,
      List.length_take_of_le (startsWithCase_length hmatch)⟩
  have hrest := label.labelCount_start hmatch
  rw [← hw, List.drop_left, Nat.add_comm] at hrest
  exact ⟨a, w, v, rfl, rfl, hw, hcount.trans hrest⟩

/-- **In the rest of a line** the loop passes over every match, when the rest does not begin the line with one. -/
theorem httpLocateLoop_rest {front t : List Byte} (n : Nat) : ∀ {u' u : List Byte} {cnt : Nat}, u.length ≤ n →
    NoLineEnd (u' ++ u) → (u' = [] → label.starts u = false) →
    httpLocateLoop (front ++ crlf ++ u' ++ u ++ crlf ++ t) label.text cnt (front ++ crlf ++ u').length =
      httpLocateLoop (front ++ crlf ++ u' ++ u ++ crlf ++ t) label.text (cnt - labelCount label.text u)
        (front ++ crlf ++ u' ++ u ++ crlf).length := by
  induction n with
  | zero =>
    intro u' u cnt hn _ _
    obtain rfl := List.length_eq_zero_iff.mp (Nat.le_zero.mp hn)
    exact httpLocateLoop_congr (firstFrom_line rfl) _
  | succ n ih =>
    intro u' u cnt hn hline hstart
    cases hfind : xMemcasestr label.text u with
    | none =>
      rw [labelCount_eq_zero.mp hfind, Nat.sub_zero]
      exact httpLocateLoop_congr (firstFrom_line hfind) _
    | some i =>
      obtain ⟨-, hmatch⟩ := labelCount_first hfind
      cases cnt with
      | zero =>
        rw [Nat.zero_sub]
        rfl
      | succ cnt =>
        -- the match is not at the beginning of the line, so there is something in front of it
        have hfront : 0 < u'.length + i := by
          rcases Nat.eq_zero_or_pos i with rfl | hi
          · rcases u' with _ | ⟨c, u'⟩
            · rw [List.drop_zero] at hmatch
              exact absurd ((hstart rfl).symm.trans hmatch) (by decide)
            · simp
          · omega
        obtain ⟨a, w, v, rfl, rfl, hw, hcount⟩ := labelCount_split hfind
        have hpos := List.length_pos_iff.mpr label.text_ne
        have hdata : front ++ crlf ++ u' ++ (a ++ (w ++ v)) ++ crlf ++ t =
            front ++ crlf ++ (u' ++ a ++ w) ++ v ++ crlf ++ t := by simp only [List.append_assoc]
        have hfirst : firstFrom (front ++ crlf ++ u' ++ (a ++ (w ++ v)) ++ crlf ++ t) label.text
            (front ++ crlf ++ u').length = some (front ++ crlf ++ (u' ++ a)).length := by
          rw [firstFrom, List.append_assoc _ _ t, List.append_assoc _ _ (crlf ++ t), List.drop_left,
            ← List.append_assoc,
            xMemcasestr_line label.text_line label.text_ne, hfind]
          simp only [Option.some_or, Option.map_some, List.length_append, Option.some.injEq]
          omega
        have htake : (front ++ crlf ++ u' ++ (a ++ (w ++ v)) ++ crlf ++ t).take (front ++ crlf ++ (u' ++ a)).length
          =
            front ++ crlf ++ (u' ++ a) := by
          have hlist : front ++ crlf ++ u' ++ (a ++ (w ++ v)) ++ crlf ++ t =
              front ++ crlf ++ (u' ++ a) ++ (w ++ v ++ crlf ++ t) := by simp only [List.append_assoc]
          rw [hlist, List.take_left]
        have hline' : NoLineEnd (u' ++ a) := by
          rw [← List.append_assoc] at hline
          exact hline.append.1
        have hcrlf : crlf.length = 2 := rfl
        have hbehind : (front ++ crlf ++ (u' ++ a)).length + label.text.length =
            (front ++ crlf ++ (u' ++ a ++ w)).length := by
          rw [← hw]
          simp only [List.length_append]
          omega
        rw [httpLocateLoop_succ, hfirst]
        dsimp only
        rw [htake, xMemrstr_line hline']
        dsimp only
        rw [if_pos (by simp only [List.length_append]; omega), hbehind, hdata, ih, hcount]
        · congr 1
          · omega
          · simp only [List.append_assoc]
        · simp only [List.length_append] at hn
          omega
        · simp only [List.append_assoc] at hline ⊢
          exact hline
        · intro hnil
          simp only [List.append_eq_nil_iff] at hnil
          rw [hnil.2] at hw
          exact absurd hw.symm (Nat.ne_of_gt hpos)

/-- The CR of a line is where the line ends. -/
theorem xMemcasestr_end {v : List Byte} (h : NoLineEnd v) (t : List Byte) :
    xMemcasestr (str "\r") (v ++ crlf ++ t) = some v.length := by
  induction v with
  | nil => rfl
  | cons c v ih =>
    have hne : ¬ tolower c = tolower (ch '\r') := fun heq =>
      (h c List.mem_cons_self).1 (tolower_cr c (heq.trans (by decide)))
    have hstart : startsWithCase (c :: (v ++ crlf ++ t)) (str "\r") = false := by
      show (decide (tolower c = tolower (ch '\r')) && _) = false
      rw [decide_eq_false hne, Bool.false_and]
    show xMemcasestr (str "\r") (c :: (v ++ crlf ++ t)) = _
    rw [xMemcasestr, hstart, if_neg (by decide), ih fun d hd => h d (List.mem_cons_of_mem c hd)]
    rfl

/-- What the loop finds in the lines from `place` on, with `cnt` turns left. -/
def locateIn (label : HeaderLabel) : Nat → Nat → List (List Byte) → Option (Nat × Nat)
  | _, _, [] => none
  | place, cnt, l :: lines =>
    if label.starts l then
      if cnt = 0 then none else some (place + label.text.length, place + l.length)
    else locateIn label (place + l.length + 2) (cnt - labelCount label.text l) lines

/-- The value of a line that starts with the label. -/
theorem httpLocateLoop_starts {front l t : List Byte} (hl : NoLineEnd l) (hstart : label.starts l = true)
    (cnt : Nat) :
    httpLocateLoop (front ++ crlf ++ l ++ crlf ++ t) label.text (cnt + 1) (front ++ crlf).length =
      some ((front ++ crlf).length + label.text.length, (front ++ crlf).length + l.length) := by
  obtain ⟨w, v, rfl, hw⟩ : ∃ w v, l = w ++ v ∧ w.length = label.text.length :=
    ⟨l.take label.text.length, l.drop label.text.length, (List.take_append_drop _ _).symm,
      List.length_take_of_le (startsWithCase_length hstart)⟩
  have hzero : xMemcasestr label.text (w ++ v) = some 0 := by
    have hne : w ++ v ≠ [] := by
      intro hnil
      rw [(List.append_eq_nil_iff.mp hnil).1] at hw
      exact label.text_ne (List.length_eq_zero_iff.mp hw.symm)
    obtain ⟨c, u, hcons⟩ := List.exists_cons_of_ne_nil hne
    unfold HeaderLabel.starts at hstart
    rw [hcons] at hstart ⊢
    rw [xMemcasestr, if_pos hstart]
  have hfirst : firstFrom (front ++ crlf ++ (w ++ v) ++ crlf ++ t) label.text (front ++ crlf).length =
      some (front ++ crlf).length := by
    rw [firstFrom, List.append_assoc _ _ t, List.append_assoc _ _ (crlf ++ t), List.drop_left, ← List.append_assoc,
      xMemcasestr_line label.text_line label.text_ne, hzero]
    rfl
  have htake : (front ++ crlf ++ (w ++ v) ++ crlf ++ t).take (front ++ crlf).length = front ++ crlf ++ [] := by
    have hlist : front ++ crlf ++ (w ++ v) ++ crlf ++ t = (front ++ crlf) ++ (w ++ v ++ crlf ++ t) := by
      simp only [List.append_assoc]
    rw [hlist, List.take_left, List.append_nil]
  have hdrop : (front ++ crlf ++ (w ++ v) ++ crlf ++ t).drop ((front ++ crlf).length + label.text.length) =
      v ++ crlf ++ t := by
    have hlist : front ++ crlf ++ (w ++ v) ++ crlf ++ t = (front ++ crlf ++ w) ++ (v ++ crlf ++ t) := by
      simp only [List.append_assoc]
    rw [hlist, ← hw, ← List.length_append, List.drop_left]
  have hcrlf : (front ++ crlf).length = front.length + 2 := List.length_append
  have hempty : NoLineEnd [] := fun c hc => by cases hc
  have hlen : (w ++ v).length = label.text.length + v.length := by rw [List.length_append, hw]
  rw [httpLocateLoop_succ, hfirst]
  dsimp only
  rw [htake, xMemrstr_line hempty]
  dsimp only
  rw [if_neg (by omega), hdrop, xMemcasestr_end hl.append.2, Option.map_some, hlen, Nat.add_assoc]

/-- **Over the lines** the loop finds the first one that starts with the label. -/
theorem httpLocateLoop_fields (fields : List (List Byte)) : ∀ {front : List Byte} {cnt : Nat},
    (∀ l ∈ fields, NoLineEnd l) →
    httpLocateLoop (front ++ crlf ++ crlfLines fields ++ crlf) label.text cnt (front ++ crlf).length =
      locateIn label (front ++ crlf).length cnt fields := by
  induction fields with
  | nil =>
    intro front cnt _
    have hfirst : firstFrom (front ++ crlf ++ crlfLines [] ++ crlf) label.text (front ++ crlf).length = none := by
      have hnone := xMemcasestr_crlf label.text_line label.text_ne []
      rw [List.append_nil] at hnone
      rw [firstFrom, crlfLines, joined, List.flatMap_nil, List.append_nil, List.drop_left, hnone]
      rfl
    cases cnt with
    | zero => rfl
    | succ cnt =>
      rw [httpLocateLoop_succ, hfirst]
      rfl
  | cons l fields ih =>
    intro front cnt hfields
    have hl := hfields l List.mem_cons_self
    have hdata : front ++ crlf ++ crlfLines (l :: fields) ++ crlf =
        front ++ crlf ++ l ++ crlf ++ (crlfLines fields ++ crlf) := by
      rw [crlfLines_cons]
      simp only [List.append_assoc]
    rw [locateIn]
    by_cases hstart : label.starts l = true
    · rw [if_pos hstart]
      cases cnt with
      | zero => rfl
      | succ cnt => rw [if_neg (Nat.succ_ne_zero cnt), hdata, httpLocateLoop_starts hl hstart]
    · have hrest := @httpLocateLoop_rest label front (crlfLines fields ++ crlf) l.length [] l cnt (Nat.le_refl _) hl
        fun _ => Bool.eq_false_iff.mpr hstart
      rw [List.append_nil] at hrest
      have hdata' : front ++ crlf ++ l ++ crlf ++ (crlfLines fields ++ crlf) =
          (front ++ crlf ++ l) ++ crlf ++ crlfLines fields ++ crlf := by simp only [List.append_assoc]
      have hplace : (front ++ crlf).length + l.length + 2 = (front ++ crlf ++ l ++ crlf).length := by
        simp only [List.length_append]
        rfl
      rw [if_neg hstart, hdata, hrest, hdata', ih fun l' hl' => hfields l' (List.mem_cons_of_mem l hl'), hplace]

end

/-- **Where the function looks**: in the lines, unless the label is in the request line. -/
theorem httpLocateLineValue_block (b : HeaderBlock) (label : HeaderLabel) :
    httpLocateLineValue b.text label.text =
      if labelCount label.text b.request = 0 then locateIn label (b.place []) 128 b.fields else none := by
  have htext : b.text = [] ++ b.request ++ crlf ++ (crlfLines b.fields ++ crlf) := by
    rw [HeaderBlock.text, List.nil_append, List.append_assoc _ _ crlf]
  have hplace : b.place [] = (b.request ++ crlf).length := by
    rw [HeaderBlock.place, crlfLines, joined, List.flatMap_nil, List.append_nil]
  unfold httpLocateLineValue
  cases hfind : xMemcasestr label.text b.request with
  | none =>
    have hcongr := httpLocateLoop_congr (@firstFrom_line label [] b.request (crlfLines b.fields ++ crlf) hfind) 128
    rw [if_pos (labelCount_eq_zero.mp hfind), htext, hplace, ← httpLocateLoop_fields b.fields b.fields_line]
    rw [List.length_nil] at hcongr
    rw [hcongr, List.nil_append]
    simp only [List.append_assoc]
  | some i =>
    -- there is no line end in front of the match
    have hle := xMemcasestr_le hfind
    have hsome : labelCount label.text b.request ≠ 0 := by
      rw [Ne, ← labelCount_eq_zero, hfind]
      exact Option.some_ne_none i
    have hfirst : firstFrom b.text label.text 0 = some i := by
      rw [firstFrom, htext, List.drop_zero, List.nil_append, xMemcasestr_line label.text_line label.text_ne, hfind,
        Option.some_or, Option.map_some, Nat.zero_add]
    have htake : b.text.take i = b.request.take i := by
      rw [htext, List.nil_append, List.append_assoc, List.take_append_of_le_length (by omega)]
    have hline : NoLineEnd (b.request.take i) := fun c hc => b.request_line c (List.mem_of_mem_take hc)
    rw [if_neg hsome, httpLocateLoop_succ, hfirst]
    dsimp only
    rw [htake, xMemrstr_none hline]

/-! ## The first line that starts with the label -/

/-- A list has no element with a property, or a first one. -/
theorem first_or_none {α : Type} (p : α → Bool) (l : List α) :
    (∀ a ∈ l, p a = false) ∨ ∃ front a back, l = front ++ a :: back ∧ (∀ b ∈ front, p b = false) ∧ p a = true := by
  cases hfind : l.find? p with
  | none => exact Or.inl fun a ha => Bool.eq_false_iff.mpr (List.find?_eq_none.mp hfind a ha)
  | some a =>
    obtain ⟨ha, front, back, hl, hfront⟩ := List.find?_eq_some_iff_append.mp hfind
    exact Or.inr ⟨front, a, back, hl, fun b hb => (by simpa using hfront b hb), ha⟩

section
variable {label : HeaderLabel}

theorem crlfLines_length_cons (l : List Byte) (lines : List (List Byte)) :
    (crlfLines (l :: lines)).length = l.length + 2 + (crlfLines lines).length := by
  rw [crlfLines_cons, List.length_append, List.length_append]
  rfl

theorem locateIn_none {fields : List (List Byte)} (h : ∀ l ∈ fields, label.starts l = false) :
    ∀ (place cnt : Nat), locateIn label place cnt fields = none := by
  induction fields with
  | nil => exact fun _ _ => rfl
  | cons l fields ih =>
    intro place cnt
    rw [locateIn, if_neg (by rw [h l List.mem_cons_self]; decide)]
    exact ih (fun l' hl' => h l' (List.mem_cons_of_mem l hl')) _ _

/-- **The first line that starts with the label**, when there are turns enough for what stands in front. -/
theorem locateIn_first {front back : List (List Byte)} {line : List Byte} (hfront : ∀ l ∈ front, NoLineEnd l)
    (hnot : ∀ l ∈ front, label.starts l = false) (hline : label.starts line = true) :
    ∀ {place cnt : Nat}, labelCount label.text (crlfLines front) < cnt →
    locateIn label place cnt (front ++ line :: back) =
      some (place + (crlfLines front).length + label.text.length,
        place + (crlfLines front).length + line.length) := by
  induction front with
  | nil =>
    intro place cnt hcnt
    rw [List.nil_append, locateIn, if_pos hline, if_neg (by omega)]
    rfl
  | cons l front ih =>
    intro place cnt hcnt
    have hoccur := labelCount_line label.text_line label.text_ne (crlfLines front) l
    rw [crlfLines_cons, hoccur] at hcnt
    rw [List.cons_append, locateIn, if_neg (by rw [hnot l List.mem_cons_self]; decide),
      ih (fun l' hl' => hfront l' (List.mem_cons_of_mem l hl')) (fun l' hl' => hnot l' (List.mem_cons_of_mem l hl'))
        (by omega), crlfLines_length_cons]
    congr 2 <;> omega

/-- **What is found is the first line that starts with the label.** -/
theorem locateIn_some {fields : List (List Byte)} : ∀ {place cnt begin stop : Nat},
    locateIn label place cnt fields = some (begin, stop) →
    ∃ front line back, fields = front ++ line :: back ∧ (∀ l ∈ front, label.starts l = false) ∧
      label.starts line = true ∧ begin = place + (crlfLines front).length + label.text.length ∧
      stop = place + (crlfLines front).length + line.length := by
  induction fields with
  | nil =>
    intro place cnt begin stop h
    cases h
  | cons l fields ih =>
    intro place cnt begin stop h
    rw [locateIn] at h
    by_cases hl : label.starts l = true
    · rw [if_pos hl] at h
      split at h
      · cases h
      · obtain ⟨rfl, rfl⟩ := Prod.mk.inj (Option.some.inj h)
        exact ⟨[], l, fields, rfl, fun l' hl' => (by cases hl'), hl, rfl, rfl⟩
    · rw [if_neg hl] at h
      obtain ⟨front, line, back, rfl, hnot, hline, rfl, rfl⟩ := ih h
      refine ⟨l :: front, line, back, rfl, ?_, hline, ?_, ?_⟩
      · intro l' hl'
        rcases List.mem_cons.mp hl' with rfl | hl'
        · exact Bool.eq_false_iff.mpr hl
        · exact hnot l' hl'
      · rw [crlfLines_length_cons]
        omega
      · rw [crlfLines_length_cons]
        omega

end

namespace HeaderBlock
variable (b : HeaderBlock) (label : HeaderLabel)

/-- What the function should return. -/
structure Located (result : Option (Nat × Nat)) : Prop where
  found : ∀ front line back, b.fields = front ++ line :: back → (∀ l ∈ front, label.starts l = false) →
    label.starts line = true → result = some (b.place front + label.text.length, b.place front + line.length)
  missing : (∀ l ∈ b.fields, label.starts l = false) → result = none

/-- How often the label stands anywhere else than at the beginning of the line that is looked for. -/
def others : Nat :=
  labelCount label.text b.text - if b.fields.any label.starts then 1 else 0

theorem place_eq (front : List (List Byte)) : b.place front = b.place [] + (crlfLines front).length := by
  show (b.request ++ crlf ++ crlfLines front).length = (b.request ++ crlf ++ []).length + _
  rw [List.append_nil, List.length_append]

/-- In front of the line the label stands less often than anywhere else. -/
theorem labelCount_front {front back : List (List Byte)} {line : List Byte} (h : b.fields = front ++ line :: back)
    (hline : label.starts line = true) : labelCount label.text (crlfLines front) ≤ b.others label := by
  have hpos : 0 < labelCount label.text line := by
    have hstart := label.labelCount_start hline
    omega
  have hjoined : ∀ (lines : List (List Byte)) (t : List Byte), labelCount label.text (crlfLines lines ++ t) =
      labelCount label.text (crlfLines lines) + labelCount label.text t := by
    intro lines t
    induction lines with
    | nil => exact (Nat.zero_add _).symm
    | cons l lines ih =>
      rw [crlfLines_cons, List.append_assoc (l ++ crlf), labelCount_line label.text_line label.text_ne,
        labelCount_line label.text_line label.text_ne, ih, Nat.add_assoc]
  have hany : b.fields.any label.starts = true := by
    rw [h]
    simp [hline]
  have htext : b.text = b.request ++ crlf ++ (crlfLines front ++ (line ++ crlf ++ (crlfLines back ++ crlf))) := by
    rw [text, h, crlfLines_append, crlfLines_cons]
    simp only [List.append_assoc]
  rw [others, hany, htext, labelCount_line label.text_line label.text_ne, hjoined,
    labelCount_line label.text_line label.text_ne, if_pos rfl]
  omega

/-- **Where a header line is found.** When the label stands less than 128 times anywhere else, the value is found
as it should be exactly if the label does not stand in the request line, or no line starts with it. -/
theorem locate_iff (hothers : b.others label < 128) :
    b.Located label (httpLocateLineValue b.text label.text) ↔
      labelCount label.text b.request = 0 ∨ ∀ l ∈ b.fields, label.starts l = false := by
  rw [httpLocateLineValue_block]
  constructor
  · intro h
    by_cases hrequest : labelCount label.text b.request = 0
    · exact Or.inl hrequest
    · right
      rw [if_neg hrequest] at h
      rcases first_or_none label.starts b.fields with hnone | hfirst
      · exact hnone
      · -- a line starts with the label, and the request line has ended the search
        obtain ⟨front, line, back, hfields, hfront, hline⟩ := hfirst
        cases h.found front line back hfields hfront hline
  · intro h
    by_cases hrequest : labelCount label.text b.request = 0
    · rw [if_pos hrequest]
      refine ⟨fun front line back hfields hfirst hline => ?_, fun hnone => locateIn_none hnone _ _⟩
      have hlt := Nat.lt_of_le_of_lt (b.labelCount_front label hfields hline) hothers
      have hfront : ∀ l ∈ front, NoLineEnd l := by
        intro l hl
        apply b.fields_line
        rw [hfields]
        exact List.mem_append_left _ hl
      rw [hfields, locateIn_first hfront hfirst hline hlt, b.place_eq front]
    · rw [if_neg hrequest]
      refine ⟨fun front line back hfields _ hline => ?_, fun _ => rfl⟩
      have hmem : line ∈ b.fields := by
        rw [hfields]
        simp
      rw [h.resolve_left hrequest line hmem] at hline
      cases hline

end HeaderBlock

/-- The label `Host:`. -/
def hostLabel : HeaderLabel := ⟨str "Host", forall_text (by decide)⟩

/-- A request for a path, with one Host line. -/
def hostBlock (path : List Byte) (h : NoLineEnd (str "GET " ++ path ++ str " HTTP/1.1")) : HeaderBlock where
  request := str "GET " ++ path ++ str " HTTP/1.1"
  fields := [str "host: a"]
  request_line := h
  fields_line := by
    intro l hl
    rw [List.mem_singleton.mp hl]
    exact forall_text (by decide)

theorem locate_host : (hostBlock (str "/") (forall_text (by decide))).others hostLabel < 128 ∧
    (hostBlock (str "/") (forall_text (by decide))).Located hostLabel
      (httpLocateLineValue (hostBlock (str "/") (forall_text (by decide))).text hostLabel.text) := by
  refine ⟨by decide +kernel, ?_⟩
  exact (HeaderBlock.locate_iff _ hostLabel (by decide +kernel)).mpr (Or.inl (by decide +kernel))

/-- With the label in the URL nothing is found, though a line starts with it. -/
theorem locate_url : (hostBlock (str "/host:x") (forall_text (by decide))).others hostLabel = 1 ∧
    httpLocateLineValue (hostBlock (str "/host:x") (forall_text (by decide))).text hostLabel.text = none ∧
    ¬ (hostBlock (str "/host:x") (forall_text (by decide))).Located hostLabel
      (httpLocateLineValue (hostBlock (str "/host:x") (forall_text (by decide))).text hostLabel.text) := by
  have hnone : httpLocateLineValue (hostBlock (str "/host:x") (forall_text (by decide))).text hostLabel.text =
    none := by
    decide +kernel
  refine ⟨by decide +kernel, hnone, ?_⟩
  intro h
  have hfound := h.found [] (str "host: a") [] rfl (fun l hl => by cases hl) (by decide +kernel)
  rw [hnone] at hfound
  cases hfound

end WafProxy
