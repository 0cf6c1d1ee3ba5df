import WafProxy.Http.HeaderCalls
import WafProxy.Lib.FirstEdit

/-
  The head of a request, and what an edit of it means

  A head has a method, a target, a version and lines. An edit adds a line, changes
  or removes the first line that starts with a label, or exchanges the target. It
  says nothing of buffers and offsets; `HeadEdit.run` is what a caller may rely on,
  with the one bound there is, the size of the output buffer.

  A line that starts with the label is not reached when the label stands in the request line, or
  128 times in front of it: that is how far http_modify.c looks. A value is
  appended wherever the line is.

  What is proved:
    1. `editLines_line` — the lines of a head stay lines of a head.
    2. `HeadEdit.run_words`, `HeadEdit.run_target` — no edit touches the method and
       the version, and only one touches the target.
    3. `HeadEdit.run_others` — an edit leaves all lines alone that do not start with
       its label.

  The head is this development's own; see `HeaderScript` for what relates it to the
  calls of http_modify.c.
-/

namespace WafProxy
open Lib

/-! ## Texts -/

/-- A text that can stand in a line. -/
structure HeadText where
  text : List Byte
  plain : ∀ c ∈ text, c ≠ ch '\r' ∧ c ≠ ch '\n' ∧ c ≠ 0

/-- The value of a line: not empty, and of 2000 bytes at most. -/
structure FieldValue extends HeadText where
  ne : text ≠ []
  short : text.length ≤ MAX_LINE_LEN

theorem HeadText.line (t : HeadText) : NoLineEnd t.text := fun c hc => ⟨(t.plain c hc).1, (t.plain c hc).2.1⟩

/-- The value with one more byte in front, unless it is too long for that. -/
def HeadText.behind (c : Byte) (hc : c ≠ ch '\r' ∧ c ≠ ch '\n' ∧ c ≠ 0) (t : HeadText) : Option FieldValue :=
  if h : 0 < t.text.length ∧ t.text.length < MAX_LINE_LEN then
    some
      { text := c :: t.text
        plain := fun d hd => (List.mem_cons.mp hd).elim (fun heq => heq ▸ hc) (t.plain d)
        ne := List.cons_ne_nil _ _
        short := h.2 }
  else none

/-- A target: not empty, and of a length that an `int` holds. -/
structure Target extends HeadText where
  ne : text ≠ []
  short : text.length < 2 ^ 31

/-- What a line of a head is. -/
def PlainLine (l : List Byte) : Prop := NoLineEnd l ∧ l ≠ []

/-! ## Heads -/

/-- The head of a request. -/
structure RequestHead where
  method : LineWord
  version : LineWord
  target : Target
  fields : List (List Byte)
  words_line : NoLineEnd method.text ∧ NoLineEnd version.text
  fields_line : ∀ l ∈ fields, PlainLine l

namespace RequestHead
variable (h : RequestHead)

def request : List Byte := h.method.text ++ ch ' ' :: (h.target.text ++ ch ' ' :: h.version.text)

theorem request_line : NoLineEnd h.request := by
  intro c hc
  simp only [request, List.mem_append, List.mem_cons] at hc
  rcases hc with hc | rfl | hc | rfl | hc
  · exact h.words_line.1 c hc
  · decide
  · exact h.target.line c hc
  · decide
  · exact h.words_line.2 c hc

/-- The head as a block of lines. -/
def block : HeaderBlock where
  request := h.request
  fields := h.fields
  request_line := h.request_line
  fields_line := fun l hl => (h.fields_line l hl).1

/-- The head as what stands around its target. -/
def header : UrlHeader := ⟨h.method, h.version, crlfLines h.fields ++ crlf⟩

/-- The bytes of the head. -/
def text : List Byte := h.block.text

theorem text_target : h.text = h.header.text h.target.text := by
  show h.request ++ crlf ++ crlfLines h.fields ++ crlf = h.request ++ crlf ++ (crlfLines h.fields ++ crlf)
  rw [List.append_assoc _ _ crlf]

end RequestHead

/-! ## Edits -/

/-- The lines in front of the first one that starts with the label. -/
def HeaderLabel.ahead (label : HeaderLabel) (fields : List (List Byte)) : List (List Byte) :=
  fields.takeWhile fun l => !label.starts l

/-- The search for the label gets to its line. -/
def RequestHead.Reaches (h : RequestHead) (label : HeaderLabel) : Prop :=
  labelCount label.text h.request = 0 ∧ h.fields.any label.starts = true ∧
    labelCount label.text (crlfLines (label.ahead h.fields)) < 128

instance (h : RequestHead) (label : HeaderLabel) : Decidable (h.Reaches label) :=
  inferInstanceAs (Decidable (_ ∧ _ ∧ _))

/-- The new head and its length, when it fits in `max` bytes. -/
def RequestHead.settle (max : Nat) (h h' : RequestHead) : Int × RequestHead :=
  if h'.text.length ≤ max then (h'.text.length, h') else (-1, h)

inductive HeadEdit where
  | insert (label : HeaderLabel) (value : FieldValue)
  | update (label : HeaderLabel) (value : FieldValue)
  | append (label : HeaderLabel) (value : FieldValue)
  | remove (label : HeaderLabel)
  | retarget (target : Target)

namespace HeadEdit

/-- The lines after the edit. -/
def editLines (e : HeadEdit) (fields : List (List Byte)) : List (List Byte) :=
  match e with
  | .insert label value => fields ++ [label.text ++ value.text]
  | .update label value => editFirst label.starts (fun l => [l.take label.text.length ++ value.text]) fields
  | .append label value => editFirst label.starts (fun l => [l ++ value.text]) fields
  | .remove label => editFirst label.starts (fun _ => []) fields
  | .retarget _ => fields

theorem line_append {l r : List Byte} (hl : NoLineEnd l) (hr : NoLineEnd r) : NoLineEnd (l ++ r) :=
  fun c hc => (List.mem_append.mp hc).elim (hl c) (hr c)

/-- **Lines stay lines.** -/
theorem editLines_line (e : HeadEdit) {fields : List (List Byte)} (h : ∀ l ∈ fields, PlainLine l) :
    ∀ l ∈ e.editLines fields, PlainLine l := by
  cases e with
  | insert label value =>
    intro l hl
    apply (List.mem_append.mp hl).elim (h l)
    intro hnew
    rw [List.mem_singleton.mp hnew]
    exact ⟨line_append label.text_line value.line, List.append_ne_nil_of_right_ne_nil _ value.ne⟩
  | update label value =>
    apply editFirst_all _ h
    intro l _ hl b hb
    rw [List.mem_singleton.mp hb]
    have hcut : NoLineEnd (l.take label.text.length) := fun c hc => hl.1 c (List.mem_of_mem_take hc)
    exact ⟨line_append hcut value.line, List.append_ne_nil_of_right_ne_nil _ value.ne⟩
  | append label value =>
    apply editFirst_all _ h
    intro l _ hl b hb
    rw [List.mem_singleton.mp hb]
    exact ⟨line_append hl.1 value.line, List.append_ne_nil_of_right_ne_nil _ value.ne⟩
  | remove label =>
    apply editFirst_all _ h
    intro l _ _ b hb
    cases hb
  | retarget target => exact h

/-- The head after the edit. -/
def result (e : HeadEdit) (h : RequestHead) : RequestHead where
  method := h.method
  version := h.version
  target := match e with
    | .retarget target => target
    | _ => h.target
  fields := e.editLines h.fields
  words_line := h.words_line
  fields_line := e.editLines_line h.fields_line

/-- When there is something to edit. -/
def Applies (e : HeadEdit) (h : RequestHead) : Prop :=
  match e with
  | .insert _ _ => True
  | .update label _ => h.Reaches label
  | .append label _ => h.fields.any label.starts = true
  | .remove label => h.Reaches label
  | .retarget _ => True

instance (e : HeadEdit) (h : RequestHead) : Decidable (e.Applies h) :=
  match e with
  | .insert _ _ => .isTrue trivial
  | .update label _ => inferInstanceAs (Decidable (h.Reaches label))
  | .append label _ => inferInstanceAs (Decidable (h.fields.any label.starts = true))
  | .remove label => inferInstanceAs (Decidable (h.Reaches label))
  | .retarget _ => .isTrue trivial

/-- The answer when there is nothing to edit: a line that is not there is no failure of a removal. -/
def idle (e : HeadEdit) (h : RequestHead) : Int :=
  match e with
  | .remove _ => h.text.length
  | _ => -1

/-- **What an edit does** in a buffer of `max` bytes: its answer, and the head behind it. -/
def run (max : Nat) (e : HeadEdit) (h : RequestHead) : Int × RequestHead :=
  if e.Applies h then h.settle max (e.result h) else (e.idle h, h)

/-- The head behind an edit is the old one or the edited one. -/
theorem run_head (max : Nat) (e : HeadEdit) (h : RequestHead) :
    (e.run max h).2 = h ∨ (e.run max h).2 = e.result h := by
  unfold run RequestHead.settle
  split
  · split
    · exact Or.inr rfl
    · exact Or.inl rfl
  · exact Or.inl rfl

/-! ## What an edit leaves alone -/

/-- The label of an edit of lines. -/
def label? : HeadEdit → Option HeaderLabel
  | .insert label _ => some label
  | .update label _ => some label
  | .append label _ => some label
  | .remove label => some label
  | .retarget _ => none

theorem run_words (max : Nat) (e : HeadEdit) (h : RequestHead) :
    (e.run max h).2.method = h.method ∧ (e.run max h).2.version = h.version := by
  apply (run_head max e h).elim
  · intro heq
    rw [heq]
    exact ⟨rfl, rfl⟩
  · intro heq
    rw [heq]
    exact ⟨rfl, rfl⟩

theorem run_target (max : Nat) {e : HeadEdit} (he : e.label? ≠ none) (h : RequestHead) :
    (e.run max h).2.target = h.target := by
  apply (run_head max e h).elim
  · intro heq
    rw [heq]
  · intro heq
    rw [heq]
    cases e with
    | retarget target => exact absurd rfl he
    | _ => rfl

/-- A line that starts with a text does so with anything behind that text. -/
theorem starts_value {label : HeaderLabel} {l : List Byte} (h : label.starts l = true) (v : List Byte) :
    label.starts (l ++ v) = true ∧ label.starts (l.take label.text.length ++ v) = true := by
  have hlong : ∀ (needle l : List Byte), startsWithCase l needle = true →
      startsWithCase (l ++ v) needle = true ∧ startsWithCase (l.take needle.length ++ v) needle = true := by
    intro needle
    induction needle with
    | nil =>
      intro l _
      have hnil : ∀ t : List Byte, startsWithCase t [] = true := fun t => by cases t <;> rfl
      exact ⟨hnil _, hnil _⟩
    | cons c needle ih =>
      intro l hl
      cases l with
      | nil => cases hl
      | cons b l =>
        rw [startsWithCase, Bool.and_eq_true] at hl
        obtain ⟨hwhole, hcut⟩ := ih l hl.2
        simp [startsWithCase, of_decide_eq_true hl.1, hwhole, hcut]
  exact hlong label.text l h

theorem starts_self (label : HeaderLabel) (v : List Byte) : label.starts (label.text ++ v) = true := by
  have hself : ∀ needle : List Byte, startsWithCase (needle ++ v) needle = true := by
    intro needle
    induction needle with
    | nil => cases v <;> rfl
    | cons c needle ih => simp [startsWithCase, ih]
  exact hself label.text

/-- **The other lines** stay as they are and in their order. -/
theorem editLines_others {e : HeadEdit} {q : List Byte → Bool}
    (hq : ∀ label, e.label? = some label → ∀ l, label.starts l = true → q l = false) (fields : List (List Byte)) :
    (e.editLines fields).filter q = fields.filter q := by
  cases e with
  | insert label value =>
    have hnew := hq label rfl _ (starts_self label value.text)
    simp [editLines, hnew]
  | update label value =>
    apply filter_editFirst (hq label rfl)
    intro l hl b hb
    rw [List.mem_singleton.mp hb]
    exact hq label rfl _ (starts_value hl value.text).2
  | append label value =>
    apply filter_editFirst (hq label rfl)
    intro l hl b hb
    rw [List.mem_singleton.mp hb]
    exact hq label rfl _ (starts_value hl value.text).1
  | remove label =>
    apply filter_editFirst (hq label rfl)
    intro l _ b hb
    cases hb
  | retarget target => rfl

theorem run_others (max : Nat) {e : HeadEdit} {q : List Byte → Bool}
    (hq : ∀ label, e.label? = some label → ∀ l, label.starts l = true → q l = false) (h : RequestHead) :
    (e.run max h).2.fields.filter q = h.fields.filter q := by
  apply (run_head max e h).elim
  · intro heq
    rw [heq]
  · intro heq
    rw [heq]
    exact editLines_others hq h.fields

end HeadEdit

end WafProxy
