import WafProxy.Http.HeldHead
import WafProxy.Lib.Answers

/-
  Scripts of header calls — http_modify.c

  A script is a list of calls, each with its record. What it does to the bytes in
  the output buffer is what the edits do to the head.

  What is proved:
    1. `HeaderCall.run_does` — one call is one edit of the head, or none.
    2. `script_refines` — a script of calls returns what the edits answer, and
       leaves the edited head in the buffer.
    3. `script_others` — lines that start with no label of the script stay as they
       are, and so do the method, the version and, without a new URL, the target.
    4. `removals` — n removals take the first n lines that start with the label.
-/

namespace WafProxy
open Lib

/-! ## The labels -/

def forwardedLabel : HeaderLabel := ⟨str "X-Forwarded-For", forall_text (by decide)⟩

def encodingLabel : HeaderLabel := ⟨str "Content-Encoding", forall_text (by decide)⟩

def lengthLabel : HeaderLabel := ⟨str "content-length", forall_text (by decide)⟩

def referLabel : HeaderLabel := ⟨str "Referer", forall_text (by decide)⟩

def locationLabel : HeaderLabel := ⟨str "Location", forall_text (by decide)⟩

def chunkLabel : HeaderLabel := ⟨str "transfer-encoding", forall_text (by decide)⟩

def cookieLabel : HeaderLabel := ⟨str "cookie", forall_text (by decide)⟩

def authLabel : HeaderLabel := ⟨str "Authorization", forall_text (by decide)⟩

/-- The label of the lines a call is about. -/
def HeaderCall.label? : HeaderCall → Option HeaderLabel
  | .replaceHost | .updateHost => some hostLabel
  | .appendXff => some forwardedLabel
  | .appendGzip | .removeGzip => some encodingLabel
  | .replaceContentLen => some lengthLabel
  | .replaceRefer | .updateRefer => some referLabel
  | .replaceLocation | .updateLocation => some locationLabel
  | .updateUrl => none
  | .removeChunk => some chunkLabel
  | .removeCookie => some cookieLabel
  | .removeAuth | .replaceAuth => some authLabel

/-! ## What a call does to a head -/

/-- The texts of a record. -/
structure HeaderTexts where
  url : Option Target := none
  host : Option HeadText := none
  auth : Option HeadText := none
  refer : Option HeadText := none
  xff : Option HeadText := none
  location : Option HeadText := none
  contentLen : Option HeadText := none

def HeaderTexts.record (t : HeaderTexts) : HeaderRecord where
  url := t.url.map fun u => u.text
  host := t.host.map fun u => u.text
  auth := t.auth.map fun u => u.text
  refer := t.refer.map fun u => u.text
  xff := t.xff.map fun u => u.text
  location := t.location.map fun u => u.text
  contentLen := t.contentLen.map fun u => u.text

/-- A head, and the flag of the content length. -/
structure HeadState where
  head : RequestHead
  clenIsset : Bool

/-- The value a text becomes, if it is not refused. -/
def blanked (text : Option HeadText) : Option FieldValue := text.bind (HeadText.behind (ch ' ') (by decide))

/-- The same behind a comma. -/
def listed (value : FieldValue) : Option FieldValue := value.toHeadText.behind (ch ',') (by decide)

def gzipFirst : FieldValue := ⟨⟨str " gzip", forall_text (by decide)⟩, by decide, by decide⟩

def gzipNext : FieldValue := ⟨⟨str ";gzip", forall_text (by decide)⟩, by decide, by decide⟩

def replaceEdit (label : HeaderLabel) (seen : Bool) (text : Option HeadText) : Option HeadEdit :=
  (blanked text).map fun v => if seen then .update label v else .insert label v

def updateEdit (label : HeaderLabel) (seen : Bool) (text : Option HeadText) : Option HeadEdit :=
  if seen then (blanked text).map (.update label) else none

/-- A line that is there grows, else one is inserted. -/
def appendEdit (label : HeaderLabel) (h : RequestHead) (first next : FieldValue) : HeadEdit :=
  if h.fields.any label.starts then .append label next else .insert label first

/-- Whether the parser has seen a text. -/
def seen (x : XStr) : Bool := decide (x.len ≠ 0)

/-- The edit a call makes; `none` when the call is refused. -/
def HeaderCall.edit (info : Http) (t : HeaderTexts) (a : HeadState) : HeaderCall → Option HeadEdit
  | .replaceHost => replaceEdit hostLabel (seen info.str.host) t.host
  | .updateHost => updateEdit hostLabel (seen info.str.host) t.host
  | .appendXff => (blanked t.xff).bind fun v => (listed v).map fun w => appendEdit forwardedLabel a.head v w
  | .appendGzip => some (appendEdit encodingLabel a.head gzipFirst gzipNext)
  | .replaceContentLen => replaceEdit lengthLabel a.clenIsset t.contentLen
  | .replaceRefer => replaceEdit referLabel (seen info.str.reference) t.refer
  | .updateRefer => updateEdit referLabel (seen info.str.reference) t.refer
  | .replaceLocation => replaceEdit locationLabel (seen info.str.location) t.location
  | .updateLocation => updateEdit locationLabel (seen info.str.location) t.location
  | .updateUrl => t.url.map .retarget
  | .removeChunk => if info.logic.isChunked then some (.remove chunkLabel) else none
  | .removeGzip => some (.remove encodingLabel)
  | .removeCookie => some (.remove cookieLabel)
  | .removeAuth => some (.remove authLabel)
  | .replaceAuth => replaceEdit authLabel (seen info.str.auth) t.auth

/-- The answer to an edit, or to a call that is refused, and the head behind it. -/
def outcome (max : Nat) (h : RequestHead) : Option HeadEdit → Int × RequestHead
  | none => (-1, h)
  | some e => e.run max h

/-- **One call on a head**: its answer, and the state behind it. A content length that is not refused
sets the flag, also when there is no room for the line. -/
def HeaderCall.onHead (max : Nat) (info : Http) (i : HeaderCall × HeaderTexts) (a : HeadState) : Int × HeadState :=
  let e := i.1.edit info i.2 a
  ((outcome max a.head e).1,
    { head := (outcome max a.head e).2
      clenIsset := a.clenIsset || (e.isSome && decide (i.1 = .replaceContentLen)) })

/-! ## One call -/

/-- The stream holds the head, and the flag is the same. -/
structure StreamState.HoldsHead (max : Nat) (a : HeadState) (st : StreamState) : Prop where
  stream : st.stream.HoldsHead max a.head
  flag : st.clenIsset = a.clenIsset

/-- A call for a new URL is given one. -/
def Ready (i : HeaderCall × HeaderTexts) : Prop := i.1 = .updateUrl → i.2.url.isSome = true

theorem label_texts : hostLabel.text = str "Host:" ∧ forwardedLabel.text = str "X-Forwarded-For:" ∧
    encodingLabel.text = str "Content-Encoding:" ∧ lengthLabel.text = str "content-length:" ∧
    referLabel.text = str "Referer:" ∧ locationLabel.text = str "Location:" ∧
    chunkLabel.text = str "transfer-encoding:" ∧ cookieLabel.text = str "cookie:" ∧
    authLabel.text = str "Authorization:" := by decide

section
variable {max : Nat} {h : RequestHead} {s : EditStream}

theorem strlenMax_zero (t : HeadText) : httpStrlenMax (some t.text) MAX_LINE_LEN = 0 ↔
    ¬ (0 < t.text.length ∧ t.text.length < MAX_LINE_LEN) := by
  unfold httpStrlenMax
  dsimp only
  split
  · next hlong => exact ⟨fun _ hand => absurd hand.2 (Nat.not_lt.mpr hlong), fun _ => rfl⟩
  · next hshort => omega

/-- What a text in a record becomes: nothing, or a value that the buffer of 2048 bytes holds. -/
theorem blanked_cases (text : Option HeadText) :
    (httpStrlenMax (text.map fun u => u.text) MAX_LINE_LEN = 0 ∧ blanked text = none) ∨
    (httpStrlenMax (text.map fun u => u.text) MAX_LINE_LEN ≠ 0 ∧ ∃ v, blanked text = some v ∧
      (str " " ++ (text.map fun u => u.text).getD []).take (VALUE_BUF - 1) = v.text) := by
  cases text with
  | none => exact Or.inl ⟨rfl, rfl⟩
  | some t =>
    rw [Option.map_some]
    unfold blanked HeadText.behind
    rw [Option.bind_some]
    by_cases hlen : 0 < t.text.length ∧ t.text.length < MAX_LINE_LEN
    · have hbuf : (str " " ++ t.text).take (VALUE_BUF - 1) = ch ' ' :: t.text := by
        apply List.take_of_length_le
        rw [List.length_append]
        show 1 + t.text.length ≤ 2047
        have hlt : t.text.length < 2000 := hlen.2
        omega
      rw [dif_pos hlen, Option.getD_some, hbuf]
      exact Or.inr ⟨fun hzero => (strlenMax_zero t).mp hzero hlen, _, rfl, rfl⟩
    · rw [dif_neg hlen]
      exact Or.inl ⟨(strlenMax_zero t).mpr hlen, rfl⟩

theorem withText_does (hs : s.HoldsHead max h) {text : Option HeadText} {edit : List Byte → StreamCall}
    {f : FieldValue → Option HeadEdit} (hedit : ∀ v, Does max (outcome max h (f v)) (edit v.text s)) :
    Does max (outcome max h ((blanked text).bind f)) (withText (text.map fun u => u.text) edit s) := by
  unfold withText
  rcases blanked_cases text with ⟨hzero, hnone⟩ | ⟨hpos, v, hsome, hbuf⟩
  · rw [if_pos hzero, hnone]
    exact ⟨s, rfl, hs⟩
  · rw [if_neg hpos, hsome, hbuf]
    exact hedit v

theorem replaceSeen_does (hs : s.HoldsHead max h) {label : HeaderLabel}
    (hlabel : label.text.length < SLABEL_BUF - 1)
    (x : XStr) (text : Option HeadText) :
    Does max (outcome max h (replaceEdit label (seen x) text))
      (withText (text.map fun u => u.text) (EditStream.replaceSeen label.text x.len) s) := by
  unfold replaceEdit
  rw [Option.map_eq_bind]
  apply withText_does hs
  intro v
  unfold EditStream.replaceSeen seen
  by_cases hx : x.len = 0
  · rw [if_pos hx]
    simp only [hx, Function.comp]
    exact insert_does hs hlabel v
  · rw [if_neg hx]
    simp only [Function.comp, ne_eq, hx, not_false_eq_true, decide_true, if_true]
    exact update_does hs v

theorem updateSeen_does (hs : s.HoldsHead max h) (label : HeaderLabel) (x : XStr) (text : Option HeadText) :
    Does max (outcome max h (updateEdit label (seen x) text))
      (withText (text.map fun u => u.text) (EditStream.updateSeen label.text x.len) s) := by
  unfold updateEdit seen
  by_cases hx : x.len = 0
  · simp only [hx, ne_eq, not_true_eq_false, decide_false, Bool.false_eq_true, if_false]
    unfold withText EditStream.updateSeen
    simp only [if_true, ite_self]
    exact ⟨s, rfl, hs⟩
  · simp only [ne_eq, hx, not_false_eq_true, decide_true, if_true]
    rw [Option.map_eq_bind]
    apply withText_does hs
    intro v
    unfold EditStream.updateSeen
    rw [if_neg hx]
    exact update_does hs v

/-- The line is looked for behind a CRLF. -/
theorem append_or_insert (hs : s.HoldsHead max h) {label : HeaderLabel}
    (hlabel : label.text.length < SLABEL_BUF - 1)
    (first next : FieldValue) :
    Does max ((appendEdit label h first next).run max h)
      (match xMemcasestr (str "\r\n" ++ label.text) s.data with
      | none => s.httpInsertLine label.text first.text
      | some _ => s.httpAppendLine label.text next.text) := by
  have hfind := h.label_behind_crlf label
  rw [show str "\r\n" ++ label.text = ch '\r' :: ch '\n' :: label.text from rfl, hs.data]
  unfold appendEdit
  cases hsome : xMemcasestr (ch '\r' :: ch '\n' :: label.text) h.text with
  | none =>
    rw [hsome] at hfind
    rw [← hfind, if_neg (by decide)]
    exact insert_does hs hlabel first
  | some i =>
    rw [hsome] at hfind
    rw [← hfind, if_pos (show (some i).isSome = true from rfl)]
    exact append_does hs hlabel next

theorem forward_does (hs : s.HoldsHead max h) (v : FieldValue) :
    Does max (outcome max h ((listed v).map fun w => appendEdit forwardedLabel h v w))
      (EditStream.httpAppendForward v.text s) := by
  unfold EditStream.httpAppendForward listed HeadText.behind
  by_cases hlen : 0 < v.text.length ∧ v.text.length < MAX_LINE_LEN
  · have hfind : str "\r\nX-Forwarded-For:" = str "\r\n" ++ forwardedLabel.text := by decide
    rw [if_neg (fun hzero => (strlenMax_zero v.toHeadText).mp hzero hlen), dif_pos hlen, hfind, ← label_texts.2.1]
    exact append_or_insert hs (by decide) v _
  · rw [if_pos ((strlenMax_zero v.toHeadText).mpr hlen), dif_neg hlen]
    exact ⟨s, rfl, hs⟩

theorem gzip_does (hs : s.HoldsHead max h) :
    Does max ((appendEdit encodingLabel h gzipFirst gzipNext).run max h) (EditStream.httpAppendGzip s) := by
  have hfind : str "\r\nContent-Encoding:" = str "\r\n" ++ encodingLabel.text := by decide
  unfold EditStream.httpAppendGzip
  rw [hfind, ← label_texts.2.2.1]
  exact append_or_insert hs (by decide) gzipFirst gzipNext

end

section
variable {max : Nat} {info : Http} {t : HeaderTexts} {a : HeadState} {st : StreamState}

/-- A call that leaves the flag alone. -/
theorem edit_does (h : st.HoldsHead max a) {call : HeaderCall} {edit : StreamCall}
    (hcall : call ≠ .replaceContentLen)
    (hedit : Does max (outcome max a.head (call.edit info t a)) (edit st.stream)) :
    ∃ st', st.edit edit = some ((HeaderCall.onHead max info (call, t) a).1, st') ∧
      st'.HoldsHead max (HeaderCall.onHead max info (call, t) a).2 := by
  obtain ⟨s, hrun, hs⟩ := hedit
  refine ⟨{ st with stream := s }, ?_, hs, ?_⟩
  · unfold StreamState.edit
    rw [hrun]
    rfl
  · show st.clenIsset = (a.clenIsset || (_ && decide (call = .replaceContentLen)))
    rw [decide_eq_false hcall, Bool.and_false, Bool.or_false]
    exact h.flag

theorem onHead_none {call : HeaderCall} (he : call.edit info t a = none) :
    HeaderCall.onHead max info (call, t) a = (-1, a) := by
  unfold HeaderCall.onHead
  dsimp only
  rw [he, Option.isSome_none, Bool.false_and, Bool.or_false]
  rfl

theorem onHead_some {call : HeaderCall} {e : HeadEdit} (he : call.edit info t a = some e) :
    HeaderCall.onHead max info (call, t) a = ((e.run max a.head).1,
      { head := (e.run max a.head).2, clenIsset := a.clenIsset || decide (call = .replaceContentLen) }) := by
  unfold HeaderCall.onHead
  dsimp only
  rw [he, Option.isSome_some, Bool.true_and]
  rfl

/-- The flag decides between an inserted line and an updated one, and is set before the edit. -/
theorem replaceContentLen_does (h : st.HoldsHead max a) :
    ∃ st', HeaderCall.run info t.record st .replaceContentLen =
        some ((HeaderCall.onHead max info (.replaceContentLen, t) a).1, st') ∧
      st'.HoldsHead max (HeaderCall.onHead max info (.replaceContentLen, t) a).2 := by
  have hrun : HeaderCall.run info t.record st .replaceContentLen =
      if httpStrlenMax (t.contentLen.map fun u => u.text) MAX_LINE_LEN = 0 then some (-1, st)
      else st.httpReplaceContentLen ((str " " ++ (t.contentLen.map fun u => u.text).getD []).take (VALUE_BUF - 1))
        :=
    rfl
  have hedit : HeaderCall.edit info t a .replaceContentLen =
      (blanked t.contentLen).map fun v => if a.clenIsset then .update lengthLabel v else .insert lengthLabel v :=
        rfl
  have hlength := label_texts.2.2.2.1
  rw [hrun]
  rcases blanked_cases t.contentLen with ⟨hzero, hnone⟩ | ⟨hpos, v, hsome, hbuf⟩
  · rw [hnone] at hedit
    rw [if_pos hzero, onHead_none hedit]
    exact ⟨st, rfl, h⟩
  · rw [hsome, Option.map_some] at hedit
    rw [if_neg hpos, hbuf, onHead_some hedit]
    unfold StreamState.httpReplaceContentLen
    rw [h.flag, ← hlength]
    cases hset : a.clenIsset with
    | true =>
      obtain ⟨s', hupdate, hs'⟩ := @update_does max a.head st.stream h.stream lengthLabel v
      rw [if_neg (by decide), StreamState.edit, hupdate]
      exact ⟨{ st with stream := s' }, rfl, hs', h.flag.trans hset⟩
    | false =>
      obtain ⟨s', hinsert, hs'⟩ := @insert_does max a.head st.stream h.stream lengthLabel (by decide) v
      rw [if_pos rfl, StreamState.edit, hinsert]
      exact ⟨_, rfl, hs', rfl⟩

/-- **One call** does to the bytes what its edit does to the head. -/
theorem HeaderCall.run_does (i : HeaderCall × HeaderTexts) (a : HeadState) (st : StreamState) (hready : Ready i)
    (h : st.HoldsHead max a) :
    ∃ st', i.1.run info i.2.record st = some ((onHead max info i a).1, st') ∧
      st'.HoldsHead max (onHead max info i a).2 := by
  obtain ⟨call, t⟩ := i
  obtain ⟨hhost, -, hencoding, -, hrefer, hlocation, hchunk, hcookie, hauth⟩ := label_texts
  have hs := h.stream
  cases call with
  | replaceHost =>
    apply edit_does h (by decide)
    unfold EditStream.httpReplaceHost
    rw [← hhost]
    exact replaceSeen_does hs (by decide) _ t.host
  | updateHost =>
    apply edit_does h (by decide)
    unfold EditStream.httpUpdateHost
    rw [← hhost]
    exact updateSeen_does hs _ _ t.host
  | appendXff =>
    apply edit_does h (by decide)
    exact withText_does hs (forward_does hs)
  | appendGzip =>
    apply edit_does h (by decide)
    exact gzip_does hs
  | replaceContentLen => exact replaceContentLen_does h
  | replaceRefer =>
    apply edit_does h (by decide)
    unfold EditStream.httpReplaceRefer
    rw [← hrefer]
    exact replaceSeen_does hs (by decide) _ t.refer
  | updateRefer =>
    apply edit_does h (by decide)
    unfold EditStream.httpUpdateRefer
    rw [← hrefer]
    exact updateSeen_does hs _ _ t.refer
  | replaceLocation =>
    apply edit_does h (by decide)
    unfold EditStream.httpReplaceLocation
    rw [← hlocation]
    exact replaceSeen_does hs (by decide) _ t.location
  | updateLocation =>
    apply edit_does h (by decide)
    unfold EditStream.httpUpdateLocation
    rw [← hlocation]
    exact updateSeen_does hs _ _ t.location
  | updateUrl =>
    obtain ⟨target, htarget⟩ := Option.isSome_iff_exists.mp (hready rfl)
    have hdoes := retarget_does hs target
    have hurl : t.url = some target := htarget
    have hrecord : t.record.url = some target.text := by
      show t.url.map _ = _
      rw [hurl]
      rfl
    have hedit : HeaderCall.edit info t a .updateUrl = some (.retarget target) := by
      show t.url.map _ = _
      rw [hurl]
      rfl
    rw [HeaderCall.run, hrecord, Option.bind_some]
    apply edit_does h (by decide)
    rw [hedit]
    exact hdoes
  | removeChunk =>
    apply edit_does h (by decide)
    unfold EditStream.httpRemoveChunk HeaderCall.edit
    rw [← hchunk]
    cases info.logic.isChunked with
    | true => exact remove_does hs chunkLabel
    | false => exact ⟨st.stream, rfl, hs⟩
  | removeGzip =>
    apply edit_does h (by decide)
    unfold EditStream.httpRemoveGzip
    rw [← hencoding]
    exact remove_does hs encodingLabel
  | removeCookie =>
    apply edit_does h (by decide)
    unfold EditStream.httpRemoveCookie
    rw [← hcookie]
    exact remove_does hs cookieLabel
  | removeAuth =>
    apply edit_does h (by decide)
    unfold EditStream.httpRemoveAuth
    rw [← hauth]
    exact remove_does hs authLabel
  | replaceAuth =>
    apply edit_does h (by decide)
    unfold EditStream.httpReplaceAuth
    rw [← hauth]
    exact replaceSeen_does hs (by decide) _ t.auth

/-! ## Scripts -/

/-- A list of calls, each with the texts of its record. -/
abbrev HeaderScript := List (HeaderCall × HeaderTexts)

/-- What the calls return, one after another, and what they leave. -/
def HeaderScript.run (info : Http) (script : HeaderScript) (st : StreamState) : Option (List Int × StreamState) :=
  answers (fun i => i.1.run info i.2.record) script st

/-- What the edits answer, and the head they leave. -/
def HeaderScript.onHead (max : Nat) (info : Http) (script : HeaderScript) (a : HeadState) : List Int × HeadState :=
  answersOf (HeaderCall.onHead max info) script a

theorem script_does {script : HeaderScript} (hready : ∀ i ∈ script, Ready i) (h : st.HoldsHead max a) :
    ∃ st', script.run info st = some ((script.onHead max info a).1, st') ∧
      st'.HoldsHead max (script.onHead max info a).2 :=
  answers_refines (fun i a st => HeaderCall.run_does i a st) script hready h

/-- **A script of calls is a script of edits.** On a buffer that holds a head, any calls in any order return
what the edits of the head answer, stay inside the buffer and leave the edited head in it. -/
theorem script_refines {script : HeaderScript} (hready : ∀ i ∈ script, Ready i) (h : st.HoldsHead max a) :
    ∃ st', script.run info st = some ((script.onHead max info a).1, st') ∧
      st'.stream.data = (script.onHead max info a).2.head.text ∧ st'.stream.newData.Kept ∧
      st'.stream.newData.size = st.stream.newData.size := by
  obtain ⟨st', hrun, hst⟩ := script_does hready h
  exact ⟨st', hrun, hst.stream.data, hst.stream.kept, hst.stream.size.trans h.stream.size.symm⟩

/-! ## What a script leaves alone -/

/-- The edit of a call is about the lines the call is about. -/
theorem edit_label {call : HeaderCall} {e : HeadEdit} (he : call.edit info t a = some e) :
    e.label? = call.label? := by
  have happend : ∀ (label : HeaderLabel) (h : RequestHead) (v w : FieldValue),
      (appendEdit label h v w).label? = some label := by
    intro label h v w
    unfold appendEdit
    split <;> rfl
  have hreplace : ∀ {label : HeaderLabel} {b : Bool} {text : Option HeadText}, replaceEdit label b text = some e →
      e.label? = some label := by
    intro label b text hsome
    obtain ⟨v, -, rfl⟩ := Option.map_eq_some_iff.mp hsome
    cases b <;> rfl
  have hupdate : ∀ {label : HeaderLabel} {b : Bool} {text : Option HeadText}, updateEdit label b text = some e →
      e.label? = some label := by
    intro label b text hsome
    cases b with
    | false => cases hsome
    | true =>
      obtain ⟨v, -, rfl⟩ := Option.map_eq_some_iff.mp hsome
      rfl
  cases call with
  | replaceHost => exact hreplace he
  | updateHost => exact hupdate he
  | appendXff =>
    obtain ⟨v, -, hlisted⟩ := Option.bind_eq_some_iff.mp he
    obtain ⟨w, -, rfl⟩ := Option.map_eq_some_iff.mp hlisted
    exact happend _ _ _ _
  | appendGzip =>
    obtain rfl := Option.some.inj he
    exact happend _ _ _ _
  | replaceContentLen => exact hreplace he
  | replaceRefer => exact hreplace he
  | updateRefer => exact hupdate he
  | replaceLocation => exact hreplace he
  | updateLocation => exact hupdate he
  | updateUrl =>
    obtain ⟨target, -, rfl⟩ := Option.map_eq_some_iff.mp he
    rfl
  | removeChunk =>
    change (if info.logic.isChunked then some (HeadEdit.remove chunkLabel) else none) = some e at he
    cases hchunked : info.logic.isChunked with
    | true =>
      rw [hchunked] at he
      cases he
      rfl
    | false =>
      rw [hchunked] at he
      cases he
  | removeGzip =>
    cases he
    rfl
  | removeCookie =>
    cases he
    rfl
  | removeAuth =>
    cases he
    rfl
  | replaceAuth => exact hreplace he

/-- What no edit of the call changes, the call does not change. -/
theorem onHead_kept {β : Type} (f : RequestHead → β) {i : HeaderCall × HeaderTexts}
    (hf : ∀ e : HeadEdit, e.label? = i.1.label? → ∀ h, f (e.run max h).2 = f h) (a : HeadState) :
    f (HeaderCall.onHead max info i a).2.head = f a.head := by
  cases he : i.1.edit info i.2 a with
  | none => rw [onHead_none he]
  | some e =>
    rw [onHead_some he]
    exact hf e (edit_label he) a.head

/-- The line starts with none of the labels of the script. -/
def HeaderScript.other (script : HeaderScript) (l : List Byte) : Bool :=
  script.all fun i => i.1.label?.all fun label => !label.starts l

theorem other_starts {script : HeaderScript} {i : HeaderCall × HeaderTexts} (hi : i ∈ script) {label : HeaderLabel}
    (hlabel : i.1.label? = some label) {l : List Byte} (hl : label.starts l = true) : script.other l = false := by
  apply List.all_eq_false.mpr
  exact ⟨i, hi, by rw [hlabel, Option.all_some, hl]; decide⟩

/-- What no edit of the script changes, the script does not change. -/
theorem script_kept {β : Type} (f : RequestHead → β) {script : HeaderScript}
    (hf : ∀ i ∈ script, ∀ e : HeadEdit, e.label? = i.1.label? → ∀ h, f (e.run max h).2 = f h) (a : HeadState) :
    f (script.onHead max info a).2.head = f a.head :=
  answersOf_kept (fun a : HeadState => f a.head) script (fun i hi => onHead_kept f (hf i hi)) a

theorem script_words (script : HeaderScript) (a : HeadState) :
    (script.onHead max info a).2.head.method = a.head.method ∧
      (script.onHead max info a).2.head.version = a.head.version :=
  ⟨script_kept (fun h => h.method) (fun _ _ e _ h => (e.run_words max h).1) a,
    script_kept (fun h => h.version) (fun _ _ e _ h => (e.run_words max h).2) a⟩

theorem script_target {script : HeaderScript} (hurl : ∀ i ∈ script, i.1 ≠ .updateUrl) (a : HeadState) :
    (script.onHead max info a).2.head.target = a.head.target := by
  apply script_kept fun h => h.target
  intro i hi e he h
  apply HeadEdit.run_target
  intro hnone
  have hcall := hurl i hi
  rw [hnone] at he
  cases hi : i.1 with
  | updateUrl => exact hcall hi
  | _ =>
    rw [hi] at he
    cases he

theorem script_fields (script : HeaderScript) (a : HeadState) :
    (script.onHead max info a).2.head.fields.filter script.other = a.head.fields.filter script.other := by
  apply script_kept fun h => h.fields.filter script.other
  intro i hi e he h
  apply HeadEdit.run_others
  intro label hlabel l hl
  exact other_starts hi (he.symm.trans hlabel) hl

/-- **The rest of the head stays.** After any script the buffer holds a head with the same method and version, the
same target if no call asked for a new one, and the same other lines in the same order. -/
theorem script_others {script : HeaderScript} (hready : ∀ i ∈ script, Ready i) (h : st.HoldsHead max a)
    {rs : List Int} {st' : StreamState} (hrun : script.run info st = some (rs, st')) :
    ∃ head : RequestHead, st'.stream.data = head.text ∧ head.method = a.head.method ∧
      head.version = a.head.version ∧ ((∀ i ∈ script, i.1 ≠ .updateUrl) → head.target = a.head.target) ∧
      head.fields.filter script.other = a.head.fields.filter script.other := by
  obtain ⟨st2, hrun2, hst⟩ := script_does hready h
  obtain ⟨rfl, rfl⟩ := Prod.mk.inj (Option.some.inj (hrun2.symm.trans hrun))
  have hwords := @script_words max info script a
  exact ⟨_, hst.stream.data, hwords.1, hwords.2, fun hurl => script_target hurl a, script_fields script a⟩

end

/-! ## Removals -/

/-- The label of the lines a call removes. -/
def HeaderCall.removes (info : Http) : HeaderCall → Option HeaderLabel
  | .removeChunk => if info.logic.isChunked then some chunkLabel else none
  | .removeGzip => some encodingLabel
  | .removeCookie => some cookieLabel
  | .removeAuth => some authLabel
  | _ => none

section
variable {max : Nat} {info : Http} {t : HeaderTexts} {label : HeaderLabel}

theorem removes_edit {call : HeaderCall} (h : call.removes info = some label) (a : HeadState) :
    call.edit info t a = some (.remove label) := by
  cases call with
  | removeChunk =>
    change (if info.logic.isChunked then some chunkLabel else none) = some label at h
    show (if info.logic.isChunked then some (HeadEdit.remove chunkLabel) else none) = _
    cases hchunked : info.logic.isChunked with
    | true =>
      rw [hchunked] at h
      obtain rfl := Option.some.inj h
      rfl
    | false =>
      rw [hchunked] at h
      cases h
  | removeGzip =>
    obtain rfl := Option.some.inj h
    rfl
  | removeCookie =>
    obtain rfl := Option.some.inj h
    rfl
  | removeAuth =>
    obtain rfl := Option.some.inj h
    rfl
  | _ => cases h

theorem labelCount_lines (label : HeaderLabel) (front back : List (List Byte)) :
    labelCount label.text (crlfLines (front ++ back)) =
      labelCount label.text (crlfLines front) + labelCount label.text (crlfLines back) := by
  induction front with
  | nil => exact (Nat.zero_add _).symm
  | cons l front ih =>
    rw [List.cons_append, crlfLines_cons, crlfLines_cons, labelCount_line label.text_line label.text_ne,
      labelCount_line label.text_line label.text_ne, ih, Nat.add_assoc]

/-- Without the line there are fewer labels and fewer bytes. -/
theorem dropFirst_less (label : HeaderLabel) (fields : List (List Byte)) :
    labelCount label.text (crlfLines (editFirst label.starts (fun _ => []) fields)) ≤
        labelCount label.text (crlfLines fields) ∧
      (crlfLines (editFirst label.starts (fun _ => []) fields)).length ≤ (crlfLines fields).length := by
  induction fields with
  | nil => exact ⟨Nat.le_refl _, Nat.le_refl _⟩
  | cons l fields ih =>
    have hcount := labelCount_line label.text_line label.text_ne (crlfLines fields) l
    have hlength := crlfLines_length_cons l fields
    by_cases hl : label.starts l = true
    · rw [editFirst, if_pos hl, List.nil_append, crlfLines_cons]
      rw [crlfLines_cons] at hlength
      omega
    · have hcount' :=
        labelCount_line label.text_line label.text_ne (crlfLines (editFirst label.starts (fun _ => []) fields)) l
      have hlength' := crlfLines_length_cons l (editFirst label.starts (fun _ => []) fields)
      rw [editFirst, if_neg hl, crlfLines_cons, crlfLines_cons]
      rw [crlfLines_cons] at hlength hlength'
      omega

/-- A label that stands 128 times at most is reached, unless it stands in the request line. -/
theorem reaches_iff {h : RequestHead} (hfew : labelCount label.text (crlfLines h.fields) ≤ 128) :
    h.Reaches label ↔ labelCount label.text h.request = 0 ∧ h.fields.any label.starts = true := by
  constructor
  · exact fun hr => ⟨hr.1, hr.2.1⟩
  · intro ⟨hrequest, hany⟩
    obtain ⟨line, back, hfields, -, hline⟩ := any_split hany
    have hcount := labelCount_lines label (label.ahead h.fields) (line :: back)
    rw [← hfields, crlfLines_cons, labelCount_line label.text_line label.text_ne] at hcount
    have hstart := label.labelCount_start hline
    exact ⟨hrequest, hany, by omega⟩

/-- One removal. -/
theorem remove_once {h : RequestHead} (hfits : h.text.length ≤ max)
    (hfew : labelCount label.text (crlfLines h.fields) ≤ 128) :
    0 ≤ ((HeadEdit.remove label).run max h).1 ∧ ((HeadEdit.remove label).run max h).2.text.length ≤ max ∧
      ((HeadEdit.remove label).run max h).2.request = h.request ∧
      ((HeadEdit.remove label).run max h).2.fields =
        if labelCount label.text h.request = 0 then editFirst label.starts (fun _ => []) h.fields else
          h.fields := by
  unfold HeadEdit.run
  by_cases hreach : h.Reaches label
  · have hless := (dropFirst_less label h.fields).2
    have hlength : ((HeadEdit.remove label).result h).text.length ≤ h.text.length := by
      show (h.request ++ crlf ++ crlfLines (editFirst label.starts _ h.fields) ++ crlf).length ≤
        (h.request ++ crlf ++ crlfLines h.fields ++ crlf).length
      simp only [List.length_append]
      omega
    have hfit := Nat.le_trans hlength hfits
    rw [if_pos (show (HeadEdit.remove label).Applies h from hreach), RequestHead.settle, if_pos hfit,
      if_pos hreach.1]
    exact ⟨Int.natCast_nonneg _, hfit, rfl, rfl⟩
  · rw [if_neg (show ¬ (HeadEdit.remove label).Applies h from hreach)]
    refine ⟨Int.natCast_nonneg _, hfits, rfl, ?_⟩
    split
    · next hrequest =>
      apply (editFirst_none _).symm
      intro l hl
      apply Bool.eq_false_iff.mpr
      intro hstart
      exact hreach ((reaches_iff hfew).mpr ⟨hrequest, List.any_eq_true.mpr ⟨l, hl, hstart⟩⟩)
    · rfl

/-- Removal after removal, on the head. -/
theorem removals_onHead {call : HeaderCall} (hcall : call.removes info = some label) (n : Nat) :
    ∀ {a : HeadState}, a.head.text.length ≤ max → labelCount label.text (crlfLines a.head.fields) ≤ 128 →
      (∀ r ∈ (HeaderScript.onHead max info (List.replicate n (call, t)) a).1, 0 ≤ r) ∧
        (HeaderScript.onHead max info (List.replicate n (call, t)) a).2.head.fields.filter label.starts =
          (a.head.fields.filter label.starts).drop (if labelCount label.text a.head.request = 0 then n else 0) := by
  induction n with
  | zero =>
    intro a _ _
    exact ⟨fun r hr => (by cases hr), by rw [ite_self, List.drop_zero]; rfl⟩
  | succ n ih =>
    intro a hfits hfew
    obtain ⟨hanswer, hfits', hrequest, hfields⟩ := @remove_once max label a.head hfits hfew
    have hone := @onHead_some max info t a call _ (removes_edit hcall a)
    have hfew' : labelCount label.text (crlfLines ((HeadEdit.remove label).run max a.head).2.fields) ≤ 128 := by
      rw [hfields]
      split
      · exact Nat.le_trans (dropFirst_less label a.head.fields).1 hfew
      · exact hfew
    have hrest := @ih (HeaderCall.onHead max info (call, t) a).2 (by rw [hone]; exact hfits')
      (by rw [hone]; exact hfew')
    show (∀ r ∈ (HeaderCall.onHead max info (call, t) a).1 :: _, 0 ≤ r) ∧ _
    refine ⟨List.forall_mem_cons.mpr ⟨by rw [hone]; exact hanswer, hrest.1⟩, hrest.2.trans ?_⟩
    rw [hone]
    dsimp only
    rw [hrequest, hfields]
    split
    · rw [filter_dropFirst, List.drop_tail]
    · rfl

/-- **Removals take the lines one by one.** When the label stands 128 times at most in the lines, n removals
succeed and leave all but the first n lines that start with it; with the label in the request line they succeed and
leave them all. The other lines stay. -/
theorem removals {call : HeaderCall} (hcall : call.removes info = some label) (n : Nat) {a : HeadState}
    {st : StreamState} (hfew : labelCount label.text (crlfLines a.head.fields) ≤ 128) (h : st.HoldsHead max a) :
    ∃ rs st', ∃ head : RequestHead, HeaderScript.run info (List.replicate n (call, t)) st = some (rs, st') ∧
      (∀ r ∈ rs, 0 ≤ r) ∧
      st'.stream.data = head.text ∧
      head.fields.filter label.starts =
        (a.head.fields.filter label.starts).drop (if labelCount label.text a.head.request = 0 then n else 0) ∧
      head.fields.filter (fun l => !label.starts l) = a.head.fields.filter fun l => !label.starts l := by
  have hready : ∀ i ∈ List.replicate n (call, t), Ready i := by
    intro i hi hurl
    rw [List.eq_of_mem_replicate hi] at hurl
    rw [show call = .updateUrl from hurl] at hcall
    cases hcall
  obtain ⟨st', hrun, hst⟩ := @script_does max info a st _ hready h
  obtain ⟨hanswers, hlines⟩ := @removals_onHead max info t label call hcall n a h.stream.fits hfew
  refine ⟨_, st', _, hrun, hanswers, hst.stream.data, hlines, ?_⟩
  apply script_kept fun h => h.fields.filter fun l => !label.starts l
  intro i hi e he h
  apply HeadEdit.run_others
  intro label' hlabel l hl
  have hsame : label' = label := by
    rw [List.eq_of_mem_replicate hi] at he
    exact Option.some.inj (hlabel.symm.trans (he.trans (edit_label (removes_edit (t := t) hcall a)).symm))
  rw [hsame] at hl
  rw [hl]
  rfl

end

/-! ## A script -/

def plainText (text : List Byte) (h : ∀ c ∈ text, c ≠ ch '\r' ∧ c ≠ ch '\n' ∧ c ≠ 0) : HeadText := ⟨text, h⟩

theorem cookie_lines : ∀ l ∈ [str "Host: a", str "Cookie: x", str "Accept: t", str "cookie: y"], PlainLine l := by
  have hhost : PlainLine (str "Host: a") := ⟨forall_text (by decide), by decide⟩
  have hupper : PlainLine (str "Cookie: x") := ⟨forall_text (by decide), by decide⟩
  have haccept : PlainLine (str "Accept: t") := ⟨forall_text (by decide), by decide⟩
  have hlower : PlainLine (str "cookie: y") := ⟨forall_text (by decide), by decide⟩
  simp [hhost, hupper, haccept, hlower]

/-- A request with a host, two cookie lines and another line. -/
def cookieHead : RequestHead where
  method := getHeader.method
  version := getHeader.version
  target := ⟨plainText (str "/") (forall_text (by decide)), by decide, by decide⟩
  fields := [str "Host: a", str "Cookie: x", str "Accept: t", str "cookie: y"]
  words_line := ⟨forall_text (by decide), forall_text (by decide)⟩
  fields_line := fun l hl => cookie_lines l hl

/-- The head in an output buffer of 256 bytes. -/
def cookieState : StreamState where
  stream := ⟨({ size := 256, cell := fun _ => 0 } : Buffer Byte).copy 0 cookieHead.text,
    .here cookieHead.text.length⟩
  clenIsset := false

theorem cookieState_holds : cookieState.HoldsHead 256 ⟨cookieHead, false⟩ := by
  refine ⟨⟨⟨_, rfl⟩, Buffer.read_copy _ 0 _, rfl, ?_, ?_⟩, rfl⟩
  · decide +kernel
  · decide +kernel

/-- The parser has seen the host. -/
def hostSeen : Http := { str := { host := { p := some (str "a") } } }

theorem newUrl_plain : ∀ c ∈ str "/new", c ≠ ch '\r' ∧ c ≠ ch '\n' ∧ c ≠ 0 := forall_text (by decide)

theorem newUrl_target : str "/new" ≠ [] ∧ (str "/new").length < 2 ^ 31 := by decide

theorem letter_plain : (∀ c ∈ str "b", c ≠ ch '\r' ∧ c ≠ ch '\n' ∧ c ≠ 0) ∧
    (∀ c ∈ str "c", c ≠ ch '\r' ∧ c ≠ ch '\n' ∧ c ≠ 0) ∧ ∀ c ∈ str "d", c ≠ ch '\r' ∧ c ≠ ch '\n' ∧ c ≠ 0 :=
  ⟨forall_text (by decide), forall_text (by decide), forall_text (by decide)⟩

/-- A new URL and host, two forwarded addresses, and a removal. -/
def cookieScript : HeaderScript :=
  [(.updateUrl, { url := some ⟨plainText (str "/new") newUrl_plain, newUrl_target.1, newUrl_target.2⟩ }),
    (.replaceHost, { host := some (plainText (str "b") letter_plain.1) }),
    (.appendXff, { xff := some (plainText (str "c") letter_plain.2.1) }),
    (.appendXff, { xff := some (plainText (str "d") letter_plain.2.2) }),
    (.removeCookie, {})]

theorem cookieScript_ready : ∀ i ∈ cookieScript, Ready i := by
  simp [cookieScript, Ready]

theorem script_refines_cookie : ∃ st', cookieScript.run hostSeen cookieState = some ([63, 63, 83, 86, 75], st') ∧
    st'.stream.data =
      str "GET /new HTTP/1.1\r\nHost: b\r\nAccept: t\r\ncookie: y\r\nX-Forwarded-For: c, d\r\n\r\n" ∧
    st'.stream.newData.Kept := by
  obtain ⟨st', hrun, hdata, hkept, -⟩ := @script_refines 256 hostSeen ⟨cookieHead, false⟩ cookieState cookieScript
    cookieScript_ready
    cookieState_holds
  have hanswers : (cookieScript.onHead 256 hostSeen ⟨cookieHead, false⟩).1 =
    [63, 63, 83, 86, 75] := by decide +kernel
  have htext : (cookieScript.onHead 256 hostSeen ⟨cookieHead, false⟩).2.head.text =
      str "GET /new HTTP/1.1\r\nHost: b\r\nAccept: t\r\ncookie: y\r\nX-Forwarded-For: c, d\r\n\r\n" := by
    decide +kernel
  rw [hanswers] at hrun
  exact ⟨st', hrun, hdata.trans htext, hkept⟩

/-- Of the lines behind the script one is of no interest to it. -/
theorem script_others_cookie :
    ∃ rs st', ∃ head : RequestHead, cookieScript.run hostSeen cookieState = some (rs, st') ∧
    st'.stream.data = head.text ∧ head.method = cookieHead.method ∧
    head.fields.filter cookieScript.other = [str "Accept: t"] := by
  obtain ⟨st', hrun, -⟩ := @script_does 256 hostSeen ⟨cookieHead, false⟩ cookieState cookieScript cookieScript_ready
    cookieState_holds
  obtain ⟨head, hdata, hmethod, -, -, hfields⟩ := script_others cookieScript_ready cookieState_holds hrun
  have hother : cookieHead.fields.filter cookieScript.other = [str "Accept: t"] := by decide +kernel
  exact ⟨_, st', head, hrun, hdata, hmethod, hfields.trans hother⟩

/-- Two removals take both cookie lines. -/
theorem removals_two : ∃ rs st', ∃ head : RequestHead,
    HeaderScript.run hostSeen (List.replicate 2 (.removeCookie, {})) cookieState = some (rs, st') ∧
    st'.stream.data = head.text ∧ head.fields.filter cookieLabel.starts = [] ∧
    head.fields.filter (fun l => !cookieLabel.starts l) = [str "Host: a", str "Accept: t"] := by
  have hfew : labelCount cookieLabel.text (crlfLines cookieHead.fields) ≤ 128 := by decide +kernel
  obtain ⟨rs, st', head, hrun, -, hdata, hgone, hrest⟩ :=
    @removals 256 hostSeen {} cookieLabel .removeCookie rfl 2 ⟨cookieHead, false⟩ cookieState hfew cookieState_holds
  have hnone : (cookieHead.fields.filter cookieLabel.starts).drop
      (if labelCount cookieLabel.text cookieHead.request = 0 then 2 else 0) = [] := by decide +kernel
  have hothers : cookieHead.fields.filter (fun l => !cookieLabel.starts l) = [str "Host: a", str "Accept: t"] := by
    decide +kernel
  exact ⟨rs, st', head, hrun, hdata, hgone.trans hnone, hrest.trans hothers⟩

end WafProxy
