import WafProxy.Http.HeaderBlock

/-
  Edits of one header line — http_modify.c

  `_http_insert_line`, `_http_update_line`, `_http_append_line` and
  `_http_remove_line` find two places in the header and let `_http_modify_stream`
  write the header to the output buffer with the stretch between them replaced.
  The stream's data lie in the output buffer (`here`), or elsewhere (`apart`).

  What is proved:
    1. `httpModifyStream_data`, `modify_data` — the output is the old text with the stretch replaced,
       wherever the data lie.
    2. `httpLocateBuf_fields` — where `_http_append_line` looks: in the first line
       that starts with what its buffer of 256 bytes holds of the label.
    3. `edit_iff` — an edit changes the one line it is meant to change, unless the
       line feed of an inserted line is cut off or an appended value goes to a
       line that starts with a part of the label only (`Misses`).

  Correspondence (C ↔ Lean):
    `http_modify_stream_t`    ↔ `EditStream`
    `_http_modify_stream`     ↔ `EditStream.httpModifyStream`
    `_http_locate_buf`        ↔ `httpLocateBuf`
    `_http_insert_line`       ↔ `EditStream.httpInsertLine`
    `_http_update_line`       ↔ `EditStream.httpUpdateLine`
    `_http_append_line`       ↔ `EditStream.httpAppendLine`
    `_http_remove_line`       ↔ `EditStream.httpRemoveLine`
  `httpModifyStream`, `httpInsertLine` and `httpUpdateLine` are the same functions
  when the data are in the output buffer and nothing looks at the result
  (`httpInsertLine_here`, `httpUpdateLine_here`).
-/

namespace WafProxy
open Lib

/-! ## The functions -/

/-- Where `data` points: to `new_data`, or to memory of its own. -/
inductive StreamSource where
  | here (len : Nat)
  | apart (bytes : List Byte)

/-- `http_modify_stream_t`; `max_new_data_len` is the buffer's size. -/
structure EditStream where
  newData : Buffer Byte
  source : StreamSource

namespace EditStream

/-- `data_len`. -/
def dataLen (s : EditStream) : Nat :=
  match s.source with
  | .here len => len
  | .apart bytes => bytes.length

/-- `data[i..i+n)` when `new_data` holds `b`. -/
def dataFrom (s : EditStream) (b : Buffer Byte) (i n : Nat) : List Byte :=
  match s.source with
  | .here _ => b.read i n
  | .apart bytes => (bytes.drop i).take n

def data (s : EditStream) : List Byte := s.dataFrom s.newData 0 s.dataLen

/-- `_http_modify_stream`, `new` having at least `new_len` bytes. -/
def httpModifyStream (s : EditStream) (begin stop : Nat) (new : List Byte) (newLen : Int) :
    Option (Int × Buffer Byte) :=
  if s.dataLen = 0 ∨ stop < begin ∨ newLen < 0 then some (-1, s.newData)
  else if (s.newData.size : Int) < (s.dataLen : Int) - ((stop : Int) - begin) + newLen then some (-1, s.newData)
  else if s.dataLen < stop then none
  else
    let b1 := s.newData.copy 0 (s.dataFrom s.newData 0 begin)
    let b2 := b1.copy (begin + newLen.toNat) (s.dataFrom b1 stop (s.dataLen - stop))
    let b3 := b2.copy begin (new.take newLen.toNat)
    some ((s.dataLen : Int) - ((stop : Int) - begin) + newLen, b3)

/-- What every edit does with the result of `_http_modify_stream`. -/
def finish (s : EditStream) : Option (Int × Buffer Byte) → Option (Int × EditStream)
  | none => none
  | some (newLen, b) =>
    if 0 < newLen then some (newLen, ⟨b, .here newLen.toNat⟩) else some (-1, ⟨b, s.source⟩)

def httpInsertLine (s : EditStream) (label value : List Byte) : Option (Int × EditStream) :=
  match xMemcasestr (str "\r\n\r\n") s.data with
  | none => some (-1, s)
  | some i =>
    if (LINE_BUF : Int) < toUnsigned (toInt32 value.length + label.length + 2) then some (-1, s)
    else
      let buf := (label ++ value ++ str "\r\n").take (LINE_BUF - 1)
      s.finish (s.httpModifyStream (i + 2) (i + 2) buf buf.length)

def httpUpdateLine (s : EditStream) (label value : List Byte) : Option (Int × EditStream) :=
  match httpLocateLineValue s.data label with
  | none => some (-1, s)
  | some (begin, stop) =>
    if (LINE_BUF : Int) < toUnsigned (toInt32 value.length) then some (-1, s)
    else
      let buf := value.take (LINE_BUF - 1)
      if toInt32 value.length = 0 then
        s.finish (s.httpModifyStream (begin - label.length) (stop + 2) buf buf.length)
      else s.finish (s.httpModifyStream begin stop buf buf.length)

end EditStream

/-- `_http_locate_buf`: where `front` begins and where `back` begins behind it. -/
def httpLocateBuf (data front back : List Byte) : Option (Nat × Nat) :=
  match xMemcasestr front data with
  | none => none
  | some begin => (xMemcasestr back (data.drop begin)).map fun j => (begin, begin + j)

/-- `sizeof(slabel)` and `sizeof(buf)` of `_http_append_line`. -/
def SLABEL_BUF : Nat := 256

def VALUE_BUF : Nat := 2048

namespace EditStream

def httpAppendLine (s : EditStream) (label value : List Byte) : Option (Int × EditStream) :=
  let slabel := (str "\n" ++ label).take (SLABEL_BUF - 1)
  match httpLocateBuf s.data slabel (str "\r") with
  | none => some (-1, s)
  | some (_, stop) =>
    if (VALUE_BUF : Int) < toUnsigned (toInt32 value.length) then some (-1, s)
    else
      let buf := value.take (VALUE_BUF - 1)
      s.finish (s.httpModifyStream stop stop buf buf.length)

/-- A line that is not there is no failure. -/
def httpRemoveLine (s : EditStream) (line : List Byte) : Option (Int × EditStream) :=
  match httpLocateLineValue s.data line with
  | none => some (s.dataLen, s)
  | some (begin, stop) => s.finish (s.httpModifyStream (begin - line.length) (stop + 2) [] 0)

end EditStream

/-- The four edits. -/
inductive LineEdit where
  | insert
  | update
  | append
  | remove

def LineEdit.run (edit : LineEdit) (s : EditStream) (label value : List Byte) : Option (Int × EditStream) :=
  match edit with
  | .insert => s.httpInsertLine label value
  | .update => s.httpUpdateLine label value
  | .append => s.httpAppendLine label value
  | .remove => s.httpRemoveLine label

/-! ## The data in the output buffer -/

section
variable (b : Buffer Byte) (len : Nat)

/-- The stream of `http_change_stream`, in which `data` is `new_data`. -/
def EditStream.inPlace (s : EditStream) : ModifyStream := ⟨s.newData, s.dataLen⟩

theorem finish_here (r : Option (Int × Buffer Byte)) :
    ((⟨b, .here len⟩ : EditStream).finish r).map (fun p => p.2.inPlace) = (⟨b, len⟩ : ModifyStream).changed r := by
  cases r with
  | none => rfl
  | some p =>
    unfold EditStream.finish ModifyStream.changed
    by_cases h : 0 < p.1
    · simp [h, EditStream.inPlace, EditStream.dataLen]
    · simp [h, EditStream.inPlace, EditStream.dataLen]

theorem httpInsertLine_here (label value : List Byte) :
    ((⟨b, .here len⟩ : EditStream).httpInsertLine label value).map (fun p => p.2.inPlace) =
      httpInsertLine ⟨b, len⟩ label value := by
  unfold EditStream.httpInsertLine httpInsertLine
  show Option.map _ (match xMemcasestr (str "\r\n\r\n") (b.read 0 len) with | none => _ | some i => _) = _
  show _ = (match xMemcasestr (str "\r\n\r\n") (b.read 0 len) with | none => _ | some i => _)
  cases xMemcasestr (str "\r\n\r\n") (b.read 0 len) with
  | none => rfl
  | some i =>
    dsimp only
    split
    · rfl
    · exact finish_here b len _

theorem httpUpdateLine_here (label value : List Byte) :
    ((⟨b, .here len⟩ : EditStream).httpUpdateLine label value).map (fun p => p.2.inPlace) =
      httpUpdateLine ⟨b, len⟩ label value := by
  unfold EditStream.httpUpdateLine httpUpdateLine
  show Option.map _ (match httpLocateLineValue (b.read 0 len) label with | none => _ | some (_, _) => _) = _
  show _ = (match httpLocateLineValue (b.read 0 len) label with | none => _ | some (_, _) => _)
  cases httpLocateLineValue (b.read 0 len) label with
  | none => rfl
  | some p =>
    dsimp only
    split
    · rfl
    · split
      · exact finish_here b len _
      · exact finish_here b len _

end

/-! ## One edit of the text -/

/-- Three stretches written around the place of the middle one. -/
theorem read_stretches (b : Buffer Byte) (front new back : List Byte) :
    (((b.copy 0 front).copy (front.length + new.length) back).copy front.length new).read 0
      (front.length + new.length + back.length) = front ++ new ++ back := by
  have hfront : (((b.copy 0 front).copy (front.length + new.length) back).copy front.length new).read 0
    front.length =
      front := by
    rw [Buffer.read_copy_before _ new (by omega), Buffer.read_copy_before _ back (by omega), Buffer.read_copy]
  have hback : (((b.copy 0 front).copy (front.length + new.length) back).copy front.length new).read
      (front.length + new.length) back.length = back := by
    rw [Buffer.read_copy_after _ (Nat.le_refl _), Buffer.read_copy]
  rw [Buffer.read_append, Buffer.read_append, Nat.zero_add, hfront, Nat.zero_add, Buffer.read_copy, hback]

namespace EditStream
variable (s : EditStream)

theorem data_length : s.data.length = s.dataLen := by
  unfold data dataLen dataFrom
  cases s.source with
  | here len => exact Buffer.read_length _ _ _
  | apart bytes => simp

/-- The first move takes the front of the text. -/
theorem dataFrom_front {front rest : List Byte} (h : s.data = front ++ rest) :
    s.dataFrom s.newData 0 front.length = front := by
  have hlen := s.data_length
  rw [h, List.length_append] at hlen
  have htake : s.dataFrom s.newData 0 front.length = s.data.take front.length := by
    unfold data dataFrom dataLen at *
    cases hs : s.source with
    | here len =>
      rw [hs] at hlen
      dsimp only at hlen ⊢
      exact (Buffer.read_take _ _ (by omega)).symm
    | apart bytes =>
      simp
  rw [htake, h, List.take_left]

/-- The second move takes the rest, which the first one has not changed. -/
theorem dataFrom_back {front rest : List Byte} (h : s.data = front ++ rest) (n : Nat) :
    s.dataFrom (s.newData.copy 0 (s.dataFrom s.newData 0 n)) front.length rest.length = rest := by
  have hlen := s.data_length
  rw [h, List.length_append] at hlen
  have hdrop : s.dataFrom (s.newData.copy 0 (s.dataFrom s.newData 0 n)) front.length rest.length =
      s.data.drop front.length := by
    unfold data dataFrom dataLen at *
    cases hs : s.source with
    | here len =>
      rw [hs] at hlen
      dsimp only at hlen ⊢
      rw [Buffer.read_drop _ _ (by omega), Nat.zero_add, ← hlen, Nat.add_sub_cancel_left]
      exact Buffer.read_congr fun j _ _ => Buffer.copy_self_cell _ 0 n j
    | apart bytes =>
      rw [hs] at hlen
      dsimp only at hlen ⊢
      rw [List.drop_zero, List.take_of_length_le (Nat.le_refl _), List.take_of_length_le]
      rw [List.length_drop]
      omega
  rw [hdrop, h, List.drop_left]

/-- What `_http_modify_stream` does: nothing when the result does not fit in the output buffer. -/
theorem httpModifyStream_data {front old back : List Byte} (h : s.data = front ++ old ++ back) (new : List Byte)
    (hpos : 0 < (front ++ old ++ back).length) :
    (s.newData.size < front.length + new.length + back.length ∧
      s.httpModifyStream front.length (front.length + old.length) new new.length = some (-1, s.newData)) ∨
    (front.length + new.length + back.length ≤ s.newData.size ∧ ∃ b,
      s.httpModifyStream front.length (front.length + old.length) new new.length =
        some (((front ++ new ++ back).length : Int), b) ∧
      b.read 0 (front ++ new ++ back).length = front ++ new ++ back) := by
  have hlen : s.dataLen = front.length + old.length + back.length := by
    rw [← s.data_length, h]
    simp only [List.length_append]
  have hdata : s.data = front ++ (old ++ back) := by rw [h, List.append_assoc]
  rw [List.length_append, List.length_append] at hpos
  unfold httpModifyStream
  rw [if_neg (by omega)]
  by_cases hfit : s.newData.size < front.length + new.length + back.length
  · rw [if_pos (by omega)]
    exact Or.inl ⟨hfit, rfl⟩
  · have hnew : (s.dataLen : Int) - (((front.length + old.length : Nat) : Int) - front.length) + new.length =
        ((front.length + new.length + back.length : Nat) : Int) := by omega
    have hback : s.dataLen - (front.length + old.length) = back.length := by omega
    have hrest := s.dataFrom_back h front.length
    rw [s.dataFrom_front hdata, List.length_append] at hrest
    rw [if_neg (by omega), if_neg (by omega), Int.toNat_natCast, List.take_length, hnew, hback,
      s.dataFrom_front hdata]
    dsimp only
    rw [hrest, List.length_append, List.length_append]
    exact Or.inr ⟨Nat.not_lt.mp hfit, _, rfl, read_stretches _ _ _ _⟩

/-- **One edit** replaces the stretch when the result fits in the output buffer, and fails when it does not. -/
theorem modify_data {front old back : List Byte} (h : s.data = front ++ old ++ back) (new : List Byte)
    (hpos : 0 < front.length + back.length) :
    ∃ r s', s.finish (s.httpModifyStream front.length (front.length + old.length) new new.length) = some (r, s') ∧
      (r = -1 ∧ s' = s ∧ s.newData.size < front.length + new.length + back.length ∨
        r = ((front ++ new ++ back).length : Int) ∧ front.length + new.length + back.length ≤ s.newData.size ∧
          s'.data = front ++ new ++ back) := by
  have htext : 0 < (front ++ old ++ back).length := by
    rw [List.length_append, List.length_append]
    omega
  rcases s.httpModifyStream_data h new htext with ⟨hlt, hfail⟩ | ⟨hle, b, hok, hb⟩
  · rw [hfail]
    exact ⟨-1, _, rfl, Or.inl ⟨rfl, rfl, hlt⟩⟩
  · have hresult : 0 < ((front ++ new ++ back).length : Int) := by
      rw [List.length_append, List.length_append]
      omega
    rw [hok]
    unfold finish
    dsimp only
    rw [if_pos hresult, Int.toNat_natCast]
    exact ⟨_, _, rfl, Or.inr ⟨rfl, hle, hb⟩⟩

/-- Of the replacement only the given length is used. -/
theorem httpModifyStream_take {begin stop : Nat} {new : List Byte} {newLen : Int} (hlen : 0 ≤ newLen)
    (hnew : newLen.toNat ≤ new.length) :
    s.httpModifyStream begin stop new newLen =
      s.httpModifyStream begin stop (new.take newLen.toNat) (new.take newLen.toNat).length := by
  have hlength : ((new.take newLen.toNat).length : Int) = newLen := by
    rw [List.length_take_of_le hnew, Int.toNat_of_nonneg hlen]
  unfold httpModifyStream
  rw [hlength, List.take_take, Nat.min_self]

end EditStream

/-! ## Where the value is appended -/

section
variable {needle : List Byte}

/-- Behind a line feed stands the next line. -/
theorem xMemcasestr_lf {u : List Byte} (hu : NoLineEnd u) (t : List Byte) :
    xMemcasestr (ch '\n' :: needle) (u ++ crlf ++ t) =
      if startsWithCase t needle then some (u.length + 1)
      else (xMemcasestr (ch '\n' :: needle) t).map (· + (u.length + 2)) := by
  induction u with
  | nil =>
    have hcr : startsWithCase (ch '\r' :: ch '\n' :: t) (ch '\n' :: needle) = false := rfl
    have hlf : startsWithCase (ch '\n' :: t) (ch '\n' :: needle) = startsWithCase t needle := by
      rw [startsWithCase]
      simp
    show xMemcasestr (ch '\n' :: needle) (ch '\r' :: ch '\n' :: t) = _
    rw [xMemcasestr, hcr, if_neg (by decide), xMemcasestr, hlf]
    by_cases h : startsWithCase t needle = true
    · rw [if_pos h, if_pos h]
      rfl
    · rw [if_neg h, if_neg h, Option.map_map]
      rfl
  | cons c u ih =>
    have hc : startsWithCase (c :: (u ++ crlf ++ t)) (ch '\n' :: needle) = false := by
      have hlf : ¬ tolower c = tolower (ch '\n') := fun heq =>
        (hu c List.mem_cons_self).2 (tolower_lf c (heq.trans (by decide)))
      rw [startsWithCase, decide_eq_false hlf, Bool.false_and]
    show xMemcasestr (ch '\n' :: needle) (c :: (u ++ crlf ++ t)) = _
    rw [xMemcasestr, hc, if_neg (by decide), ih fun d hd => hu d (List.mem_cons_of_mem c hd)]
    by_cases h : startsWithCase t needle = true
    · rw [if_pos h, if_pos h]
      rfl
    · rw [if_neg h, if_neg h, Option.map_map]
      rfl

theorem startsWithCase_line (hn : NoLineEnd needle) (l t : List Byte) :
    startsWithCase (l ++ crlf ++ t) needle = startsWithCase l needle := by
  rw [List.append_assoc]
  exact startsWithCase_cr hn (ch '\n' :: t) l

theorem xMemcasestr_lf_none (hn : NoLineEnd needle) (hne : needle ≠ []) {fields : List (List Byte)}
    (hfields : ∀ l ∈ fields, NoLineEnd l)
    (hnone : ∀ l ∈ fields, startsWithCase l needle = false) : ∀ {u : List Byte}, NoLineEnd u →
    xMemcasestr (ch '\n' :: needle) (u ++ crlf ++ (crlfLines fields ++ crlf)) = none := by
  induction fields with
  | nil =>
    intro u hu
    have hend : xMemcasestr (ch '\n' :: needle) crlf = none := by
      obtain ⟨c, needle, rfl⟩ := List.exists_cons_of_ne_nil hne
      rfl
    have hstart := startsWithCase_crlf hn hne []
    rw [List.append_nil] at hstart
    rw [xMemcasestr_lf hu, crlfLines, joined, List.flatMap_nil, List.nil_append, hstart, if_neg (by decide), hend]
    rfl
  | cons l fields ih =>
    intro u hu
    obtain ⟨hl, hfields⟩ := List.forall_mem_cons.mp hfields
    obtain ⟨hnot, hnone⟩ := List.forall_mem_cons.mp hnone
    have hlines : crlfLines (l :: fields) ++ crlf = l ++ crlf ++ (crlfLines fields ++ crlf) := by
      rw [crlfLines_cons, List.append_assoc]
    rw [xMemcasestr_lf hu, hlines, startsWithCase_line hn, hnot, if_neg (by decide), ih hfields hnone hl]
    rfl

/-- The line feed is the one in front of the first line that starts with the needle. -/
theorem xMemcasestr_lf_first (hn : NoLineEnd needle) {front back : List (List Byte)} {line : List Byte}
    (hfront : ∀ l ∈ front, NoLineEnd l) (hnot : ∀ l ∈ front, startsWithCase l needle = false)
      (hline : startsWithCase line needle = true) :
    ∀ {u : List Byte}, NoLineEnd u →
    xMemcasestr (ch '\n' :: needle) (u ++ crlf ++ (crlfLines (front ++ line :: back) ++ crlf)) =
      some ((u ++ crlf ++ crlfLines front).length - 1) := by
  induction front with
  | nil =>
    intro u hu
    have hlines : crlfLines ([] ++ line :: back) ++ crlf = line ++ crlf ++ (crlfLines back ++ crlf) := by
      rw [List.nil_append, crlfLines_cons, List.append_assoc]
    rw [xMemcasestr_lf hu, hlines, startsWithCase_line hn, if_pos hline]
    show some (u.length + 1) = some ((u ++ crlf ++ []).length - 1)
    rw [List.append_nil, List.length_append]
    rfl
  | cons l front ih =>
    intro u hu
    obtain ⟨hl, hfront⟩ := List.forall_mem_cons.mp hfront
    obtain ⟨hstart, hnot⟩ := List.forall_mem_cons.mp hnot
    have hlines : crlfLines (l :: front ++ line :: back) ++ crlf =
        l ++ crlf ++ (crlfLines (front ++ line :: back) ++ crlf) := by
      rw [List.cons_append, crlfLines_cons, List.append_assoc]
    have hcrlf : crlf.length = 2 := rfl
    rw [xMemcasestr_lf hu, hlines, startsWithCase_line hn, hstart, if_neg (by decide), ih hfront hnot hl,
      crlfLines_cons]
    simp only [Option.map_some, List.length_append, Option.some.injEq]
    omega

end

/-! ## Edits of a block -/

/-- The value of a header line. -/
structure HeaderValue where
  text : List Byte
  plain : ∀ c ∈ text, c ≠ ch '\r' ∧ c ≠ ch '\n' ∧ c ≠ 0
  short : text.length < 2000

theorem HeaderValue.line (value : HeaderValue) : NoLineEnd value.text :=
  fun c hc => ⟨(value.plain c hc).1, (value.plain c hc).2.1⟩

/-- The lines before an edit and after it. -/
inductive LineEdit.Changes (label : HeaderLabel) (value : List Byte) :
    LineEdit → List (List Byte) → List (List Byte) → Prop
  | insert (lines : List (List Byte)) : Changes label value .insert lines (lines ++ [label.text ++ value])
  | update (front : List (List Byte)) (line : List Byte) (back : List (List Byte))
    (hline : label.starts line = true) :
      Changes label value .update (front ++ line :: back)
        (front ++ if value = [] then back else (line.take label.text.length ++ value) :: back)
  | append (front : List (List Byte)) (line : List Byte) (back : List (List Byte))
      (hfront : ∀ l ∈ front, label.starts l = false) (hline : label.starts line = true) :
      Changes label value .append (front ++ line :: back) (front ++ (line ++ value) :: back)
  | remove (front : List (List Byte)) (line : List Byte) (back : List (List Byte))
    (hline : label.starts line = true) :
      Changes label value .remove (front ++ line :: back) (front ++ back)

namespace HeaderBlock

/-- The empty line of the block is the first one in it. -/
def EndsFirst (b : HeaderBlock) : Prop := xMemcasestr (str "\r\n\r\n") b.text = some (b.text.length - 4)

/-- What stands in front of the line behind `front`, and what stands behind `line`. -/
def before (b : HeaderBlock) (front : List (List Byte)) : List Byte := b.request ++ crlf ++ crlfLines front

def behind (back : List (List Byte)) : List Byte := crlfLines back ++ crlf

theorem text_split {b : HeaderBlock} {front back : List (List Byte)} {line : List Byte}
    (h : b.fields = front ++ line :: back) : b.text = b.before front ++ line ++ (crlf ++ behind back) := by
  rw [text, h, crlfLines_append, crlfLines_cons, before, behind]
  simp only [List.append_assoc]

/-- In front of a line stands a line feed. -/
theorem before_lf (b : HeaderBlock) (front : List (List Byte)) : ∃ x, b.before front = x ++ [ch '\n'] := by
  rcases List.eq_nil_or_concat front with rfl | ⟨front', l, rfl⟩
  · exact ⟨b.request ++ [ch '\r'], by simp [before, crlfLines, joined, crlf]⟩
  · refine ⟨b.before front' ++ l ++ [ch '\r'], ?_⟩
    have hlast : crlfLines [l] = l ++ crlf := by simp [crlfLines, joined, crlf]
    rw [before, List.concat_eq_append, crlfLines_append, hlast, before]
    simp [crlf]

theorem behind_length (back : List (List Byte)) : 0 < (behind back).length := by
  rw [behind, List.length_append]
  exact Nat.lt_of_lt_of_le (by decide : 0 < crlf.length) (Nat.le_add_left _ _)

theorem fields_front {b : HeaderBlock} {front back : List (List Byte)} {line : List Byte}
    (h : b.fields = front ++ line :: back) : (∀ l ∈ front, NoLineEnd l) ∧ NoLineEnd line ∧ ∀ l ∈ back,
      NoLineEnd l := by
  have hfields := b.fields_line
  rw [h] at hfields
  exact ⟨fun l hl => hfields l (List.mem_append_left _ hl), hfields line (by simp),
    fun l hl => hfields l (List.mem_append_right _ (List.mem_cons_of_mem line hl))⟩

/-- The lines can be read off the text. -/
theorem fields_unique {request : List Byte} {lines lines' : List (List Byte)} (hlines : ∀ l ∈ lines, NoLineEnd l)
    (hlines' : ∀ l ∈ lines', NoLineEnd l)
    (h : request ++ crlf ++ crlfLines lines ++ crlf = request ++ crlf ++ crlfLines lines' ++ crlf) : lines =
      lines' := by
  have hfree : ∀ {ls : List (List Byte)}, (∀ l ∈ ls, NoLineEnd l) → ∀ l ∈ ls, ¬ [ch '\r', ch '\n'] <:+: l := by
    intro ls hls l hl hwithin
    exact (hls l hl (ch '\r') (hwithin.subset List.mem_cons_self)).1 rfl
  have hjoined := List.append_cancel_left (List.append_cancel_right h)
  rw [← pieces_joined (by decide) (hfree hlines), ← pieces_joined (by decide) (hfree hlines')]
  exact congrArg _ hjoined

end HeaderBlock

section
variable {b : HeaderBlock} {label : HeaderLabel} {value : HeaderValue} {s : EditStream}

theorem value_len (value : HeaderValue) : toInt32 value.text.length = value.text.length :=
  toInt32_small (Int.natCast_nonneg _) (by
    have := value.short
    omega)

/-- A line in front of the empty one, or what the buffer of 8192 bytes holds of it. -/
theorem insert_run (hs : s.data = b.text) (hend : b.EndsFirst) (hlabel : label.text.length < 2 ^ 31) :
    ∃ r s', s.httpInsertLine label.text value.text = some (r, s') ∧
      (r = -1 ∧ (LINE_BUF < label.text.length + value.text.length + 2 ∨
          s.newData.size < b.text.length + (min (label.text.length + value.text.length + 2) (LINE_BUF - 1))) ∨
        0 ≤ r ∧ label.text.length + value.text.length + 2 ≤ LINE_BUF ∧
          b.text.length + (min (label.text.length + value.text.length + 2) (LINE_BUF - 1)) ≤ s.newData.size ∧
          s'.data = b.before b.fields ++ (label.text ++ value.text ++ crlf).take (LINE_BUF - 1) ++ crlf) := by
  have hvalue := value.short
  have hcrlf : crlf.length = 2 := rfl
  have hstr : str "\r\n" = crlf := by decide
  have htext : b.text = b.before b.fields ++ [] ++ crlf := by rw
    [List.append_nil, HeaderBlock.text, HeaderBlock.before]
  have hlen : b.text.length = (b.before b.fields).length + 2 := by
    rw [htext, List.append_nil, List.length_append, hcrlf]
  have hfront : 2 ≤ (b.before b.fields).length := by
    rw [HeaderBlock.before]
    simp only [List.length_append]
    omega
  have hbegin : b.text.length - 4 + 2 = (b.before b.fields).length := by omega
  have hunsigned : toUnsigned (toInt32 value.text.length + label.text.length + 2) =
      ((label.text.length + value.text.length + 2 : Nat) : Int) := by
    rw [value_len, toUnsigned]
    omega
  unfold EditStream.httpInsertLine
  rw [hs, hend, hunsigned, hstr]
  dsimp only
  -- the line with its CRLF and a NUL: one byte more than the check allows for
  by_cases hlong : LINE_BUF < label.text.length + value.text.length + 2
  · rw [if_pos (Int.ofNat_lt.mpr hlong)]
    exact ⟨-1, s, rfl, Or.inl ⟨rfl, Or.inl hlong⟩⟩
  · have hnew : ((label.text ++ value.text ++ crlf).take (LINE_BUF - 1)).length =
        min (label.text.length + value.text.length + 2) (LINE_BUF - 1) := by
      rw [List.length_take, List.length_append, List.length_append, hcrlf, Nat.min_comm]
    obtain ⟨r, s', hrun, hor⟩ :=
      s.modify_data (hs.trans htext) ((label.text ++ value.text ++ crlf).take (LINE_BUF - 1))
      (by omega)
    rw [List.length_nil, Nat.add_zero] at hrun
    rw [if_neg (fun h => hlong (Int.ofNat_lt.mp h)), hbegin, hrun]
    refine ⟨r, s', rfl, ?_⟩
    rw [hnew] at hor
    rcases hor with ⟨hr, -, hfit⟩ | ⟨rfl, hfit, hdata⟩
    · exact Or.inl ⟨hr, Or.inr (by omega)⟩
    · exact Or.inr ⟨Int.natCast_nonneg _, Nat.not_lt.mp hlong, by omega, hdata⟩

/-- What is located is the value of a line that starts with the label. -/
theorem located {begin stop : Nat} (h : httpLocateLineValue b.text label.text = some (begin, stop)) :
    ∃ front line back, b.fields = front ++ line :: back ∧ label.starts line = true ∧
      begin = (b.before front).length + label.text.length ∧ stop = (b.before front).length + line.length := by
  rw [httpLocateLineValue_block] at h
  split at h
  · obtain ⟨front, line, back, hfields, -, hline, rfl, rfl⟩ := locateIn_some h
    refine ⟨front, line, back, hfields, hline, ?_, ?_⟩
    · rw [← b.place_eq front]
      rfl
    · rw [← b.place_eq front]
      rfl
  · cases h

/-- A line that starts with the label, cut behind it. -/
theorem starts_cut {line : List Byte} (h : label.starts line = true) :
    ∃ w v, line = w ++ v ∧ w = line.take label.text.length ∧ w.length = label.text.length :=
  ⟨line.take label.text.length, line.drop label.text.length, (List.take_append_drop _ _).symm, rfl,
    List.length_take_of_le (startsWithCase_length h)⟩

theorem remove_line {front back : List (List Byte)} {line : List Byte} (hs : s.data = b.text)
    (hfields : b.fields = front ++ line :: back) :
    ∃ r s', s.finish (s.httpModifyStream (b.before front).length ((b.before front).length + line.length + 2) [] 0) =
        some (r, s') ∧
      (r = -1 ∨ 0 ≤ r ∧ s'.data = b.before front ++ HeaderBlock.behind back) := by
  have hcrlf : crlf.length = 2 := rfl
  have htext : s.data = b.before front ++ (line ++ crlf) ++ HeaderBlock.behind back := by
    rw [hs, HeaderBlock.text_split hfields]
    simp only [List.append_assoc]
  have hpos := HeaderBlock.behind_length back
  obtain ⟨r, s', hrun, hor⟩ := s.modify_data htext [] (by omega)
  rw [List.length_append, hcrlf, ← Nat.add_assoc] at hrun
  refine ⟨r, s', hrun, ?_⟩
  rcases hor with ⟨hr, -⟩ | ⟨rfl, -, hdata⟩
  · exact Or.inl hr
  · rw [List.append_nil] at hdata
    exact Or.inr ⟨Int.natCast_nonneg _, hdata⟩

theorem update_run (hs : s.data = b.text) :
    ∃ r s', s.httpUpdateLine label.text value.text = some (r, s') ∧
      (r = -1 ∨ 0 ≤ r ∧ ∃ front line back, b.fields = front ++ line :: back ∧ label.starts line = true ∧
        s'.data = b.before front ++
          if value.text = [] then HeaderBlock.behind back
          else line.take label.text.length ++ value.text ++ (crlf ++ HeaderBlock.behind back)) := by
  have hvalue := value.short
  have hunsigned : ¬ (LINE_BUF : Int) < toUnsigned (toInt32 value.text.length) := by
    rw [value_len, toUnsigned]
    unfold LINE_BUF
    omega
  have hwhole : value.text.take (LINE_BUF - 1) = value.text := List.take_of_length_le (by
    unfold LINE_BUF
    omega)
  unfold EditStream.httpUpdateLine
  rw [hs, hwhole, value_len]
  cases hfind : httpLocateLineValue b.text label.text with
  | none => exact ⟨-1, s, rfl, Or.inl rfl⟩
  | some p =>
    obtain ⟨begin, stop⟩ := p
    obtain ⟨front, line, back, hfields, hline, rfl, rfl⟩ := located hfind
    dsimp only
    rw [value_len] at hunsigned
    rw [if_neg hunsigned]
    by_cases hempty : value.text = []
    · -- the whole line goes, with its CRLF
      obtain ⟨r, s', hrun, hor⟩ := remove_line hs hfields
      have hzero : (([] : List Byte).length : Int) = 0 := rfl
      rw [if_pos (by rw [hempty]; rfl), Nat.add_sub_cancel, hempty, hzero, hrun]
      refine ⟨r, s', rfl, ?_⟩
      rcases hor with hr | ⟨hr, hdata⟩
      · exact Or.inl hr
      · exact Or.inr ⟨hr, front, line, back, hfields, hline, by rw [if_pos rfl]; exact hdata⟩
    · have hlen : ¬ (value.text.length : Int) = 0 := fun h =>
        hempty (List.length_eq_zero_iff.mp (Int.ofNat_inj.mp h))
      obtain ⟨w, v, hcut, htake, hw⟩ := starts_cut hline
      have htext : s.data = (b.before front ++ w) ++ v ++ (crlf ++ HeaderBlock.behind back) := by
        rw [hs, HeaderBlock.text_split hfields, hcut]
        simp only [List.append_assoc]
      have hpos := HeaderBlock.behind_length back
      obtain ⟨r, s', hrun, hor⟩ := s.modify_data htext value.text (by simp only [List.length_append]; omega)
      have hstop : (b.before front).length + line.length = (b.before front ++ w).length + v.length := by
        rw [hcut]
        simp only [List.length_append]
        omega
      rw [if_neg hlen, ← hw, ← List.length_append, hstop, hrun]
      refine ⟨r, s', rfl, ?_⟩
      rcases hor with ⟨hr, -⟩ | ⟨rfl, -, hdata⟩
      · exact Or.inl hr
      · refine Or.inr ⟨Int.natCast_nonneg _, front, line, back, hfields, hline, ?_⟩
        rw [if_neg hempty, hw, ← htake, hdata]
        simp only [List.append_assoc]

theorem remove_run (hs : s.data = b.text) :
    ∃ r s', s.httpRemoveLine label.text = some (r, s') ∧
      (r = -1 ∨ s' = s ∨ 0 ≤ r ∧ ∃ front line back, b.fields = front ++ line :: back ∧ label.starts line = true ∧
        s'.data = b.before front ++ HeaderBlock.behind back) := by
  unfold EditStream.httpRemoveLine
  rw [hs]
  cases hfind : httpLocateLineValue b.text label.text with
  | none => exact ⟨s.dataLen, s, rfl, Or.inr (Or.inl rfl)⟩
  | some p =>
    obtain ⟨begin, stop⟩ := p
    obtain ⟨front, line, back, hfields, hline, rfl, rfl⟩ := located hfind
    obtain ⟨r, s', hrun, hor⟩ := remove_line hs hfields
    dsimp only
    rw [Nat.add_sub_cancel, hrun]
    refine ⟨r, s', rfl, ?_⟩
    rcases hor with hr | ⟨hr, hdata⟩
    · exact Or.inl hr
    · exact Or.inr (Or.inr ⟨hr, front, line, back, hfields, hline, hdata⟩)

/-- What the buffer of 256 bytes holds of the label, behind the line feed. -/
def HeaderLabel.held (label : HeaderLabel) : List Byte := label.text.take (SLABEL_BUF - 2)

theorem held_line : NoLineEnd label.held := fun c hc => label.text_line c (List.mem_of_mem_take hc)

theorem held_ne : label.held ≠ [] := by
  intro h
  rcases List.take_eq_nil_iff.mp h with hzero | hnil
  · exact absurd hzero (by decide)
  · exact label.text_ne hnil

theorem slabel_eq : (str "\n" ++ label.text).take (SLABEL_BUF - 1) = ch '\n' :: label.held := by
  have hstr : str "\n" ++ label.text = ch '\n' :: label.text := rfl
  have hbuf : SLABEL_BUF - 1 = SLABEL_BUF - 2 + 1 := by decide
  rw [hstr, hbuf, List.take_succ_cons, HeaderLabel.held]

/-- **Where the value goes**: to the end of the first line that starts with what the buffer holds. -/
theorem httpLocateBuf_fields {front back : List (List Byte)} {line : List Byte}
    (hfields : b.fields = front ++ line :: back) (hfront : ∀ l ∈ front, startsWithCase l label.held = false)
    (hline : startsWithCase line label.held = true) :
    ∃ begin, httpLocateBuf b.text (ch '\n' :: label.held) (str "\r") =
      some (begin, (b.before front ++ line).length) := by
  obtain ⟨hfree, hlfree, -⟩ := HeaderBlock.fields_front hfields
  have htext : b.text = b.request ++ crlf ++ (crlfLines (front ++ line :: back) ++ crlf) := by
    rw [HeaderBlock.text, hfields, List.append_assoc _ _ crlf]
  have hfind := @xMemcasestr_lf_first label.held held_line front back line hfree hfront hline b.request
    b.request_line
  rw [← htext] at hfind
  obtain ⟨x, hx⟩ := b.before_lf front
  have hbegin : (b.before front).length - 1 = x.length := by
    rw [hx, List.length_append]
    rfl
  have hdrop : b.text.drop x.length = ch '\n' :: (line ++ crlf ++ HeaderBlock.behind back) := by
    rw [HeaderBlock.text_split hfields, hx, List.append_assoc x, List.append_assoc x, List.drop_left]
    simp
  have hend : xMemcasestr (str "\r") (ch '\n' :: (line ++ crlf ++ HeaderBlock.behind back)) =
      some (line.length + 1) := by
    have hlf : startsWithCase (ch '\n' :: (line ++ crlf ++ HeaderBlock.behind back)) (str "\r") = false := rfl
    rw [xMemcasestr, hlf, if_neg (by decide), xMemcasestr_end hlfree, Option.map_some]
  refine ⟨x.length, ?_⟩
  have hlen : (b.before front ++ line).length = x.length + (line.length + 1) := by
    rw [hx]
    simp only [List.length_append, List.length_singleton]
    omega
  unfold httpLocateBuf
  rw [hfind]
  show Option.map _ (xMemcasestr (str "\r") (b.text.drop ((b.before front).length - 1))) = _
  rw [hbegin, hdrop, hend, hlen]
  show some ((b.before front).length - 1, (b.before front).length - 1 + (line.length + 1)) = _
  rw [hbegin]

theorem append_none (hs : s.data = b.text) (hnone : ∀ l ∈ b.fields, startsWithCase l label.held = false) :
    s.httpAppendLine label.text value.text = some (-1, s) := by
  have htext : b.text = b.request ++ crlf ++ (crlfLines b.fields ++ crlf) := by
    rw [HeaderBlock.text, List.append_assoc _ _ crlf]
  have hfind := @xMemcasestr_lf_none label.held held_line held_ne b.fields b.fields_line hnone b.request
    b.request_line
  rw [← htext] at hfind
  unfold EditStream.httpAppendLine httpLocateBuf
  rw [slabel_eq, hs]
  dsimp only
  rw [hfind]

theorem append_first {front back : List (List Byte)} {line : List Byte} (hs : s.data = b.text)
    (hfields : b.fields = front ++ line :: back) (hfront : ∀ l ∈ front, startsWithCase l label.held = false)
    (hline : startsWithCase line label.held = true) :
    ∃ r s', s.httpAppendLine label.text value.text = some (r, s') ∧
      (r = -1 ∧ s.newData.size < b.text.length + value.text.length ∨
        0 ≤ r ∧ b.text.length + value.text.length ≤ s.newData.size ∧
          s'.data = b.before front ++ (line ++ value.text) ++ (crlf ++ HeaderBlock.behind back)) := by
  have hvalue := value.short
  have hunsigned : ¬ (VALUE_BUF : Int) < toUnsigned (toInt32 value.text.length) := by
    rw [value_len, toUnsigned]
    unfold VALUE_BUF
    omega
  have hwhole : value.text.take (VALUE_BUF - 1) = value.text := List.take_of_length_le (by
    unfold VALUE_BUF
    omega)
  obtain ⟨begin, hbuf⟩ := httpLocateBuf_fields hfields hfront hline
  have htext : s.data = (b.before front ++ line) ++ [] ++ (crlf ++ HeaderBlock.behind back) := by
    rw [hs, HeaderBlock.text_split hfields, List.append_nil]
  have hlen : b.text.length = (b.before front ++ line).length + (crlf ++ HeaderBlock.behind back).length := by
    rw [← hs, htext, List.append_nil, List.length_append]
  have hpos := HeaderBlock.behind_length back
  obtain ⟨r, s', hrun, hor⟩ := s.modify_data htext value.text (by simp only [List.length_append]; omega)
  rw [List.length_nil, Nat.add_zero] at hrun
  unfold EditStream.httpAppendLine
  rw [slabel_eq, hs]
  dsimp only
  rw [hbuf]
  dsimp only
  rw [if_neg hunsigned, hwhole, hrun]
  refine ⟨r, s', rfl, ?_⟩
  rcases hor with ⟨hr, -, hfit⟩ | ⟨rfl, hfit, hdata⟩
  · exact Or.inl ⟨hr, by omega⟩
  · exact Or.inr ⟨Int.natCast_nonneg _, by omega, by rw [hdata, List.append_assoc (b.before front)]⟩

/-- Whenever the edit succeeds and changes the text, the text is that of the changed lines. -/
def LineEdit.Touches (edit : LineEdit) (b : HeaderBlock) (label : HeaderLabel) (value : List Byte)
    (s : EditStream) : Prop :=
  ∀ r s', edit.run s label.text value = some (r, s') → 0 ≤ r → s'.data ≠ s.data →
    ∃ fields, edit.Changes label value b.fields fields ∧ s'.data = b.request ++ crlf ++ crlfLines fields ++ crlf

/-- When an edit does something else: the line feed of an inserted line does not fit in the buffer of 8192 bytes,
or the first line that starts with what the buffer of 256 bytes holds of the label does not start with the label. -/
def LineEdit.Misses (b : HeaderBlock) (label : HeaderLabel) (value : List Byte) (max : Nat) : LineEdit → Prop
  | .insert => label.text.length + value.length + 2 = LINE_BUF ∧ b.text.length + (LINE_BUF - 1) ≤ max
  | .append => value ≠ [] ∧ b.text.length + value.length ≤ max ∧
      ∃ front line back, b.fields = front ++ line :: back ∧ (∀ l ∈ front, startsWithCase l label.held = false) ∧
        startsWithCase line label.held = true ∧ label.starts line = false
  | _ => False

/-- A text that starts with a text starts with its beginning. -/
theorem startsWithCase_front {needle : List Byte} : ∀ {l : List Byte} (n : Nat), startsWithCase l needle = true →
    startsWithCase l (needle.take n) = true := by
  induction needle with
  | nil =>
    intro l n h
    rw [List.take_nil]
    exact h
  | cons c needle ih =>
    intro l n h
    cases n with
    | zero => cases l <;> rfl
    | succ n =>
      cases l with
      | nil => cases h
      | cons d l =>
        rw [startsWithCase, Bool.and_eq_true] at h
        rw [List.take_succ_cons, startsWithCase, h.1, ih n h.2]
        rfl

/-- In lists that differ in one place this place is known. -/
theorem changed_place {v : List Byte} (hv : v ≠ []) {front : List (List Byte)} :
    ∀ {front' back back' : List (List Byte)}
    {line line' : List Byte}, front ++ line :: back = front' ++ line' :: back' →
    front ++ (line ++ v) :: back = front' ++ (line' ++ v) :: back' → line = line' := by
  have hgrown : ∀ l : List Byte, l ++ v ≠ l := fun l h => hv (List.append_right_eq_self.mp h)
  induction front with
  | nil =>
    intro front' back back' line line' hold hnew
    cases front' with
    | nil => exact (List.cons.inj hold).1
    | cons l front' => exact absurd ((List.cons.inj hnew).1.trans (List.cons.inj hold).1.symm) (hgrown line)
  | cons l front ih =>
    intro front' back back' line line' hold hnew
    cases front' with
    | nil => exact absurd ((List.cons.inj hnew).1.symm.trans (List.cons.inj hold).1) (hgrown line')
    | cons l' front' => exact ih (List.cons.inj hold).2 (List.cons.inj hnew).2

/-- An inserted line is whole, unless its line feed does not fit in the buffer of 8192 bytes. -/
theorem insert_iff (hs : s.data = b.text) (hend : b.EndsFirst) (hlabel : label.text.length < 2 ^ 31) :
    LineEdit.insert.Touches b label value.text s ↔ ¬ LineEdit.insert.Misses b label value.text s.newData.size := by
  obtain ⟨r', s'', hrun', hor⟩ := @insert_run b label value s hs hend hlabel
  have hcrlf : crlf.length = 2 := rfl
  have hlen : (label.text ++ value.text ++ crlf).length = label.text.length + value.text.length + 2 := by
    simp only [List.length_append]
    rw [hcrlf]
  have htext : b.text = b.before b.fields ++ crlf := rfl
  constructor
  · -- the buffer holds one byte less than the line
    intro h hmisses
    obtain ⟨hfull, hfit⟩ := hmisses
    have hheld : ((label.text ++ value.text ++ crlf).take (LINE_BUF - 1)).length = LINE_BUF - 1 := by
      rw [List.length_take, hlen, hfull]
      exact Nat.min_eq_left (Nat.sub_le _ _)
    have hbuf : LINE_BUF - 1 < LINE_BUF := by decide
    rcases hor with ⟨-, hlong | hlarge⟩ | ⟨hr, -, -, hdata⟩
    · omega
    · omega
    · have hchanged : s''.data ≠ s.data := by
        intro heq
        have hsame := congrArg List.length heq
        rw [hdata, hs, htext] at hsame
        simp only [List.length_append, hheld] at hsame
        omega
      obtain ⟨fields, hfields, hnew⟩ := h r' s'' hrun' hr hchanged
      generalize hold : b.fields = lines at hfields
      cases hfields
      have hsame := congrArg List.length (hdata.symm.trans hnew)
      have hlines : crlfLines [label.text ++ value.text] = label.text ++ value.text ++ crlf := by
        simp [crlfLines, joined, crlf]
      rw [crlfLines_append, hlines, HeaderBlock.before, hold] at hsame
      simp only [List.length_append, hheld, hcrlf] at hsame
      omega
  · -- a line that fits is whole
    intro hmisses r s' hrun hr _
    obtain ⟨rfl, rfl⟩ := Prod.mk.inj (Option.some.inj (hrun'.symm.trans hrun))
    rcases hor with ⟨rfl, -⟩ | ⟨-, hfull, hfit, hdata⟩
    · exact absurd hr (by decide)
    · have hshort : label.text.length + value.text.length + 2 ≠ LINE_BUF := by
        intro hfull
        exact hmisses ⟨hfull, by omega⟩
      refine ⟨b.fields ++ [label.text ++ value.text], .insert _, ?_⟩
      have hlines : crlfLines [label.text ++ value.text] = label.text ++ value.text ++ crlf := by
        simp [crlfLines, joined, crlf]
      rw [hdata, List.take_of_length_le (by omega), crlfLines_append, hlines, HeaderBlock.before]
      simp only [List.append_assoc]

/-- The lines with a longer one are lines still. -/
theorem grown_free {front back : List (List Byte)} {line : List Byte} (value : HeaderValue)
    (hfields : b.fields = front ++ line :: back) : ∀ l ∈ front ++ (line ++ value.text) :: back, NoLineEnd l := by
  obtain ⟨hfront, hline, hback⟩ := HeaderBlock.fields_front hfields
  intro l hl
  rcases List.mem_append.mp hl with hl | hl
  · exact hfront l hl
  · rcases List.mem_cons.mp hl with rfl | hl
    · intro c hc
      rcases List.mem_append.mp hc with hc | hc
      · exact hline c hc
      · exact value.line c hc
    · exact hback l hl

/-- An appended value goes to the right line, unless the beginning of the label that the buffer of 256 bytes holds
leads to another one. -/
theorem append_iff (hs : s.data = b.text) :
    LineEdit.append.Touches b label value.text s ↔ ¬ LineEdit.append.Misses b label value.text s.newData.size := by
  have htext : ∀ {front back : List (List Byte)} {line : List Byte},
      b.before front ++ line ++ (crlf ++ HeaderBlock.behind back) =
        b.request ++ crlf ++ crlfLines (front ++ line :: back) ++ crlf := by
    intro front back line
    rw [crlfLines_append, crlfLines_cons, HeaderBlock.before, HeaderBlock.behind]
    simp only [List.append_assoc]
  constructor
  · intro h hmisses
    obtain ⟨hvalue, hfit, front, line, back, hfields, hfront, hline, hnot⟩ := hmisses
    obtain ⟨r', s'', hrun', hor⟩ := @append_first b label value s front back line hs hfields hfront hline
    rcases hor with ⟨-, hlarge⟩ | ⟨hr, -, hdata⟩
    · omega
    · rw [htext] at hdata
      have hchanged : s''.data ≠ s.data := by
        intro heq
        have hsame := congrArg List.length heq
        rw [hdata, hs, HeaderBlock.text_split hfields, htext, crlfLines_append, crlfLines_append, crlfLines_cons,
          crlfLines_cons] at hsame
        have hpos := List.length_pos_iff.mpr hvalue
        simp only [List.length_append] at hsame
        omega
      obtain ⟨fields, hchange, hnew⟩ := h r' s'' hrun' hr hchanged
      generalize hold : b.fields = lines at hchange
      cases hchange with
      | append front2 line2 back2 hfront2 hline2 =>
        have hsame := HeaderBlock.fields_unique (grown_free value hfields) (grown_free value hold)
          (hdata.symm.trans hnew)
        have hplace := changed_place hvalue (hfields.symm.trans hold) hsame
        rw [hplace, hline2] at hnot
        cases hnot
  · intro hmisses r s' hrun hr hchanged
    -- the first line that begins as the buffer does
    rcases first_or_none (fun l => startsWithCase l label.held) b.fields with hnone | hfirst
    · obtain ⟨rfl, -⟩ := Prod.mk.inj (Option.some.inj ((append_none hs hnone).symm.trans hrun))
      exact absurd hr (by decide)
    · obtain ⟨front, line, back, hfields, hfront, hline⟩ := hfirst
      obtain ⟨r', s'', hrun', hor⟩ := @append_first b label value s front back line hs hfields hfront hline
      obtain ⟨rfl, rfl⟩ := Prod.mk.inj (Option.some.inj (hrun'.symm.trans hrun))
      rcases hor with ⟨rfl, -⟩ | ⟨-, hfit, hdata⟩
      · exact absurd hr (by decide)
      · have hvalue : value.text ≠ [] := by
          intro hempty
          rw [hempty, List.append_nil, ← HeaderBlock.text_split hfields, ← hs] at hdata
          exact hchanged hdata
        have hstarts : label.starts line = true := by
          cases hwhole : label.starts line with
          | true => rfl
          | false => exact absurd ⟨hvalue, hfit, front, line, back, hfields, hfront, hline, hwhole⟩ hmisses
        -- a line that starts with the label begins as the buffer does
        have hnot : ∀ l ∈ front, label.starts l = false := by
          intro l hl
          apply Bool.eq_false_iff.mpr
          intro hwhole
          have hheld := @startsWithCase_front label.text l (SLABEL_BUF - 2) hwhole
          rw [show startsWithCase l (label.text.take (SLABEL_BUF - 2)) = false from hfront l hl] at hheld
          cases hheld
        refine ⟨front ++ (line ++ value.text) :: back, ?_, ?_⟩
        · rw [hfields]
          exact .append front line back hnot hstarts
        · rw [hdata, htext]

/-- **Header edits touch one line.** Whenever an edit succeeds and changes the text, exactly the line it is meant
for has changed; except when it misses, and then something else has. -/
theorem edit_iff (edit : LineEdit) (hs : s.data = b.text) (hend : b.EndsFirst)
    (hlabel : label.text.length < 2 ^ 31) :
    edit.Touches b label value.text s ↔ ¬ edit.Misses b label value.text s.newData.size := by
  cases edit with
  | insert => exact insert_iff hs hend hlabel
  | update =>
    refine iff_of_true ?_ id
    intro r s' hrun hr _
    obtain ⟨r', s'', hrun', hor⟩ := @update_run b label value s hs
    obtain ⟨rfl, rfl⟩ := Prod.mk.inj (Option.some.inj (hrun'.symm.trans hrun))
    rcases hor with rfl | ⟨-, front, line, back, hfields, hline, hdata⟩
    · exact absurd hr (by decide)
    · refine ⟨front ++ if value.text = [] then back else (line.take label.text.length ++ value.text) :: back, ?_,
        ?_⟩
      · rw [hfields]
        exact .update front line back hline
      · rw [hdata, crlfLines_append, HeaderBlock.before]
        split
        · rw [HeaderBlock.behind]
          simp only [List.append_assoc]
        · rw [crlfLines_cons, HeaderBlock.behind]
          simp only [List.append_assoc]
  | append => exact append_iff hs
  | remove =>
    refine iff_of_true ?_ id
    intro r s' hrun hr hchanged
    obtain ⟨r', s'', hrun', hor⟩ := @remove_run b label s hs
    obtain ⟨rfl, rfl⟩ := Prod.mk.inj (Option.some.inj (hrun'.symm.trans hrun))
    rcases hor with rfl | rfl | ⟨-, front, line, back, hfields, hline, hdata⟩
    · exact absurd hr (by decide)
    · exact absurd rfl hchanged
    · refine ⟨front ++ back, ?_, ?_⟩
      · rw [hfields]
        exact .remove front line back hline
      · rw [hdata, crlfLines_append, HeaderBlock.before, HeaderBlock.behind]
        simp only [List.append_assoc]

end

/-- A header elsewhere, and an output buffer of 1024 bytes. -/
def apartStream (b : HeaderBlock) : EditStream := ⟨{ size := 1024, cell := fun _ => 0 }, .apart b.text⟩

theorem apart_data (b : HeaderBlock) : (apartStream b).data = b.text :=
  List.take_of_length_le (Nat.le_of_eq (by rw [List.drop_zero]; rfl))

/-- The value `b`. -/
def valueB : HeaderValue := ⟨str "b", forall_text (by decide), by decide⟩

theorem edit_host : (apartStream (hostBlock (str "/") (forall_text (by decide)))).data =
      (hostBlock (str "/") (forall_text (by decide))).text ∧
    (hostBlock (str "/") (forall_text (by decide))).EndsFirst ∧ hostLabel.text.length < 2 ^ 31 ∧
    LineEdit.insert.Touches (hostBlock (str "/") (forall_text (by decide))) hostLabel valueB.text
      (apartStream (hostBlock (str "/") (forall_text (by decide)))) := by
  have hend : (hostBlock (str "/") (forall_text (by decide))).EndsFirst := by
    unfold HeaderBlock.EndsFirst
    decide +kernel
  refine ⟨apart_data _, hend, by decide, ?_⟩
  apply (edit_iff .insert (apart_data _) hend (by decide)).mpr
  intro h
  exact absurd h.1 (by decide)

/-- A label of 254 letters. -/
def longLabel : HeaderLabel where
  name := List.replicate 254 (ch 'a')
  plain := by
    intro c hc
    rw [List.eq_of_mem_replicate hc]
    decide

/-- A line whose name has one letter more. -/
def longerBlock : HeaderBlock where
  request := str "GET / HTTP/1.1"
  fields := [longLabel.name ++ str "b: x"]
  request_line := forall_text (by decide)
  fields_line := by
    intro l hl
    rw [List.mem_singleton.mp hl]
    intro c hc
    rcases List.mem_append.mp hc with hc | hc
    · rw [List.eq_of_mem_replicate hc]
      decide
    · exact (forall_text (by decide) : NoLineEnd (str "b: x")) c hc

/-- The value is appended to that line, which does not start with the label. -/
theorem append_other : longerBlock.EndsFirst ∧ (∀ l ∈ longerBlock.fields, longLabel.starts l = false) ∧
    ¬ LineEdit.append.Touches longerBlock longLabel valueB.text (apartStream longerBlock) := by
  have hheld : longLabel.held = longLabel.name := by decide +kernel
  have hnot : longLabel.starts (longLabel.name ++ str "b: x") = false := by decide +kernel
  refine ⟨?_, ?_, ?_⟩
  · unfold HeaderBlock.EndsFirst
    decide +kernel
  · intro l hl
    rw [List.mem_singleton.mp hl]
    exact hnot
  · intro h
    refine (append_iff (apart_data _)).mp h ⟨by decide, by decide +kernel, [], _, [], rfl, ?_, ?_, hnot⟩
    · exact fun l hl => by cases hl
    · rw [hheld]
      decide +kernel

end WafProxy
