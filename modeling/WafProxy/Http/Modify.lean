import WafProxy.Http.Types
import WafProxy.Lib.Buffer

/-
  Header rewriting — http_modify.c

  `http_change_stream` copies the head of a packet to the output buffer, edits
  it there, and puts the body behind it. When the result does not fit it falls
  back to copying the packet, and the only length it looks at there is that of
  the header. After the first copy the stream's `data` is the output buffer, so
  a pointer into it is its offset; the packet lies elsewhere.

  What is proved:
    1. `modifyStream_spec` — one edit: the stretch between two offsets is
       replaced, or nothing is written.
    2. `updateUrl_spec`, `insertLine_spec`, `updateLine_spec` — the edits the
       function asks for, on the header as a list of bytes (`editHeader`).
    3. `httpChangeStream_bounded` — the function stays in the buffer and leaves
       the body alone exactly when the packet, the edited packet or not even the
       header fits, and no Host line is removed at the very end of the header.

  Correspondence (C ↔ Lean):
    `x_memcasestr`, `x_memrstr`             ↔ `xMemcasestr`, `xMemrstr`
    `http_modify_stream_t`                  ↔ `ModifyStream`
    `_http_modify_stream`                   ↔ `httpModifyStream`
    `_http_locate_line_value`               ↔ `httpLocateLineValue`
    `_http_insert_line`, `_http_update_line` ↔ `httpInsertLine`, `httpUpdateLine`
    `_http_check_url`, `_http_update_url`   ↔ `httpCheckUrl`, `httpUpdateUrl`
    `_http_replace_host`                    ↔ `httpReplaceHost`
    `http_change_stream`                    ↔ `httpChangeStream`

  A C string is the list of its bytes without the NUL. `none` is a `memmove` with
  a negative length.
-/

namespace WafProxy
open Lib

/-! ## Searching -/

/-- `x_memcasestr` for a needle that is not empty: the offset of the first match. -/
def xMemcasestr (needle : List Byte) : List Byte → Option Nat
  | [] => none
  | c :: text =>
    if startsWithCase (c :: text) needle then some 0 else (xMemcasestr needle text).map (· + 1)

/-- `x_memrstr`: the offset of the last match. -/
def xMemrstr (needle : List Byte) : List Byte → Option Nat
  | [] => none
  | c :: text =>
    match xMemrstr needle text with
    | some i => some (i + 1)
    | none => if needle.isPrefixOf (c :: text) then some 0 else none

/-- The loop of `_http_locate_line_value`, at most 128 turns. The inner loop's condition always
holds, so a label that does not stand at the beginning of a line is passed over. -/
def httpLocateLoop (data label : List Byte) : Nat → Nat → Option (Nat × Nat)
  | 0, _ => none
  | cnt + 1, start =>
    if data.length ≤ start then none
    else
      match xMemcasestr label (data.drop start) with
      | none => none
      | some i =>
        let begin := start + i
        match xMemrstr (str "\r\n") (data.take begin) with
        | none => none
        | some lastEnd =>
          if lastEnd + 2 < begin then httpLocateLoop data label cnt (begin + label.length)
          else (xMemcasestr (str "\r") (data.drop (begin + label.length))).map fun j =>
            (begin + label.length, begin + label.length + j)

/-- `_http_locate_line_value`: begin and end of the value. -/
def httpLocateLineValue (data label : List Byte) : Option (Nat × Nat) := httpLocateLoop data label 128 0

/-! ## The request line -/

def isBlank (data : List Byte) (i : Nat) : Bool := data[i]? = some (ch ' ')

/-- The four loops of `_http_check_url`, at most `n` turns each: past leading blanks, back over
trailing blanks, past the first blank, back to the last blank. -/
def trimFront (data : List Byte) (e : Nat) : Nat → Nat → Nat
  | 0, b => b
  | n + 1, b => if b < e ∧ isBlank data b then trimFront data e n (b + 1) else b

def trimBack (data : List Byte) (b : Nat) : Nat → Nat → Nat
  | 0, e => e
  | n + 1, e => if b < e ∧ isBlank data e then trimBack data b n (e - 1) else e

def pastBlank (data : List Byte) (e : Nat) : Nat → Nat → Nat
  | 0, b => b
  | n + 1, b => if b < e then if isBlank data b then b + 1 else pastBlank data e n (b + 1) else b

def backToBlank (data : List Byte) (b : Nat) : Nat → Nat → Nat
  | 0, e => e
  | n + 1, e => if b < e ∧ ¬ isBlank data e then backToBlank data b n (e - 1) else e

/-- `_http_check_url`: begin and end of the URL. -/
def httpCheckUrl (data : List Byte) : Option (Nat × Nat) :=
  match xMemcasestr (str "\r\n") data with
  | none => none
  | some line =>
    let b := trimFront data line line 0
    let e := trimBack data b line line
    if e ≤ b then none
    else
      let b := pastBlank data e e b
      let e := backToBlank data b e e
      if e ≤ b then none else some (b, e)

/-! ## Edits in the buffer -/

/-- `_http_modify_stream` on `new_data[0..data_len)`, `new` having at least `new_len` bytes: the
length it returns and the buffer. -/
def httpModifyStream (b : Buffer Byte) (dataLen begin stop : Nat) (new : List Byte) (newLen : Int) :
    Option (Int × Buffer Byte) :=
  if dataLen = 0 ∨ stop < begin ∨ newLen < 0 then some (-1, b)
  else if (b.size : Int) < (dataLen : Int) - ((stop : Int) - begin) + newLen then some (-1, b)
  else if dataLen < stop then none
  else
    let b1 := b.copy 0 (b.read 0 begin)
    let b2 := b1.copy (begin + newLen.toNat) (b1.read stop (dataLen - stop))
    let b3 := b2.copy begin (new.take newLen.toNat)
    some ((dataLen : Int) - ((stop : Int) - begin) + newLen, b3)

/-- `http_modify_stream_t` once `data` is `new_data`; `max_new_data_len` is the buffer's size. -/
structure ModifyStream where
  newData : Buffer Byte
  dataLen : Nat

/-- The bytes of `data[0..data_len)`. -/
def ModifyStream.data (s : ModifyStream) : List Byte := s.newData.read 0 s.dataLen

/-- What every edit does with the result of `_http_modify_stream`. -/
def ModifyStream.changed (s : ModifyStream) : Option (Int × Buffer Byte) → Option ModifyStream
  | none => none
  | some (newLen, b) => some { newData := b, dataLen := if 0 < newLen then newLen.toNat else s.dataLen }

/-- `sizeof(buf)` of the two line edits. -/
def LINE_BUF : Nat := 8192

/-- `(unsigned int)(n)` for an `int` expression. -/
def toUnsigned (n : Int) : Int := n % 2 ^ 32

/-- `_http_update_url`; `strlen` is converted to `int`. -/
def httpUpdateUrl (s : ModifyStream) (url : List Byte) : Option ModifyStream :=
  match httpCheckUrl s.data with
  | none => some s
  | some (begin, stop) =>
    if begin = 0 ∨ stop = 0 then some s
    else s.changed (httpModifyStream s.newData s.dataLen begin stop url (toInt32 url.length))

/-- `_http_insert_line`: a line in front of the empty one. -/
def httpInsertLine (s : ModifyStream) (label value : List Byte) : Option ModifyStream :=
  match xMemcasestr (str "\r\n\r\n") s.data with
  | none => some s
  | some i =>
    if (LINE_BUF : Int) < toUnsigned (toInt32 value.length + label.length + 2) then some s
    else
      let buf := (label ++ value ++ str "\r\n").take (LINE_BUF - 1)
      s.changed (httpModifyStream s.newData s.dataLen (i + 2) (i + 2) buf buf.length)

/-- `_http_update_line`: a new value, or the line removed with the two bytes behind its value. -/
def httpUpdateLine (s : ModifyStream) (label value : List Byte) : Option ModifyStream :=
  match httpLocateLineValue s.data label with
  | none => some s
  | some (begin, stop) =>
    if (LINE_BUF : Int) < toUnsigned (toInt32 value.length) then some s
    else
      let buf := value.take (LINE_BUF - 1)
      if toInt32 value.length = 0 then
        s.changed (httpModifyStream s.newData s.dataLen (begin - label.length) (stop + 2) buf buf.length)
      else s.changed (httpModifyStream s.newData s.dataLen begin stop buf buf.length)

def httpReplaceHost (s : ModifyStream) (info : Http) (host : List Byte) : Option ModifyStream :=
  if info.str.host.len = 0 then httpInsertLine s (str "Host:") host
  else httpUpdateLine s (str "Host:") host

/-- The fields of `http_header_modify_t` that `http_change_stream` reads. -/
structure HttpHeaderModify where
  url : Option (List Byte) := none
  urlLen : Int := 0
  host : Option (List Byte) := none
  hostLen : Int := 0

/-- An edit made only if its field is not NULL and has a positive length. -/
def ifGiven {σ : Type} (field : Option (List Byte)) (len : Int) (edit : List Byte → σ → Option σ) (s : σ) :
    Option σ :=
  match field with
  | some p => if 0 < len then edit p s else some s
  | none => some s

/-- The two edits; what they return is ignored. -/
def httpEdits (s : ModifyStream) (info : Http) (modify : HttpHeaderModify) : Option ModifyStream :=
  (ifGiven modify.url modify.urlLen (fun url s => httpUpdateUrl s url) s).bind fun s =>
    ifGiven modify.host modify.hostLen (fun host s => httpReplaceHost s info host) s

/-- The exit `out`, `len` being `stream.data_len`. -/
def changeStreamOut (newData : Buffer Byte) (len : Int) (data : List Byte) : Int × Buffer Byte :=
  if (newData.size : Int) < len then (-1, newData) else (data.length, newData.copy 0 data)

/-- `http_change_stream` on a packet, with the length of its header in `info`: the return value
and the output buffer, a buffer of `max` bytes. `junk` is `stream.data_len` before it is set. -/
def httpChangeStream (newData : Buffer Byte) (junk : Int) (data : List Byte) (info : Http)
    (modify : HttpHeaderModify) : Option (Int × Buffer Byte) :=
  if data = [] then some (changeStreamOut newData junk data)
  else
    let headLen := min info.httpInt.headerLen data.length
    if (newData.size : Int) < headLen then some (changeStreamOut newData headLen data)
    else if headLen < 0 then none
    else
      let stream : ModifyStream :=
        { newData := newData.copy 0 (data.take headLen.toNat), dataLen := headLen.toNat }
      (httpEdits stream info modify).map fun stream =>
        if (newData.size : Int) - stream.dataLen < data.length - headLen then
          changeStreamOut stream.newData stream.dataLen data
        else (stream.dataLen + data.length - headLen, stream.newData.copy stream.dataLen (data.drop headLen.toNat))

/-! ## The edits on a list of bytes -/

/-- The stretch from `begin` to `stop` replaced. -/
def splice (l : List Byte) (begin stop : Nat) (new : List Byte) : List Byte :=
  l.take begin ++ new ++ l.drop stop

/-- The same in at most `max` bytes: a longer result is given up; `none` when `stop` lies behind
the end. -/
def replaced (max : Nat) (l : List Byte) (begin stop : Nat) (new : List Byte) : Option (List Byte) :=
  if max + stop < l.length + begin + new.length then some l
  else if l.length < stop then none
  else some (splice l begin stop new)

def editUrl (max : Nat) (url l : List Byte) : Option (List Byte) :=
  match httpCheckUrl l with
  | none => some l
  | some (begin, stop) =>
    if begin = 0 ∨ stop = 0 ∨ toInt32 url.length < 0 then some l
    else replaced max l begin stop (url.take (toInt32 url.length).toNat)

def editInsert (max : Nat) (label value l : List Byte) : Option (List Byte) :=
  match xMemcasestr (str "\r\n\r\n") l with
  | none => some l
  | some i =>
    if (LINE_BUF : Int) < toUnsigned (toInt32 value.length + label.length + 2) then some l
    else replaced max l (i + 2) (i + 2) ((label ++ value ++ str "\r\n").take (LINE_BUF - 1))

def editLine (max : Nat) (label value l : List Byte) : Option (List Byte) :=
  match httpLocateLineValue l label with
  | none => some l
  | some (begin, stop) =>
    if (LINE_BUF : Int) < toUnsigned (toInt32 value.length) then some l
    else if toInt32 value.length = 0 then
      replaced max l (begin - label.length) (stop + 2) (value.take (LINE_BUF - 1))
    else replaced max l begin stop (value.take (LINE_BUF - 1))

def editHost (max : Nat) (info : Http) (host l : List Byte) : Option (List Byte) :=
  if info.str.host.len = 0 then editInsert max (str "Host:") host l else editLine max (str "Host:") host l

/-- The header with the edits a modification record asks for, in at most `max` bytes. -/
def editHeader (max : Nat) (info : Http) (modify : HttpHeaderModify) (l : List Byte) :
    Option (List Byte) :=
  (ifGiven modify.url modify.urlLen (editUrl max) l).bind fun l =>
    ifGiven modify.host modify.hostLen (editHost max info) l

/-! ## The buffer holds the edited header -/

/-- The stream's data are `l`, inside a buffer of `max` bytes nothing was written beyond. -/
structure ModifyStream.Holds (max : Nat) (s : ModifyStream) (l : List Byte) : Prop where
  data : s.data = l
  fits : s.dataLen ≤ max
  size : s.newData.size = max
  kept : s.newData.Kept

section
variable {max : Nat} {s : ModifyStream} {l : List Byte}

theorem ModifyStream.Holds.length (h : s.Holds max l) : l.length = s.dataLen := by
  rw [← h.data]
  exact Buffer.read_length _ _ _

/-- What the three moves write. -/
theorem moves_read (b : Buffer Byte) {begin stop len : Nat} (new : List Byte) (hle : begin ≤ stop)
    (hstop : stop ≤ len) :
    let b1 := b.copy 0 (b.read 0 begin)
    let b2 := b1.copy (begin + new.length) (b1.read stop (len - stop))
    (b2.copy begin new).read 0 (begin + new.length + (len - stop)) =
      splice (b.read 0 len) begin stop new := by
  intro b1 b2
  have hb1 : ∀ i n, b1.read i n = b.read i n := fun i n =>
    Buffer.read_congr fun j _ _ => Buffer.copy_self_cell b 0 begin j
  have hfront : (b2.copy begin new).read 0 begin = b.read 0 begin := by
    rw [Buffer.read_copy_before b2 new (by omega),
      Buffer.read_copy_before b1 _ (by omega), hb1]
  have htail : (b2.copy begin new).read (begin + new.length) (len - stop) = b.read stop (len - stop) := by
    rw [Buffer.read_copy_after b2 (Nat.le_refl _), ← hb1 stop]
    have hread := Buffer.read_copy b1 (begin + new.length) (b1.read stop (len - stop))
    rw [Buffer.read_length] at hread
    exact hread
  have hnew : (b2.copy begin new).read begin new.length = new := Buffer.read_copy b2 begin new
  rw [Buffer.read_append, Buffer.read_append, Nat.zero_add, hfront, Nat.zero_add, hnew, htail, splice,
    Buffer.read_take b 0 (Nat.le_trans hle hstop), Buffer.read_drop b 0 hstop, Nat.zero_add]

theorem moves_kept {b : Buffer Byte} {begin stop len : Nat} {new : List Byte} (hkept : b.Kept)
    (hle : begin ≤ stop) (hstop : stop ≤ len) (hlen : len ≤ b.size)
    (hfit : begin + new.length + (len - stop) ≤ b.size) :
    let b1 := b.copy 0 (b.read 0 begin)
    let b2 := b1.copy (begin + new.length) (b1.read stop (len - stop))
    (b2.copy begin new).Kept := by
  intro b1 b2
  have h1 : b1.Kept := hkept.copy (by rw [Buffer.read_length]; omega)
  have h2 : b2.Kept := h1.copy (by
    rw [Buffer.read_length]
    exact hfit)
  exact h2.copy (by
    show begin + new.length ≤ b.size
    omega)

/-- **One edit** replaces the stretch, or gives up, or moves a negative number of bytes. -/
theorem modifyStream_spec (h : s.Holds max l) {begin stop : Nat} {new : List Byte} {newLen : Int}
    (hpos : 0 < begin) (hle : begin ≤ stop) (hbegin : begin ≤ l.length) (hnew : 0 ≤ newLen)
    (hlen : newLen.toNat ≤ new.length) :
    Option.Rel (ModifyStream.Holds max)
      (s.changed (httpModifyStream s.newData s.dataLen begin stop new newLen))
      (replaced max l begin stop (new.take newLen.toNat)) := by
  have hdata : s.dataLen = l.length := h.length.symm
  have htake : (new.take newLen.toNat).length = newLen.toNat := List.length_take_of_le hlen
  have hguard : ¬ (s.dataLen = 0 ∨ stop < begin ∨ newLen < 0) := by omega
  unfold httpModifyStream replaced
  rw [if_neg hguard, htake, h.size]
  by_cases hlong : max + stop < l.length + begin + newLen.toNat
  · rw [if_pos hlong, if_pos (by omega)]
    exact .some ⟨h.data, h.fits, h.size, h.kept⟩
  · rw [if_neg hlong, if_neg (by omega), hdata]
    by_cases hstop : l.length < stop
    · rw [if_pos hstop, if_pos hstop]
      exact .none
    · rw [if_neg hstop, if_neg hstop]
      have hstop := Nat.not_lt.mp hstop
      have hr : (l.length : Int) - ((stop : Int) - begin) + newLen =
          ((begin + newLen.toNat + (l.length - stop) : Nat) : Int) := by omega
      have hread := moves_read s.newData (new.take newLen.toNat) hle hstop
      have hkept := @moves_kept s.newData begin stop l.length (new.take newLen.toNat) h.kept hle hstop (by
        rw [h.size, ← hdata]
        exact h.fits) (by
        rw [h.size, htake]
        omega)
      rw [htake] at hread hkept
      have hl : s.newData.read 0 l.length = l := by
        rw [← hdata]
        exact h.data
      rw [hl] at hread
      refine .some ⟨?_, ?_, h.size, hkept⟩
      · simp only [hr, Int.toNat_natCast]
        rw [if_pos (by omega)]
        exact hread
      · simp only [hr, Int.toNat_natCast]
        rw [if_pos (by omega)]
        omega

end

/-! ## Where the edits take place -/

theorem startsWithCase_length : ∀ {l needle : List Byte}, startsWithCase l needle = true →
    needle.length ≤ l.length
  | _, [], _ => Nat.zero_le _
  | [], _ :: _, h => by cases h
  | b :: l, c :: needle, h => by
    rw [startsWithCase, Bool.and_eq_true] at h
    exact Nat.succ_le_succ (startsWithCase_length h.2)

theorem xMemcasestr_le {needle : List Byte} : ∀ {text : List Byte} {i : Nat},
    xMemcasestr needle text = some i → i + needle.length ≤ text.length
  | [], _, h => by cases h
  | c :: text, i, h => by
    rw [xMemcasestr] at h
    split at h
    next hstart =>
      cases h
      rw [Nat.zero_add]
      exact startsWithCase_length hstart
    next =>
      obtain ⟨j, hj, rfl⟩ := Option.map_eq_some_iff.mp h
      have hle := xMemcasestr_le hj
      rw [List.length_cons]
      omega

theorem xMemrstr_le {needle : List Byte} : ∀ {text : List Byte} {i : Nat},
    xMemrstr needle text = some i → i + needle.length ≤ text.length
  | [], _, h => by cases h
  | c :: text, i, h => by
    rw [xMemrstr] at h
    split at h
    next j hj =>
      cases h
      have hle := xMemrstr_le hj
      rw [List.length_cons]
      omega
    next =>
      split at h
      next hprefix =>
        cases h
        rw [Nat.zero_add]
        exact (List.isPrefixOf_iff_prefix.mp hprefix).length_le
      next => cases h

/-- A value lies behind its label, the label behind a line end, and a CR stands at its end. -/
theorem httpLocateLineValue_bounds {data label : List Byte} {begin stop : Nat}
    (h : httpLocateLineValue data label = some (begin, stop)) :
    label.length + 2 ≤ begin ∧ begin ≤ stop ∧ stop < data.length := by
  have hloop : ∀ (cnt start : Nat), httpLocateLoop data label cnt start = some (begin, stop) →
      label.length + 2 ≤ begin ∧ begin ≤ stop ∧ stop < data.length := by
    intro cnt
    induction cnt with
    | zero =>
      intro start hrun
      cases hrun
    | succ cnt ih =>
      intro start hrun
      rw [httpLocateLoop] at hrun
      split at hrun
      · cases hrun
      · split at hrun
        · cases hrun
        next i hi =>
          simp only at hrun
          split at hrun
          · cases hrun
          next lastEnd hlast =>
            split at hrun
            · exact ih _ hrun
            next hline =>
              obtain ⟨j, hj, heq⟩ := Option.map_eq_some_iff.mp hrun
              obtain ⟨rfl, rfl⟩ := Prod.mk.inj heq
              have hend := xMemcasestr_le hj
              have hlast := xMemrstr_le hlast
              have hcr : (str "\r").length = 1 := rfl
              have hcrlf : (str "\r\n").length = 2 := rfl
              rw [List.length_drop] at hend
              rw [List.length_take] at hlast
              omega
  exact hloop 128 0 h

theorem trimBack_le (data : List Byte) (b : Nat) : ∀ (n e : Nat), trimBack data b n e ≤ e
  | 0, _ => Nat.le_refl _
  | n + 1, e => by
    rw [trimBack]
    split
    · exact Nat.le_trans (trimBack_le data b n (e - 1)) (Nat.sub_le _ _)
    · exact Nat.le_refl _

theorem backToBlank_le (data : List Byte) (b : Nat) : ∀ (n e : Nat), backToBlank data b n e ≤ e
  | 0, _ => Nat.le_refl _
  | n + 1, e => by
    rw [backToBlank]
    split
    · exact Nat.le_trans (backToBlank_le data b n (e - 1)) (Nat.sub_le _ _)
    · exact Nat.le_refl _

/-- The URL ends in front of the CR of its line. -/
theorem httpCheckUrl_bounds {data : List Byte} {begin stop : Nat}
    (h : httpCheckUrl data = some (begin, stop)) : begin < stop ∧ stop < data.length := by
  unfold httpCheckUrl at h
  split at h
  · cases h
  next line hline =>
    have hle := xMemcasestr_le hline
    have hcrlf : (str "\r\n").length = 2 := rfl
    simp only at h
    split at h
    · cases h
    · split at h
      · cases h
      next hlt =>
        cases h
        have h1 := backToBlank_le data
          (pastBlank data (trimBack data (trimFront data line line 0) line line)
            (trimBack data (trimFront data line line 0) line line) (trimFront data line line 0))
          (trimBack data (trimFront data line line 0) line line)
          (trimBack data (trimFront data line line 0) line line)
        have h2 := trimBack_le data (trimFront data line line 0) line line
        omega

theorem toInt32_toNat_le (n : Nat) : (toInt32 n).toNat ≤ n := by
  unfold toInt32 Int.bmod
  simp only
  split <;> omega

section
variable {max : Nat} {s : ModifyStream} {l : List Byte}

theorem updateUrl_spec (h : s.Holds max l) (url : List Byte) :
    Option.Rel (ModifyStream.Holds max) (httpUpdateUrl s url) (editUrl max url l) := by
  unfold httpUpdateUrl editUrl
  rw [h.data]
  split
  next => exact .some h
  next begin stop hurl =>
    obtain ⟨hlt, hstop⟩ := httpCheckUrl_bounds hurl
    by_cases hzero : begin = 0 ∨ stop = 0
    · rw [if_pos hzero, if_pos (by omega)]
      exact .some h
    · rw [if_neg hzero]
      by_cases hneg : toInt32 url.length < 0
      · -- `_http_modify_stream` refuses a negative length
        rw [if_pos (Or.inr (Or.inr hneg))]
        unfold httpModifyStream
        rw [if_pos (Or.inr (Or.inr hneg))]
        exact .some ⟨h.data, h.fits, h.size, h.kept⟩
      · rw [if_neg (by omega)]
        exact modifyStream_spec h (by omega) (Nat.le_of_lt hlt) (by omega) (by omega) (toInt32_toNat_le _)

/-- A replacement whose length is its own. -/
theorem modifyStream_whole (h : s.Holds max l) {begin stop : Nat} (buf : List Byte)
    (hpos : 0 < begin) (hle : begin ≤ stop) (hbegin : begin ≤ l.length) :
    Option.Rel (ModifyStream.Holds max)
      (s.changed (httpModifyStream s.newData s.dataLen begin stop buf buf.length))
      (replaced max l begin stop buf) := by
  have hspec := @modifyStream_spec max s l h begin stop buf buf.length hpos hle hbegin (by omega)
    (Nat.le_of_eq (Int.toNat_natCast _))
  rw [Int.toNat_natCast, List.take_length] at hspec
  exact hspec

theorem insertLine_spec (h : s.Holds max l) (label value : List Byte) :
    Option.Rel (ModifyStream.Holds max) (httpInsertLine s label value) (editInsert max label value l) := by
  unfold httpInsertLine editInsert
  rw [h.data]
  split
  next => exact .some h
  next i hi =>
    have hle := xMemcasestr_le hi
    have hend : (str "\r\n\r\n").length = 4 := rfl
    split
    · exact .some h
    · exact modifyStream_whole h _ (by omega) (Nat.le_refl _) (by omega)

theorem updateLine_spec (h : s.Holds max l) (label value : List Byte) :
    Option.Rel (ModifyStream.Holds max) (httpUpdateLine s label value) (editLine max label value l) := by
  unfold httpUpdateLine editLine
  rw [h.data]
  split
  next => exact .some h
  next begin stop hline =>
    obtain ⟨hlabel, hle, hstop⟩ := httpLocateLineValue_bounds hline
    split
    · exact .some h
    · split
      · exact modifyStream_whole h _ (by omega) (by omega) (by omega)
      · exact modifyStream_whole h _ (by omega) hle (by omega)

theorem replaceHost_spec (h : s.Holds max l) (info : Http) (host : List Byte) :
    Option.Rel (ModifyStream.Holds max) (httpReplaceHost s info host) (editHost max info host l) := by
  unfold httpReplaceHost editHost
  split
  · exact insertLine_spec h _ host
  · exact updateLine_spec h _ host

theorem rel_bind {α β γ δ : Type} {r : α → β → Prop} {q : γ → δ → Prop} {o : Option α} {o' : Option β}
    {f : α → Option γ} {g : β → Option δ} (h : Option.Rel r o o')
    (hf : ∀ a b, r a b → Option.Rel q (f a) (g b)) : Option.Rel q (o.bind f) (o'.bind g) := by
  cases h with
  | some hab => exact hf _ _ hab
  | none => exact .none

theorem ifGiven_spec (h : s.Holds max l) (field : Option (List Byte)) (len : Int)
    {edit : List Byte → ModifyStream → Option ModifyStream} {edit' : List Byte → List Byte → Option (List Byte)}
    (hedit : ∀ p, Option.Rel (ModifyStream.Holds max) (edit p s) (edit' p l)) :
    Option.Rel (ModifyStream.Holds max) (ifGiven field len edit s) (ifGiven field len edit' l) := by
  unfold ifGiven
  split
  · split
    · exact hedit _
    · exact .some h
  · exact .some h

/-- **The buffer holds the header with its edits.** -/
theorem httpEdits_spec (h : s.Holds max l) (info : Http) (modify : HttpHeaderModify) :
    Option.Rel (ModifyStream.Holds max) (httpEdits s info modify) (editHeader max info modify l) := by
  unfold httpEdits editHeader
  apply rel_bind
  · exact ifGiven_spec h _ _ fun url => updateUrl_spec h url
  · intro s' l' h'
    exact ifGiven_spec h' _ _ fun host => replaceHost_spec h' info host

end

/-! ## The whole function -/

/-- `head_len` after the comparison with `data_len`. -/
def headLen (info : Http) (data : List Byte) : Nat := min info.httpInt.headerLen.toNat data.length

/-- The function returned -1 or a length that fits; nothing was written beyond the buffer; and the
output is a header, edited or not, with the body behind it. -/
structure ChangeOk (info : Http) (modify : HttpHeaderModify) (data : List Byte) (r : Int)
    (b : Buffer Byte) : Prop where
  kept : b.Kept
  returned : r = -1 ∨ 0 ≤ r ∧ r ≤ b.size
  output : 0 ≤ r → ∃ header, b.read 0 r.toNat = header ++ data.drop (headLen info data) ∧
    (header = data.take (headLen info data) ∨
      editHeader b.size info modify (data.take (headLen info data)) = some header)

/-- When the function keeps to its buffer: the header does not fit, or it can be edited and the
packet fits, edited or not. -/
def ChangeFits (max : Nat) (info : Http) (modify : HttpHeaderModify) (data : List Byte) : Prop :=
  max < headLen info data ∨
    ∃ header, editHeader max info modify (data.take (headLen info data)) = some header ∧
      (data.length ≤ max ∨ header.length + (data.length - headLen info data) ≤ max)

theorem editHeader_nil (max : Nat) (info : Http) (modify : HttpHeaderModify) :
    editHeader max info modify [] = some [] := by
  have hurl : ∀ url, editUrl max url [] = some [] := fun _ => rfl
  have hhost : ∀ host, editHost max info host [] = some [] := fun host => by
    unfold editHost
    split <;> rfl
  have hgiven : ∀ (field : Option (List Byte)) (len : Int) (edit : List Byte → List Byte → Option (List Byte)),
      (∀ p, edit p [] = some []) → ifGiven field len edit [] = some [] := by
    intro field len edit hedit
    unfold ifGiven
    split
    · split
      · exact hedit _
      · rfl
    · rfl
  unfold editHeader
  rw [hgiven _ _ _ hurl, Option.bind_some, hgiven _ _ _ hhost]

theorem refused_ok {info : Http} {modify : HttpHeaderModify} {data : List Byte} {b : Buffer Byte}
    (h : b.Kept) : ChangeOk info modify data (-1) b :=
  ⟨h, Or.inl rfl, fun hneg => absurd hneg (by decide)⟩

/-- The exit that copies the packet: nothing looks at the packet's length. -/
theorem changeStreamOut_ok {info : Http} {modify : HttpHeaderModify} {data : List Byte} {b : Buffer Byte}
    {len : Int} (hkept : b.Kept) (hdata : data ≠ []) (hlen : len ≤ b.size) :
    ChangeOk info modify data (changeStreamOut b len data).1 (changeStreamOut b len data).2 ↔
      data.length ≤ b.size := by
  unfold changeStreamOut
  rw [if_neg (by omega)]
  constructor
  · intro h
    have hin := ((Buffer.kept_copy_iff hdata).mp h.kept).2
    omega
  · intro h
    refine ⟨hkept.copy (by omega), Or.inr ⟨Int.natCast_nonneg _, Int.ofNat_le.mpr h⟩, fun _ => ?_⟩
    refine ⟨data.take (headLen info data), ?_, Or.inl rfl⟩
    rw [Int.toNat_natCast, List.take_append_drop]
    exact Buffer.read_copy b 0 data

/-- The header is in the buffer. -/
theorem holds_header {info : Http} {data : List Byte} {b : Buffer Byte} (hkept : b.Kept)
    (hfits : headLen info data ≤ b.size) :
    ModifyStream.Holds b.size ⟨b.copy 0 (data.take (headLen info data)), headLen info data⟩
      (data.take (headLen info data)) := by
  have htake : (data.take (headLen info data)).length = headLen info data :=
    List.length_take_of_le (Nat.min_le_right _ _)
  refine ⟨?_, hfits, rfl, hkept.copy (by omega)⟩
  have hread := Buffer.read_copy b 0 (data.take (headLen info data))
  rw [htake] at hread
  exact hread

/-- The exit that appends the body to the edited header. -/
theorem appendBody_ok {max : Nat} {info : Http} {modify : HttpHeaderModify} {data header : List Byte}
    {s : ModifyStream} (hs : s.Holds max header)
    (hheader : editHeader max info modify (data.take (headLen info data)) = some header)
    (hroom : header.length + (data.length - headLen info data) ≤ max) :
    ChangeOk info modify data ((s.dataLen : Int) + data.length - headLen info data)
      (s.newData.copy s.dataLen (data.drop (headLen info data))) := by
  have hle : headLen info data ≤ data.length := Nat.min_le_right _ _
  have hdrop : (data.drop (headLen info data)).length = data.length - headLen info data :=
    List.length_drop
  have hr : (s.dataLen : Int) + data.length - headLen info data =
      ((s.dataLen + (data.drop (headLen info data)).length : Nat) : Int) := by
    omega
  have hin : s.dataLen + (data.drop (headLen info data)).length ≤ s.newData.size := by
    rw [← hs.length, hs.size]
    omega
  have hfront := Buffer.read_copy_before s.newData (data.drop (headLen info data))
    (Nat.le_of_eq (Nat.zero_add s.dataLen))
  rw [hr]
  refine ⟨hs.kept.copy hin, Or.inr ⟨Int.natCast_nonneg _, Int.ofNat_le.mpr hin⟩, fun _ => ?_⟩
  refine ⟨header, ?_, Or.inr ?_⟩
  · rw [Int.toNat_natCast, Buffer.read_append, Nat.zero_add, hfront, Buffer.read_copy]
    exact congrArg (· ++ _) hs.data
  · rw [Buffer.copy_size, hs.size]
    exact hheader

/-- **`http_change_stream` keeps to its buffer and leaves the body alone exactly when the header
does not fit, or can be edited and the packet or the edited packet fits.** -/
theorem httpChangeStream_bounded (heap : Nat → Byte) (junk : Int) (max : Nat) (data : List Byte)
    (info : Http) (modify : HttpHeaderModify) (hhead : 0 ≤ info.httpInt.headerLen) :
    (∃ r b, httpChangeStream { size := max, cell := heap } junk data info modify = some (r, b) ∧
      b.size = max ∧ ChangeOk info modify data r b) ↔ ChangeFits max info modify data := by
  have hhl : min info.httpInt.headerLen data.length = (headLen info data : Int) := by
    unfold headLen
    omega
  unfold httpChangeStream ChangeFits
  generalize hnd : ({ size := max, cell := heap } : Buffer Byte) = newData
  have hsize : newData.size = max := by rw [← hnd]
  have hkept0 : newData.Kept := by
    rw [← hnd]
    exact Nat.zero_le max
  -- no packet is copied as it is, then a header that does not fit, then the edits
  by_cases hempty : data = []
  · subst hempty
    have hzero : headLen info [] = 0 := Nat.min_zero _
    rw [if_pos rfl, hzero]
    refine iff_of_true ?_ (Or.inr ⟨[], editHeader_nil _ _ _, Or.inl (Nat.zero_le _)⟩)
    unfold changeStreamOut
    split
    · exact ⟨-1, newData, rfl, hsize, refused_ok hkept0⟩
    · refine ⟨0, newData.copy 0 [], rfl, hsize, hkept0, Or.inr ⟨Int.le_refl 0, Int.natCast_nonneg _⟩, ?_⟩
      intro _
      exact ⟨[], List.drop_nil.symm, Or.inl List.take_nil.symm⟩
  · rw [if_neg hempty, hhl]
    simp only [hsize]
    by_cases hlarge : max < headLen info data
    · rw [if_pos (Int.ofNat_lt.mpr hlarge)]
      refine iff_of_true ⟨-1, newData, ?_, hsize, refused_ok hkept0⟩ (Or.inl hlarge)
      rw [changeStreamOut, if_pos (by omega)]
    · rw [if_neg (by omega), if_neg (by omega), Int.toNat_natCast]
      -- the header is in the buffer, and then its edited form
      have hstart := holds_header hkept0 (hsize ▸ Nat.not_lt.mp hlarge : headLen info data ≤ newData.size)
      rw [hsize] at hstart
      have hedits := httpEdits_spec hstart info modify
      generalize hrun : httpEdits _ info modify = run at hedits
      generalize hheader : editHeader max info modify (data.take (headLen info data)) = edited at hedits
      cases hedits with
      | none =>
        refine iff_of_false ?_ ?_
        · intro h
          obtain ⟨r, b, heq, -⟩ := h
          cases heq
        · intro h
          rcases h with h | h
          · exact hlarge h
          · obtain ⟨header, heq, -⟩ := h
            cases heq
      | @some s header hs =>
        have hfit : s.dataLen ≤ s.newData.size := hs.size ▸ hs.fits
        rw [Option.map_some]
        by_cases hroom : header.length + (data.length - headLen info data) ≤ max
        · rw [if_neg (by rw [← hs.length]; omega)]
          exact iff_of_true ⟨_, _, rfl, hs.size, appendBody_ok hs hheader hroom⟩
            (Or.inr ⟨header, rfl, Or.inr hroom⟩)
        · rw [if_pos (by rw [← hs.length]; omega)]
          have hout := @changeStreamOut_ok info modify data s.newData s.dataLen hs.kept hempty
            (Int.ofNat_le.mpr hfit)
          rw [hs.size] at hout
          have hsizes : (changeStreamOut s.newData s.dataLen data).2.size = max := by
            unfold changeStreamOut
            split <;> exact hs.size
          constructor
          · intro h
            obtain ⟨r, b, heq, -, hok⟩ := h
            have hpair := Option.some.inj heq
            rw [hpair] at hout
            exact Or.inr ⟨header, rfl, Or.inl (hout.mp hok)⟩
          · intro h
            rcases h with h | h
            · exact absurd h hlarge
            · obtain ⟨header', heq, hfits⟩ := h
              cases heq
              have hpacket : data.length ≤ max := hfits.resolve_right hroom
              exact ⟨_, _, rfl, hsizes, hout.mpr hpacket⟩

/-- The header of the two requests below. -/
def headOf (method : String) : List Byte := str method ++ str " / HTTP/1.1\r\n\r\n"

theorem httpChangeStream_bounded_url :
    (0 : Int) ≤ (18 : Int) ∧ ∃ r b, httpChangeStream { size := 32, cell := fun _ => 0 } 0
        (headOf "GET" ++ str "body") { httpInt := { headerLen := 18 } } { url := some (str "/new"), urlLen := 4 } =
        some (r, b) ∧
      b.size = 32 ∧ ChangeOk { httpInt := { headerLen := 18 } } { url := some (str "/new"), urlLen := 4 }
        (headOf "GET" ++ str "body") r b := by
  refine ⟨by decide, ?_⟩
  exact (httpChangeStream_bounded (fun _ => 0) 0 32 (headOf "GET" ++ str "body")
    { httpInt := { headerLen := 18 } } { url := some (str "/new"), urlLen := 4 } (by decide)).mpr
    (Or.inr ⟨str "GET /new HTTP/1.1\r\n\r\n", by decide +kernel, Or.inl (by decide +kernel)⟩)

/-- A packet of 27 bytes and a buffer of 20: all 27 are written. -/
theorem packet_overruns : ∃ b, httpChangeStream { size := 20, cell := fun _ => 0 } 0
      (headOf "POST" ++ str "abcdefgh") { httpInt := { headerLen := 19 } } {} = some (27, b) ∧
    b.size = 20 ∧ b.reach = 27 ∧
    ¬ ChangeOk { httpInt := { headerLen := 19 } } {} (headOf "POST" ++ str "abcdefgh") 27 b := by
  refine ⟨_, rfl, rfl, by decide +kernel, fun h => ?_⟩
  have hkept := h.kept
  revert hkept
  decide +kernel

end WafProxy
