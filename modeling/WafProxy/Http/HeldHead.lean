import WafProxy.Http.RequestHead

/-
  A head in the output buffer — http_modify.c

  The four line edits and `_http_update_url` on a stream whose data are a head
  and lie in the output buffer. Each does to the bytes what the edit of the same
  name does to the head, returns the length of the new head or -1, writes
  nothing outside the buffer, and leaves the head as it is when it returns -1.

  What is proved:
    1. `HoldsHead.modify` — a cut and a replacement of the bytes is a change of
       the head, when they are cut where the heads differ.
    2. `RequestHead.endsFirst`, `RequestHead.label_behind_crlf`, `RequestHead.locate` —
       what the searches find in a head.
    3. `insert_does`, `update_does`, `append_does`, `remove_does`, `retarget_does` —
       one edit each.
-/

namespace WafProxy
open Lib

/-! ## The output buffer holds a head -/

/-- The stream's data are the head, in an output buffer of `max` bytes nothing was written beyond. -/
structure EditStream.HoldsHead (max : Nat) (h : RequestHead) (s : EditStream) : Prop where
  here : ∃ len, s.source = .here len
  data : s.data = h.text
  size : s.newData.size = max
  fits : h.text.length ≤ max
  kept : s.newData.Kept

/-- The edit does to the stream what was done to the head. -/
def Does (max : Nat) (done : Int × RequestHead) (result : Option (Int × EditStream)) : Prop :=
  ∃ s, result = some (done.1, s) ∧ s.HoldsHead max done.2

section
variable {max : Nat} {h : RequestHead} {s : EditStream}

theorem EditStream.modify_kept {len : Nat} (hhere : s.source = .here len) (hlen : len ≤ s.newData.size)
    (hkept : s.newData.Kept) {begin stop : Nat} {new : List Byte} {r : Int} {s' : EditStream}
    (h : s.finish (s.httpModifyStream begin stop new new.length) = some (r, s')) :
    s'.newData.size = s.newData.size ∧ s'.newData.Kept ∧ ∃ len', s'.source = .here len' := by
  obtain ⟨b, source⟩ := s
  obtain rfl : source = .here len := hhere
  have hdata : ({ newData := b, source := .here len } : EditStream).dataLen = len := rfl
  unfold httpModifyStream at h
  rw [hdata] at h
  split at h
  · cases h
    exact ⟨rfl, hkept, len, rfl⟩
  · split at h
    · cases h
      exact ⟨rfl, hkept, len, rfl⟩
    · split at h
      · cases h
      · next hguard hfit hstop =>
        dsimp only at hfit hlen
        have hmoved := @moves_kept b begin stop len new hkept (by omega) (by omega) hlen (by omega)
        rw [Int.toNat_natCast, List.take_length] at h
        unfold finish at h
        dsimp only at h
        split at h
        · cases h
          exact ⟨rfl, hmoved, _, rfl⟩
        · cases h
          exact ⟨rfl, hmoved, len, rfl⟩

/-- **An edit of the bytes is an edit of the head**, when they are cut where the new head differs. -/
theorem EditStream.HoldsHead.modify (hs : s.HoldsHead max h) {h' : RequestHead} {front old new back : List Byte}
    (hcut : h.text = front ++ old ++ back) (hnew : h'.text = front ++ new ++ back)
    (hpos : 0 < front.length + back.length) :
    Does max (h.settle max h')
      (s.finish (s.httpModifyStream front.length (front.length + old.length) new new.length)) := by
  obtain ⟨len, hhere⟩ := hs.here
  have hlen : len ≤ s.newData.size := by
    have hdata := s.data_length
    unfold EditStream.dataLen at hdata
    rw [hhere, hs.data] at hdata
    dsimp only at hdata
    rw [← hdata, hs.size]
    exact hs.fits
  have hlength : h'.text.length = front.length + new.length + back.length := by
    rw [hnew]
    simp only [List.length_append]
  obtain ⟨r, s', hrun, hor⟩ := s.modify_data (hs.data.trans hcut) new hpos
  obtain ⟨hsize, hkept, hhere'⟩ := EditStream.modify_kept hhere hlen hs.kept hrun
  rw [hs.size] at hor hsize
  unfold RequestHead.settle
  rcases hor with ⟨rfl, rfl, hlong⟩ | ⟨rfl, hfit, hdata⟩
  · rw [if_neg (by omega)]
    exact ⟨s', hrun, hs⟩
  · have hfits : h'.text.length ≤ max := by omega
    rw [if_pos hfits, hnew]
    exact ⟨s', hrun, hhere', hdata.trans hnew.symm, hsize, hfits, hkept⟩

/-! ## The places of an edit -/

/-- Behind a CRLF stands the next line. -/
theorem xMemcasestr_crlf_needle {needle u : List Byte} (hu : NoLineEnd u) (t : List Byte) :
    xMemcasestr (ch '\r' :: ch '\n' :: needle) (u ++ crlf ++ t) =
      if startsWithCase t needle then some u.length
      else (xMemcasestr (ch '\r' :: ch '\n' :: needle) t).map (· + (u.length + 2)) := by
  induction u with
  | nil =>
    have hcr : startsWithCase (ch '\r' :: ch '\n' :: t) (ch '\r' :: ch '\n' :: needle) =
      startsWithCase t needle := by
      simp [startsWithCase]
    have hlf : startsWithCase (ch '\n' :: t) (ch '\r' :: ch '\n' :: needle) = false := rfl
    show xMemcasestr _ (ch '\r' :: ch '\n' :: t) = _
    rw [xMemcasestr, hcr, xMemcasestr, hlf]
    by_cases hstart : startsWithCase t needle = true
    · rw [if_pos hstart, if_pos hstart]
      rfl
    · rw [if_neg hstart, if_neg hstart, if_neg (by decide), Option.map_map]
      rfl
  | cons c u ih =>
    have hc : startsWithCase (c :: (u ++ crlf ++ t)) (ch '\r' :: ch '\n' :: needle) = false := by
      have hcr : ¬ tolower c = tolower (ch '\r') := fun heq =>
        (hu c List.mem_cons_self).1 (tolower_cr c (heq.trans (by decide)))
      rw [startsWithCase, decide_eq_false hcr, Bool.false_and]
    show xMemcasestr _ (c :: (u ++ crlf ++ t)) = _
    rw [xMemcasestr, hc, if_neg (by decide), ih fun d hd => hu d (List.mem_cons_of_mem c hd)]
    by_cases hstart : startsWithCase t needle = true
    · rw [if_pos hstart, if_pos hstart]
      rfl
    · rw [if_neg hstart, if_neg hstart, Option.map_map]
      rfl

/-- The empty line is the first one, as no line of a head is empty. -/
theorem RequestHead.endsFirst (h : RequestHead) : h.block.EndsFirst := by
  have hstr : str "\r\n\r\n" = ch '\r' :: ch '\n' :: crlf := by decide
  have hlines : ∀ (fields : List (List Byte)), (∀ l ∈ fields, PlainLine l) → ∀ u : List Byte, NoLineEnd u →
      xMemcasestr (ch '\r' :: ch '\n' :: crlf) (u ++ crlf ++ (crlfLines fields ++ crlf)) =
        some ((u ++ crlf ++ (crlfLines fields ++ crlf)).length - 4) := by
    intro fields
    induction fields with
    | nil =>
      intro _ u hu
      rw [xMemcasestr_crlf_needle hu, if_pos (by rfl)]
      show some u.length = some ((u ++ crlf ++ crlf).length - 4)
      rw [List.length_append, List.length_append]
      rfl
    | cons l fields ih =>
      intro hfields u hu
      obtain ⟨⟨hl, hne⟩, hfields⟩ := List.forall_mem_cons.mp hfields
      have hlist : crlfLines (l :: fields) ++ crlf = l ++ crlf ++ (crlfLines fields ++ crlf) := by
        rw [crlfLines_cons, List.append_assoc]
      have hnot : startsWithCase (l ++ crlf ++ (crlfLines fields ++ crlf)) crlf = false := by
        obtain ⟨c, l, rfl⟩ := List.exists_cons_of_ne_nil hne
        have hcr : ¬ tolower c = tolower (ch '\r') := fun heq =>
          (hl c List.mem_cons_self).1 (tolower_cr c (heq.trans (by decide)))
        show (decide (tolower c = tolower (ch '\r')) && _) = false
        rw [decide_eq_false hcr, Bool.false_and]
      have hcrlf : crlf.length = 2 := rfl
      rw [xMemcasestr_crlf_needle hu, hlist, hnot, if_neg (by decide), ih hfields l hl, Option.map_some]
      simp only [List.length_append, Option.some.injEq]
      omega
  have htext : h.block.text = h.request ++ crlf ++ (crlfLines h.fields ++ crlf) := List.append_assoc _ _ crlf
  rw [HeaderBlock.EndsFirst, htext, hstr]
  exact hlines h.fields h.fields_line h.request h.request_line

/-- A line of the head starts with the label exactly if it stands behind some CRLF. -/
theorem RequestHead.label_behind_crlf (h : RequestHead) (label : HeaderLabel) :
    (xMemcasestr (ch '\r' :: ch '\n' :: label.text) h.text).isSome = h.fields.any label.starts := by
  have hlines : ∀ (fields : List (List Byte)), (∀ l ∈ fields, PlainLine l) → ∀ u : List Byte, NoLineEnd u →
      (xMemcasestr (ch '\r' :: ch '\n' :: label.text) (u ++ crlf ++ (crlfLines fields ++ crlf))).isSome =
        fields.any label.starts := by
    intro fields
    induction fields with
    | nil =>
      intro _ u hu
      have hend := startsWithCase_crlf label.text_line label.text_ne []
      rw [List.append_nil] at hend
      have hnone : xMemcasestr (ch '\r' :: ch '\n' :: label.text) crlf = none := by
        obtain ⟨c, needle, hlabel⟩ := List.exists_cons_of_ne_nil label.text_ne
        rw [hlabel]
        rfl
      rw [xMemcasestr_crlf_needle hu, crlfLines, joined, List.flatMap_nil, List.nil_append, hend,
        if_neg (by decide),
        hnone]
      rfl
    | cons l fields ih =>
      intro hfields u hu
      obtain ⟨⟨hl, -⟩, hfields⟩ := List.forall_mem_cons.mp hfields
      have hlist : crlfLines (l :: fields) ++ crlf = l ++ crlf ++ (crlfLines fields ++ crlf) := by
        rw [crlfLines_cons, List.append_assoc]
      rw [xMemcasestr_crlf_needle hu, hlist, startsWithCase_line label.text_line, List.any_cons,
        ← ih hfields l hl]
      show _ = (startsWithCase l label.text || _)
      cases startsWithCase l label.text with
      | true => rfl
      | false =>
        rw [if_neg (by decide), Option.isSome_map, Bool.false_or]
  have htext : h.text = h.request ++ crlf ++ (crlfLines h.fields ++ crlf) := List.append_assoc _ _ crlf
  rw [htext]
  exact hlines h.fields h.fields_line h.request h.request_line

/-- The search gives up when the label stands too often in front of the line. -/
theorem locateIn_late {label : HeaderLabel} {fields : List (List Byte)} : ∀ {place cnt : Nat},
    cnt ≤ labelCount label.text (crlfLines (label.ahead fields)) → locateIn label place cnt fields = none := by
  induction fields with
  | nil => exact fun _ => rfl
  | cons l fields ih =>
    intro place cnt hcnt
    rw [locateIn]
    by_cases hl : label.starts l = true
    · rw [if_pos hl, if_pos]
      simpa [HeaderLabel.ahead, hl, crlfLines, joined, labelCount] using hcnt
    · have hahead : label.ahead (l :: fields) = l :: label.ahead fields := by
        simp [HeaderLabel.ahead, hl]
      rw [hahead, crlfLines_cons, labelCount_line label.text_line label.text_ne] at hcnt
      rw [if_neg hl]
      exact ih (by omega)

/-- What stands around the first line that starts with the label. -/
theorem any_split {label : HeaderLabel} {fields : List (List Byte)} (h : fields.any label.starts = true) :
    ∃ line back, fields = label.ahead fields ++ line :: back ∧ (∀ l ∈ label.ahead fields, label.starts l = false) ∧
      label.starts line = true := by
  induction fields with
  | nil => cases h
  | cons l fields ih =>
    by_cases hl : label.starts l = true
    · have hahead : label.ahead (l :: fields) = [] := by simp [HeaderLabel.ahead, hl]
      rw [hahead]
      exact ⟨l, fields, rfl, fun a ha => (by cases ha), hl⟩
    · have hahead : label.ahead (l :: fields) = l :: label.ahead fields := by simp [HeaderLabel.ahead, hl]
      rw [List.any_cons, Bool.eq_false_iff.mpr hl, Bool.false_or] at h
      obtain ⟨line, back, heq, hfront, hline⟩ := ih h
      rw [hahead]
      refine ⟨line, back, congrArg (l :: ·) heq, ?_, hline⟩
      exact List.forall_mem_cons.mpr ⟨Bool.eq_false_iff.mpr hl, hfront⟩

/-- **What the search finds** is the value of the first line, when it gets there. -/
theorem RequestHead.locate (h : RequestHead) (label : HeaderLabel) :
    (¬ h.Reaches label ∧ httpLocateLineValue h.text label.text = none) ∨
      (h.Reaches label ∧ ∃ line back, h.fields = label.ahead h.fields ++ line :: back ∧
        (∀ l ∈ label.ahead h.fields, label.starts l = false) ∧ label.starts line = true ∧
        httpLocateLineValue h.text label.text =
          some ((h.block.before (label.ahead h.fields)).length + label.text.length,
            (h.block.before (label.ahead h.fields)).length + line.length)) := by
  have hblock := httpLocateLineValue_block h.block label
  rw [show httpLocateLineValue h.text label.text = httpLocateLineValue h.block.text label.text from rfl, hblock]
  by_cases hrequest : labelCount label.text h.request = 0
  · rw [if_pos (show labelCount label.text h.block.request = 0 from hrequest)]
    by_cases hany : h.fields.any label.starts = true
    · by_cases hfew : labelCount label.text (crlfLines (label.ahead h.fields)) < 128
      · obtain ⟨line, back, hfields, hfront, hline⟩ := any_split hany
        refine Or.inr ⟨⟨hrequest, hany, hfew⟩, line, back, hfields, hfront, hline, ?_⟩
        have hplain : ∀ l ∈ label.ahead h.fields, NoLineEnd l := fun l hl =>
          (h.fields_line l (List.takeWhile_subset _ hl)).1
        have hfound := @locateIn_first label (label.ahead h.fields) back line hplain hfront hline (h.block.place [])
          128 hfew
        rw [← hfields, ← h.block.place_eq] at hfound
        exact hfound
      · exact Or.inl ⟨fun hr => hfew hr.2.2, locateIn_late (Nat.not_lt.mp hfew)⟩
    · refine Or.inl ⟨fun hr => hany hr.2.1, locateIn_none ?_ _ _⟩
      intro l hl
      apply Bool.eq_false_iff.mpr
      intro hstart
      exact hany (List.any_eq_true.mpr ⟨l, hl, hstart⟩)
  · rw [if_neg (show ¬ labelCount label.text h.block.request = 0 from hrequest)]
    exact Or.inl ⟨fun hr => hrequest hr.1, rfl⟩

/-! ## The edits -/

theorem fieldValue_len (value : FieldValue) : toInt32 value.text.length = value.text.length :=
  toInt32_small (Int.natCast_nonneg _) (by
    have hshort := value.short
    unfold MAX_LINE_LEN at hshort
    omega)

theorem insert_does (hs : s.HoldsHead max h) {label : HeaderLabel} (hlabel : label.text.length < SLABEL_BUF - 1)
    (value : FieldValue) :
    Does max ((HeadEdit.insert label value).run max h) (s.httpInsertLine label.text value.text) := by
  have hshort := value.short
  have hcrlf : crlf.length = 2 := rfl
  have hstr : str "\r\n" = crlf := by decide
  unfold SLABEL_BUF at hlabel
  unfold MAX_LINE_LEN at hshort
  have hcut : h.text = h.block.before h.fields ++ [] ++ crlf := by
    rw [List.append_nil]
    rfl
  have hnew : ((HeadEdit.insert label value).result h).text =
      h.block.before h.fields ++ (label.text ++ value.text ++ crlf) ++ crlf := by
    have hline : crlfLines [label.text ++ value.text] = label.text ++ value.text ++ crlf := by
      simp [crlfLines, joined, crlf]
    show h.request ++ crlf ++ crlfLines (h.fields ++ [label.text ++ value.text]) ++ crlf = _
    rw [crlfLines_append, hline, HeaderBlock.before]
    simp only [List.append_assoc]
    rfl
  have hlen : h.text.length = (h.block.before h.fields).length + 2 := by
    rw [hcut, List.append_nil, List.length_append, hcrlf]
  have hfront : 2 ≤ (h.block.before h.fields).length := by
    rw [HeaderBlock.before]
    simp only [List.length_append]
    omega
  have hbegin : h.text.length - 4 + 2 = (h.block.before h.fields).length := by omega
  have hwhole : (label.text ++ value.text ++ crlf).take (LINE_BUF - 1) = label.text ++ value.text ++ crlf := by
    apply List.take_of_length_le
    simp only [List.length_append]
    unfold LINE_BUF
    omega
  have hunsigned : ¬ (LINE_BUF : Int) < toUnsigned (toInt32 value.text.length + label.text.length + 2) := by
    rw [fieldValue_len, toUnsigned]
    unfold LINE_BUF
    omega
  have hrun := hs.modify hcut hnew (by omega)
  rw [List.length_nil, Nat.add_zero] at hrun
  have hend := h.endsFirst
  rw [HeaderBlock.EndsFirst, show h.block.text = h.text from rfl] at hend
  unfold EditStream.httpInsertLine HeadEdit.run
  rw [if_pos (show (HeadEdit.insert label value).Applies h from trivial), hs.data, hend, hstr]
  dsimp only
  rw [if_neg hunsigned, hwhole, hbegin]
  exact hrun

/-- The lines after an edit of the first line that starts with the label. -/
theorem editLines_first {label : HeaderLabel} {f : List Byte → List (List Byte)} {line : List Byte}
    {back : List (List Byte)} (hfields : h.fields = label.ahead h.fields ++ line :: back)
    (hfront : ∀ l ∈ label.ahead h.fields, label.starts l = false) (hline : label.starts line = true) :
    editFirst label.starts f h.fields = label.ahead h.fields ++ f line ++ back := by
  have hedit := @editFirst_split _ label.starts f _ back line hfront hline
  rw [← hfields] at hedit
  exact hedit

/-- The bytes of the head around a line. -/
theorem RequestHead.text_around {label : HeaderLabel} {line : List Byte} {back : List (List Byte)}
    (hfields : h.fields = label.ahead h.fields ++ line :: back) :
    h.text = h.block.before (label.ahead h.fields) ++ line ++ (crlf ++ HeaderBlock.behind back) :=
  @HeaderBlock.text_split h.block _ back line hfields

theorem update_does (hs : s.HoldsHead max h) {label : HeaderLabel} (value : FieldValue) :
    Does max ((HeadEdit.update label value).run max h) (s.httpUpdateLine label.text value.text) := by
  have hshort := value.short
  unfold MAX_LINE_LEN at hshort
  have hunsigned : ¬ (LINE_BUF : Int) < toUnsigned (toInt32 value.text.length) := by
    rw [fieldValue_len, toUnsigned]
    unfold LINE_BUF
    omega
  have hwhole : value.text.take (LINE_BUF - 1) = value.text := List.take_of_length_le (by
    unfold LINE_BUF
    omega)
  have hsome : ¬ toInt32 value.text.length = 0 := by
    rw [fieldValue_len]
    have hpos := List.length_pos_iff.mpr value.ne
    omega
  unfold EditStream.httpUpdateLine HeadEdit.run
  rw [hs.data]
  rcases h.locate label with ⟨hnot, hnone⟩ | ⟨hreach, line, back, hfields, hfront, hline, hsome'⟩
  · rw [if_neg (show ¬ (HeadEdit.update label value).Applies h from hnot), hnone]
    exact ⟨s, rfl, hs⟩
  · obtain ⟨w, v, rfl, htake, hw⟩ := starts_cut hline
    have hcut : h.text = (h.block.before (label.ahead h.fields) ++ w) ++ v ++
      (crlf ++ HeaderBlock.behind back) := by
      rw [RequestHead.text_around hfields]
      simp only [List.append_assoc]
    have hnew : ((HeadEdit.update label value).result h).text =
        (h.block.before (label.ahead h.fields) ++ w) ++ value.text ++ (crlf ++ HeaderBlock.behind back) := by
      show h.request ++ crlf ++ crlfLines (editFirst label.starts _ h.fields) ++ crlf = _
      rw [editLines_first hfields hfront hline, ← htake, crlfLines_append, crlfLines_append, HeaderBlock.before,
        HeaderBlock.behind]
      have hone : crlfLines [w ++ value.text] = w ++ value.text ++ crlf := by simp [crlfLines, joined, crlf]
      rw [hone]
      simp only [List.append_assoc]
      rfl
    have hpos := HeaderBlock.behind_length back
    have hrun := hs.modify hcut hnew (by simp only [List.length_append]; omega)
    have hstop : (h.block.before (label.ahead h.fields)).length + (w ++ v).length =
        (h.block.before (label.ahead h.fields) ++ w).length + v.length := by
      simp only [List.length_append]
      omega
    rw [if_pos (show (HeadEdit.update label value).Applies h from hreach), hsome']
    dsimp only
    rw [if_neg hunsigned, if_neg hsome, hwhole, hstop, ← hw, ← List.length_append]
    exact hrun

theorem remove_does (hs : s.HoldsHead max h) (label : HeaderLabel) :
    Does max ((HeadEdit.remove label).run max h) (s.httpRemoveLine label.text) := by
  unfold EditStream.httpRemoveLine HeadEdit.run
  rw [hs.data]
  rcases h.locate label with ⟨hnot, hnone⟩ | ⟨hreach, line, back, hfields, hfront, hline, hsome⟩
  · have hlen : s.dataLen = h.text.length := by rw [← s.data_length, hs.data]
    rw [if_neg (show ¬ (HeadEdit.remove label).Applies h from hnot), hnone, hlen]
    exact ⟨s, rfl, hs⟩
  · have hcut : h.text = h.block.before (label.ahead h.fields) ++ (line ++ crlf) ++ HeaderBlock.behind back := by
      rw [RequestHead.text_around hfields]
      simp only [List.append_assoc]
    have hnew : ((HeadEdit.remove label).result h).text =
        h.block.before (label.ahead h.fields) ++ [] ++ HeaderBlock.behind back := by
      show h.request ++ crlf ++ crlfLines (editFirst label.starts _ h.fields) ++ crlf = _
      rw [editLines_first hfields hfront hline, crlfLines_append, List.append_nil, List.append_nil,
        HeaderBlock.before,
        HeaderBlock.behind]
      simp only [List.append_assoc]
      rfl
    have hpos := HeaderBlock.behind_length back
    have hrun := hs.modify hcut hnew (by omega)
    have hstop : (h.block.before (label.ahead h.fields)).length + line.length + 2 =
        (h.block.before (label.ahead h.fields)).length + (line ++ crlf).length := by
      rw [List.length_append, Nat.add_assoc]
      rfl
    rw [if_pos (show (HeadEdit.remove label).Applies h from hreach), hsome]
    dsimp only
    rw [Nat.add_sub_cancel, hstop]
    exact hrun

theorem append_does (hs : s.HoldsHead max h) {label : HeaderLabel} (hlabel : label.text.length < SLABEL_BUF - 1)
    (value : FieldValue) :
    Does max ((HeadEdit.append label value).run max h) (s.httpAppendLine label.text value.text) := by
  have hshort := value.short
  unfold MAX_LINE_LEN at hshort
  have hheld : label.held = label.text := List.take_of_length_le (Nat.le_pred_of_lt hlabel)
  have hunsigned : ¬ (VALUE_BUF : Int) < toUnsigned (toInt32 value.text.length) := by
    rw [fieldValue_len, toUnsigned]
    unfold VALUE_BUF
    omega
  have hwhole : value.text.take (VALUE_BUF - 1) = value.text := List.take_of_length_le (by
    unfold VALUE_BUF
    omega)
  unfold EditStream.httpAppendLine HeadEdit.run
  rw [slabel_eq, hheld, hs.data]
  dsimp only
  by_cases hany : h.fields.any label.starts = true
  · obtain ⟨line, back, hfields, hfront, hline⟩ := any_split hany
    obtain ⟨begin, hbuf⟩ := @httpLocateBuf_fields h.block label (label.ahead h.fields) back line hfields
      (by rw [hheld]; exact hfront) (by rw [hheld]; exact hline)
    rw [hheld] at hbuf
    have hcut : h.text = (h.block.before (label.ahead h.fields) ++ line) ++ [] ++
      (crlf ++ HeaderBlock.behind back) := by
      rw [RequestHead.text_around hfields, List.append_nil]
    have hnew : ((HeadEdit.append label value).result h).text =
        (h.block.before (label.ahead h.fields) ++ line) ++ value.text ++ (crlf ++ HeaderBlock.behind back) := by
      show h.request ++ crlf ++ crlfLines (editFirst label.starts _ h.fields) ++ crlf = _
      have hone : crlfLines [line ++ value.text] = line ++ value.text ++ crlf := by simp [crlfLines, joined, crlf]
      rw [editLines_first hfields hfront hline, crlfLines_append, crlfLines_append, hone, HeaderBlock.before,
        HeaderBlock.behind]
      simp only [List.append_assoc]
      rfl
    have hpos := HeaderBlock.behind_length back
    have hrun := hs.modify hcut hnew (by simp only [List.length_append]; omega)
    rw [List.length_nil, Nat.add_zero] at hrun
    rw [if_pos (show (HeadEdit.append label value).Applies h from hany), show h.text = h.block.text from rfl, hbuf]
    dsimp only
    rw [if_neg hunsigned, hwhole]
    exact hrun
  · have hnone : xMemcasestr (ch '\n' :: label.text) h.text = none := by
      have hnot : ∀ l ∈ h.fields, startsWithCase l label.text = false := by
        intro l hl
        apply Bool.eq_false_iff.mpr
        intro hstart
        exact hany (List.any_eq_true.mpr ⟨l, hl, hstart⟩)
      have hlines := @xMemcasestr_lf_none label.text label.text_line label.text_ne h.fields
        (fun l hl => (h.fields_line l hl).1) hnot h.request h.request_line
      rw [← List.append_assoc] at hlines
      exact hlines
    unfold httpLocateBuf
    rw [if_neg (show ¬ (HeadEdit.append label value).Applies h from hany), hnone]
    exact ⟨s, rfl, hs⟩

theorem retarget_does (hs : s.HoldsHead max h) (target : Target) :
    Does max ((HeadEdit.retarget target).run max h) (s.httpUpdateUrl target.text) := by
  have hint : toInt32 target.text.length = target.text.length :=
    toInt32_small (Int.natCast_nonneg _) (Int.ofNat_lt.mpr target.short)
  have hcr : ch '\r' ∉ h.target.text := fun hmem => (h.target.plain _ hmem).1 rfl
  have hcut : h.text = h.header.front ++ h.target.text ++ h.header.back := by
    rw [h.text_target, UrlHeader.text_split]
  have hnew : ((HeadEdit.retarget target).result h).text = h.header.front ++ target.text ++ h.header.back := by
    rw [RequestHead.text_target, UrlHeader.text_split]
    rfl
  have hfront : 0 < h.header.front.length := by
    rw [UrlHeader.front, List.length_append]
    exact Nat.succ_pos _
  have hrun := hs.modify hcut hnew (by omega)
  unfold EditStream.httpUpdateUrl HeadEdit.run
  rw [if_pos (show (HeadEdit.retarget target).Applies h from trivial), hs.data, h.text_target,
    h.header.httpCheckUrl_line h.target.ne hcr, hint]
  dsimp only
  rw [if_neg (by omega)]
  exact hrun

end

end WafProxy
