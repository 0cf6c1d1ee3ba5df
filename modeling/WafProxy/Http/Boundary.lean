import Mathlib.Data.List.TakeWhile
import WafProxy.Http.Form
import WafProxy.Http.StoredText
import WafProxy.Lib.Window

/-
  Where a part ends — http_form.c, and `get_post_boundary` of http_header.c

  Behind `boundary_cnt` dashes `http_wait_label_str` caches as many bytes as the
  label has behind its own dashes and compares them once. That is the window
  reader of `Lib.WindowReader`, with `-` for the mark and `boundary_cnt` for `k`.

  What is proved:
    1. `formLabel_reads` — the dash counter, the label state and `cache_buf` are a
       window reader, byte by byte; a label is met when the window that closes
       holds the label's rest.
    2. `forms_run` — what a part's bytes do, in as many calls as they come in.
    3. `part_ends_iff` — a part ends with the last byte of its delimiter and with
       no earlier one exactly when no window is open at the delimiter's
       `boundary_cnt`-th dash, none in front of it held the label's rest, and the
       rest has no run of `boundary_cnt` dashes itself.

  Correspondence (C ↔ Lean):
    `label`                              ↔ `labelOf` of the boundary
    `boundary_cnt`                       ↔ `dashCount` of the boundary
    `label + boundary_cnt`               ↔ `labelRest`
    several calls of `http_parse_form`   ↔ `parseForms`
-/

namespace WafProxy
open Lib

/-! ## Labels -/

/-- `--B`, as far as `label` has room for it. -/
def labelOf (boundary : List Byte) : List Byte := (str "--" ++ boundary).take 255

/-- The number of dashes `--B` begins with. -/
def dashCount (boundary : List Byte) : Nat := (boundary.takeWhile (· = ch '-')).length + 2

/-- What `http_wait_label_str` compares. -/
def labelRest (boundary : List Byte) : List Byte := (labelOf boundary).drop (dashCount boundary)

/-- The reader of the label of a boundary. -/
abbrev labelStep (boundary : List Byte) (c : Byte) (s : WindowReader Byte) :
    Option (List Byte) × WindowReader Byte :=
  WindowReader.step (ch '-') (dashCount boundary) (labelRest boundary).length c s

/-- The reader behind a text. -/
abbrev labelAfter (boundary : List Byte) (text : List Byte) (s : WindowReader Byte) :
    WindowReader Byte :=
  WindowReader.after (ch '-') (dashCount boundary) (labelRest boundary).length text s

/-- The stretches of a text that are compared with the label's rest. -/
abbrev windows (boundary : List Byte) (text : List Byte) (s : WindowReader Byte) :
    List (List Byte) :=
  WindowReader.closed (ch '-') (dashCount boundary) (labelRest boundary).length text s

theorem windows_append (boundary a b : List Byte) (s : WindowReader Byte) :
    windows boundary (a ++ b) s =
      windows boundary a s ++ windows boundary b (labelAfter boundary a s) :=
  WindowReader.closed_append s

theorem labelAfter_append (boundary a b : List Byte) (s : WindowReader Byte) :
    labelAfter boundary (a ++ b) s = labelAfter boundary b (labelAfter boundary a s) :=
  WindowReader.after_append

theorem dashCount_pos (boundary : List Byte) : 0 < dashCount boundary := Nat.succ_pos _

theorem dashes_split (boundary : List Byte) : str "--" ++ boundary =
    List.replicate (dashCount boundary) (ch '-') ++ boundary.dropWhile (· = ch '-') := by
  have hdashes : boundary.takeWhile (· = ch '-') =
      List.replicate (boundary.takeWhile (· = ch '-')).length (ch '-') := by
    refine List.eq_replicate_of_mem fun c hc => ?_
    simpa using List.all_eq_true.mp List.all_takeWhile c hc
  calc str "--" ++ boundary
      = str "--" ++ (boundary.takeWhile (· = ch '-') ++ boundary.dropWhile (· = ch '-')) := by
        rw [List.takeWhile_append_dropWhile]
    _ = (List.replicate 2 (ch '-') ++ boundary.takeWhile (· = ch '-')) ++
          boundary.dropWhile (· = ch '-') := (List.append_assoc _ _ _).symm
    _ = List.replicate (dashCount boundary) (ch '-') ++ boundary.dropWhile (· = ch '-') := by
        rw [hdashes, List.replicate_append_replicate, Nat.add_comm]
        rfl

/-- Behind its dashes a label goes on with another byte. -/
theorem labelRest_eq (boundary : List Byte) :
    labelRest boundary = (boundary.dropWhile (· = ch '-')).take (255 - dashCount boundary) := by
  unfold labelRest labelOf
  rw [dashes_split, List.drop_take, List.drop_left' (List.length_replicate)]

theorem labelRest_head (boundary : List Byte) : (labelRest boundary).head? ≠ some (ch '-') := by
  intro h
  rw [labelRest_eq] at h
  have hdrop := List.head?_dropWhile_not (· = ch '-') boundary
  cases hrest : boundary.dropWhile (· = ch '-') with
  | nil =>
    rw [hrest, List.take_nil] at h
    cases h
  | cons c rest =>
    rw [hrest] at h hdrop
    cases hroom : 255 - dashCount boundary with
    | zero =>
      rw [hroom] at h
      cases h
    | succ m =>
      rw [hroom] at h
      obtain rfl : c = ch '-' := Option.some.inj h
      simp at hdrop

theorem labelRest_length (boundary : List Byte) : (labelRest boundary).length ≤ 253 := by
  rw [labelRest_eq, List.length_take]
  have h : 2 ≤ dashCount boundary := Nat.le_add_left 2 _
  omega

/-- A label that has a rest is its dashes and that rest. -/
theorem labelOf_eq {boundary : List Byte} (h : labelRest boundary ≠ []) :
    labelOf boundary = List.replicate (dashCount boundary) (ch '-') ++ labelRest boundary := by
  have hlt : dashCount boundary < 255 := by
    by_contra hge
    refine h ?_
    rw [labelRest_eq, Nat.sub_eq_zero_of_le (by omega), List.take_zero]
  unfold labelOf
  rw [dashes_split, labelRest_eq]
  calc (List.replicate (dashCount boundary) (ch '-') ++ boundary.dropWhile (· = ch '-')).take 255
      = (List.replicate (dashCount boundary) (ch '-') ++ boundary.dropWhile (· = ch '-')).take
          ((List.replicate (dashCount boundary) (ch '-')).length + (255 - dashCount boundary)) := by
        rw [List.length_replicate]
        congr 1
        omega
    _ = _ := List.take_length_add_append _

theorem labelOf_length {boundary : List Byte} (h : labelRest boundary ≠ []) :
    (labelOf boundary).length = dashCount boundary + (labelRest boundary).length := by
  rw [labelOf_eq h, List.length_append, List.length_replicate]

/-! ## The boundary of the head -/

theorem countDashes_run {m : Memory Byte} : ∀ (l : List Byte) (begin : Int),
    (Access.slice begin l.length).run m = some l →
    (countDashes l.length begin).run m = some (l.takeWhile (· = ch '-')).length := by
  intro l
  induction l with
  | nil => exact fun _ _ => rfl
  | cons c l ih =>
    intro begin h
    obtain ⟨b, hread, h⟩ := Option.bind_eq_some_iff.mp h
    obtain ⟨l', hslice, h⟩ := Option.bind_eq_some_iff.mp h
    obtain ⟨rfl, rfl⟩ := List.cons.inj (Option.some.inj h)
    show (Access.read begin >>= _ : Packet.Read Nat).run m = _
    rw [Access.run_bind, hread, Option.bind_some]
    by_cases hc : b = ch '-'
    · subst hc
      rw [if_neg (not_not.mpr rfl), Access.run_bind, ih _ hslice]
      simp
    · rw [if_pos hc]
      simp [hc]

/-- **`get_post_boundary` stores the boundary and counts its dashes**, when nothing in the
line asks for decoding and no boundary has been counted before. -/
theorem getPostBoundary_stores {m : Memory Byte} {begin stop : Int} {info : Http} {boundary : List Byte}
    (hslice : (Access.slice begin boundary.length).run m = some boundary)
    (hlen : stop - begin = boundary.length) (hne : boundary ≠ []) (hnul : 0 ∉ boundary)
    (hplain : info.tmpFlag.needDecode = false) (hzero : info.loc.boundaryCnt = 0) :
    ∃ r, (getPostBoundary begin stop info).run m = some r ∧
      r.str.boundary.cString = some boundary ∧ r.loc.boundaryCnt = dashCount boundary := by
  have hpos := List.length_pos_iff.mpr hne
  have htext : XStr.ofText info.tmpFlag boundary = { p := some boundary, nul := boundary.length } := by
    unfold XStr.ofText
    rw [if_neg (by rw [hplain]; exact Bool.false_ne_true)]
    simp [List.set_eq_of_length_le]
  have hset : (httpSetStr info.tmpFlag info.str.boundary begin (stop - begin)).run m =
      some { p := some boundary, nul := boundary.length } := by
    unfold httpSetStr
    rw [hlen, if_neg (by omega), Access.run_bind, Int.toNat_natCast, hslice, Option.bind_some,
      Access.run_pure, htext]
  have hcount := countDashes_run boundary begin hslice
  have hrun : (getPostBoundary begin stop info).run m = some
      { info.withStr (fun s => { s with boundary := { p := some boundary, nul := boundary.length } }) with
        loc := { info.loc with
          boundaryCnt := info.loc.boundaryCnt + (boundary.takeWhile (· = ch '-')).length + 2 } } := by
    rw [← Int.toNat_natCast boundary.length, ← hlen] at hcount
    unfold getPostBoundary
    rw [Access.run_bind, hset, Option.bind_some, Access.run_bind, hcount]
    rfl
  refine ⟨_, hrun, ?_, ?_⟩
  · show XStr.cString { p := some boundary, nul := boundary.length } = some boundary
    unfold XStr.cString
    simp only [or_true, if_true]
    rw [List.takeWhile_eq_self_iff.mpr]
    intro c hc
    have hc0 : c ≠ 0 := by
      rintro rfl
      exact hnul hc
    simpa using hc0
  · show info.loc.boundaryCnt + _ + 2 = _
    rw [hzero, Nat.zero_add]
    rfl

/-! ## The label reader of `local_t` -/

/-- `local_t` holds the reader: the label state tells whether a window is open,
and `cache_buf` is the window. -/
structure Reads (loc : HttpLocal) (s : WindowReader Byte) : Prop where
  num : loc.myformLabelNum = s.marks
  idle : s.window = none → loc.cacheBuf = [] ∧
    loc.myformLabelState ≠ .begin ∧ loc.myformLabelState ≠ .run
  opened : ∀ w ∈ s.window, loc.cacheBuf = w ∧
    loc.myformLabelState = if loc.boundaryCnt ≤ s.marks then .begin else .run

/-- The reader of a boundary's label, as a part's bytes leave it. -/
abbrev LabelSound (boundary : List Byte) (s : WindowReader Byte) : Prop :=
  WindowReader.Sound (ch '-') (dashCount boundary) (labelRest boundary).length s

/-- Only the three fields of the reader differ. -/
structure ReaderOnly (loc loc' : HttpLocal) : Prop where
  eq : loc' = { loc with
    cacheBuf := loc'.cacheBuf
    myformLabelNum := loc'.myformLabelNum
    myformLabelState := loc'.myformLabelState }

section
variable {boundary : List Byte} {loc : HttpLocal} {s : WindowReader Byte} {c : Byte}

/-- One byte goes into the window; the one that fills it is followed by the comparison. -/
theorem httpWaitLabelStr_window (hne : labelRest boundary ≠ []) (hcnt : loc.boundaryCnt = dashCount boundary)
    (hroom : loc.cacheBuf.length < (labelRest boundary).length) :
    httpWaitLabelStr (labelOf boundary) c loc =
      if (loc.cacheBuf ++ [c]).length = (labelRest boundary).length then
        some (decide (loc.cacheBuf ++ [c] = labelRest boundary),
          { loc with cacheBuf := [], myformLabelState := .null })
      else some (false, { loc with cacheBuf := loc.cacheBuf ++ [c] }) := by
  have hlen := labelOf_length hne
  have hmax := labelRest_length boundary
  have hcache : cacheByte loc c = some { loc with cacheBuf := loc.cacheBuf ++ [c] } := by
    unfold cacheByte
    rw [if_pos (by omega)]
  unfold httpWaitLabelStr
  rw [hcache, Option.map_some]
  have hiff : (((loc.cacheBuf ++ [c]).length : Int) = (labelOf boundary).length - (loc.boundaryCnt : Int)) ↔
      (loc.cacheBuf ++ [c]).length = (labelRest boundary).length := by
    rw [hlen, hcnt]
    omega
  simp only [hiff]
  split
  · simp only [hcnt]
    rfl
  · rfl

/-- With no window open the byte is counted. -/
theorem formLabel_idle {d : Nat} (hcnt : loc.boundaryCnt = dashCount boundary)
    (hreads : Reads loc ⟨d, none⟩) :
    ∃ loc', formLabel (labelOf boundary) c loc = some (false, loc') ∧
      Reads loc' (labelStep boundary c ⟨d, none⟩).2 ∧ ReaderOnly loc loc' := by
  have hnum : loc.myformLabelNum = d := hreads.num
  obtain ⟨hcache, hbegin, hrun⟩ := hreads.idle rfl
  unfold formLabel countLabel labelStep WindowReader.step
  by_cases hc : c = ch '-'
  · subst hc
    simp only [if_true, WindowReader.count_mark, hnum, hcnt]
    by_cases hk : d + 1 = dashCount boundary
    · refine ⟨{ loc with myformLabelNum := d + 1, myformLabelState := .begin },
        by simp [hk, hcnt], ?_, ⟨rfl⟩⟩
      rw [if_pos hk]
      refine ⟨rfl, fun h => (by cases h), ?_⟩
      rintro w hw
      cases hw
      exact ⟨hcache, by simp [hk, hcnt]⟩
    · refine ⟨{ loc with myformLabelNum := d + 1 }, by simp [hk, hrun, hcnt], ?_, ⟨rfl⟩⟩
      simp only [hk, if_false]
      exact ⟨rfl, fun _ => ⟨hcache, hbegin, hrun⟩, fun w hw => by cases hw⟩
  · have hzero : (0 : Nat) ≠ dashCount boundary := Nat.ne_of_lt (dashCount_pos boundary)
    simp only [hc, if_false, WindowReader.count_other hc, hzero, hbegin, hrun, or_self]
    refine ⟨{ loc with myformLabelNum := 0, myformLabelState := .null }, by simp, ?_, ⟨rfl⟩⟩
    exact ⟨rfl, fun _ => ⟨hcache, by simp⟩, fun w hw => by cases hw⟩

/-- What is left when `c` goes into the window `w`, with `d` dashes counted. -/
def intoWindow (boundary w : List Byte) (c : Byte) (d : Nat) : Option (List Byte) × WindowReader Byte :=
  if (w ++ [c]).length = (labelRest boundary).length then (some (w ++ [c]), ⟨d, none⟩)
  else (none, ⟨d, some (w ++ [c])⟩)

theorem httpWaitLabelStr_reads {w : List Byte} {d : Nat} (hne : labelRest boundary ≠ [])
    (hcnt : loc.boundaryCnt = dashCount boundary) (hcache : loc.cacheBuf = w)
    (hroom : w.length < (labelRest boundary).length) (hd : d < dashCount boundary) :
    ∃ loc', httpWaitLabelStr (labelOf boundary) c
        { loc with myformLabelNum := d, myformLabelState := .run } =
          some (decide ((intoWindow boundary w c d).1 = some (labelRest boundary)), loc') ∧
      Reads loc' (intoWindow boundary w c d).2 ∧ ReaderOnly loc loc' := by
  rw [@httpWaitLabelStr_window boundary
    { loc with myformLabelNum := d, myformLabelState := .run } c hne hcnt (hcache ▸ hroom)]
  unfold intoWindow
  simp only [hcache]
  split
  · refine ⟨{ loc with cacheBuf := [], myformLabelNum := d, myformLabelState := .null },
      by simp, ?_, ⟨rfl⟩⟩
    exact ⟨rfl, fun _ => ⟨rfl, by simp⟩, fun w hw => by cases hw⟩
  · refine ⟨{ loc with cacheBuf := w ++ [c], myformLabelNum := d, myformLabelState := .run },
      by simp, ?_, ⟨rfl⟩⟩
    refine ⟨rfl, fun h => (by cases h), ?_⟩
    rintro w' hw'
    cases hw'
    exact ⟨rfl, by simp [hcnt, Nat.not_le.mpr hd]⟩

/-- An open window takes the byte, but for a dash from the `boundary_cnt`-th on. -/
theorem formLabel_open {d : Nat} {w : List Byte} (hne : labelRest boundary ≠ [])
    (hcnt : loc.boundaryCnt = dashCount boundary) (hreads : Reads loc ⟨d, some w⟩)
    (hroom : w.length < (labelRest boundary).length) :
    ∃ loc', formLabel (labelOf boundary) c loc =
        some (decide ((labelStep boundary c ⟨d, some w⟩).1 = some (labelRest boundary)), loc') ∧
      Reads loc' (labelStep boundary c ⟨d, some w⟩).2 ∧ ReaderOnly loc loc' := by
  have hnum : loc.myformLabelNum = d := hreads.num
  obtain ⟨hcache, hstate⟩ := hreads.opened w rfl
  rw [hcnt] at hstate
  unfold formLabel countLabel labelStep WindowReader.step
  by_cases hc : c = ch '-'
  · simp only [hc, if_true, WindowReader.count_mark, hnum, hcnt]
    by_cases hk : dashCount boundary ≤ d + 1
    · -- a run of boundary_cnt dashes: the window waits for the byte behind it
      have hbegin : (if d + 1 = dashCount boundary then LabelState.begin else loc.myformLabelState) =
          .begin := by
        split
        · rfl
        · rw [hstate, if_pos (by show dashCount boundary ≤ d; omega)]
      simp only [hbegin, hk, if_true]
      refine ⟨{ loc with myformLabelNum := d + 1, myformLabelState := .begin },
        by simp [hcnt], ?_, ⟨rfl⟩⟩
      refine ⟨rfl, fun h => (by cases h), ?_⟩
      rintro w' hw'
      cases hw'
      exact ⟨hcache, by simp [hcnt, hk]⟩
    · have hrun : (if d + 1 = dashCount boundary then LabelState.begin else loc.myformLabelState) =
          .run := by
        rw [if_neg (by omega), hstate, if_neg (by show ¬ dashCount boundary ≤ d; omega)]
      simp only [hrun, hk, if_true, if_false]
      have h := @httpWaitLabelStr_reads boundary loc (ch '-') w (d + 1) hne hcnt hcache hroom (by omega)
      simp only [hcnt] at h
      exact h
  · have hrun : (if loc.myformLabelState = .begin ∨ loc.myformLabelState = .run then LabelState.run
        else .null) = .run := by
      rw [if_pos]
      rw [hstate]
      split
      · exact Or.inl rfl
      · exact Or.inr rfl
    have hzero : ¬ dashCount boundary ≤ 0 := Nat.not_le.mpr (dashCount_pos boundary)
    simp only [hc, if_false, WindowReader.count_other hc, hzero, hrun, if_true]
    exact httpWaitLabelStr_reads hne hcnt hcache hroom (dashCount_pos boundary)

/-- **The label reader is a window reader.** -/
theorem formLabel_reads (hne : labelRest boundary ≠ []) (hcnt : loc.boundaryCnt = dashCount boundary)
    (hreads : Reads loc s) (hsound : LabelSound boundary s) :
    ∃ loc', formLabel (labelOf boundary) c loc =
        some (decide ((labelStep boundary c s).1 = some (labelRest boundary)), loc') ∧
      Reads loc' (labelStep boundary c s).2 ∧ ReaderOnly loc loc' := by
  rcases s with ⟨d, _ | w⟩
  · exact formLabel_idle hcnt hreads
  · have hpos := List.length_pos_iff.mpr hne
    exact formLabel_open hne hcnt hreads ((hsound.room w rfl).resolve_right (by omega))

end

/-! ## The bytes of a part -/

/-- A part is being read: `local_t` holds the reader, and there is an item for what it stores. -/
structure InBody (boundary : List Byte) (info : Http) (s : WindowReader Byte) : Prop where
  status : info.loc.formStatus = .body
  cnt : info.loc.boundaryCnt = dashCount boundary
  reads : Reads info.loc s
  sound : LabelSound boundary s
  slot : info.loc.formFlag = .arg → info.arg.item ≠ none

section
variable {boundary : List Byte} {info : Http} {s : WindowReader Byte} {c : Byte}

theorem append_byte (x : XStr) (c : Byte) : ∃ x', x.append [c] = some x' := by
  unfold XStr.append
  split
  · exact ⟨_, if_neg (Nat.not_lt.mpr (show 1 ≤ APPEND_MAX by decide))⟩
  · split
    · exact ⟨_, rfl⟩
    · exact ⟨_, rfl⟩

theorem httpAppendArg_byte {a : HttpArgCtrl} (h : a.item ≠ none) (c : Byte) :
    ∃ a', httpAppendArg [c] a = some a' ∧ a'.item ≠ none := by
  obtain ⟨item, hitem⟩ := Option.ne_none_iff_exists'.mp h
  obtain ⟨item', happend⟩ : ∃ item', item.append [c] = some item' := by
    unfold HttpArg.append
    split
    · obtain ⟨v, hv⟩ := append_byte item.value c
      exact ⟨_, by rw [hv]; rfl⟩
    · obtain ⟨n, hn⟩ := append_byte item.name c
      exact ⟨_, by rw [hn]; rfl⟩
  refine ⟨a.onCur fun _ => item'.decode, ?_, ?_⟩
  · rw [httpAppendArg, if_neg (List.cons_ne_nil c []), hitem]
    simp only [happend, Option.map_some]
  · rw [item_onCur hitem]
    exact Option.some_ne_none _

theorem httpAppendFile_byte (f : HttpFileCtrl) (c : Byte) : ∃ f', httpAppendFile c f = some f' := by
  unfold httpAppendFile
  split
  · exact ⟨f, rfl⟩
  next item _ =>
    split
    · exact ⟨f, rfl⟩
    · split
      · exact ⟨_, rfl⟩
      · obtain ⟨v, hv⟩ := append_byte item.value c
        exact ⟨_, by rw [hv]; rfl⟩

/-- A byte that is stored changes the tables only. -/
theorem formContent_tables (hslot : info.loc.formFlag = .arg → info.arg.item ≠ none) (c : Byte) :
    ∃ arg file, formContent c info = some { info with arg := arg, file := file } ∧
      (info.loc.formFlag = .arg → arg.item ≠ none) := by
  unfold formContent
  split
  next hfile =>
    have hnoarg : info.loc.formFlag = .arg → info.arg.item ≠ none := by
      rw [hfile]
      intro h
      cases h
    split
    · exact ⟨info.arg, info.file, rfl, hnoarg⟩
    next item hitem =>
      split
      · exact ⟨info.arg, info.file, rfl, hnoarg⟩
      · dsimp only
        split
        · exact ⟨info.arg, _, rfl, hnoarg⟩
        · obtain ⟨file, hfile⟩ := httpAppendFile_byte
            (info.file.onCur fun item => { item with rawFileLen := item.rawFileLen + 1 }) c
          exact ⟨info.arg, file, by rw [hfile]; rfl, hnoarg⟩
  next harg =>
    have hflag : info.loc.formFlag = .arg := by
      cases h : info.loc.formFlag with
      | arg => rfl
      | file => exact absurd h harg
    obtain ⟨arg, happend, hitem⟩ := httpAppendArg_byte (hslot hflag) c
    exact ⟨arg, info.file, by rw [happend]; rfl, fun _ => hitem⟩

/-- What the label's last byte leaves: the label is cut off, and the next header begins. -/
def formMet (label : List Byte) (info : Http) : Http :=
  let cut :=
    if info.loc.formFlag = .file then formCutFile (label.length + 1) info
    else if ∃ item ∈ info.arg.item, item.value.p ≠ none ∧ 0 < item.value.len then
      formCutArg (label.length + 1) info
    else info
  { cut with loc := { info.loc with formStatus := .header, formFlag := .arg } }

theorem formMet_same (label : List Byte) (info : Http) :
    (formMet label info).str = info.str ∧ (formMet label info).logic = info.logic := by
  unfold formMet formCutFile formCutArg
  dsimp only
  split
  · split
    · exact ⟨rfl, rfl⟩
    · split
      · exact ⟨rfl, rfl⟩
      · exact ⟨rfl, rfl⟩
  · split
    · exact ⟨rfl, rfl⟩
    · exact ⟨rfl, rfl⟩

/-- A byte that ends no label is stored. -/
theorem formBody_stays (h : InBody boundary info s) (hne : labelRest boundary ≠ [])
    (hno : (labelStep boundary c s).1 ≠ some (labelRest boundary)) :
    ∃ loc, formBody (labelOf boundary) c info = formContent c { info with loc := loc } ∧
      Reads loc (labelStep boundary c s).2 ∧ ReaderOnly info.loc loc := by
  obtain ⟨loc, hlabel, hreads, honly⟩ := @formLabel_reads boundary info.loc s c hne h.cnt h.reads h.sound
  refine ⟨loc, ?_, hreads, honly⟩
  unfold formBody
  rw [hlabel, decide_eq_false hno]
  rfl

/-- The byte that ends the label ends the part. -/
theorem formBody_ends (h : InBody boundary info s) (hne : labelRest boundary ≠ [])
    (hmet : (labelStep boundary c s).1 = some (labelRest boundary)) :
    ∃ loc, formBody (labelOf boundary) c info = some (formMet (labelOf boundary) { info with loc := loc }) ∧
      Reads loc (labelStep boundary c s).2 ∧ ReaderOnly info.loc loc := by
  obtain ⟨loc, hlabel, hreads, honly⟩ := @formLabel_reads boundary info.loc s c hne h.cnt h.reads h.sound
  refine ⟨loc, ?_, hreads, honly⟩
  unfold formBody
  rw [hlabel, decide_eq_true hmet]
  rfl

/-- What the calls of `http_parse_form` do not change while a part is read. -/
structure SameForm (info r : Http) : Prop where
  str : r.str = info.str
  logic : r.logic = info.logic
  flag : r.loc.formFlag = info.loc.formFlag

theorem formBody_inBody (h : InBody boundary info s) (hne : labelRest boundary ≠ [])
    (hno : (labelStep boundary c s).1 ≠ some (labelRest boundary)) :
    ∃ loc r, ReaderOnly info.loc loc ∧ formContent c { info with loc := loc } = some r ∧
      formBody (labelOf boundary) c info = some r ∧ InBody boundary r (labelStep boundary c s).2 := by
  obtain ⟨loc, hbody, hreads, honly⟩ := formBody_stays h hne hno
  have hloc := honly.eq
  have hflag : loc.formFlag = info.loc.formFlag := by rw [hloc]
  have hslot : loc.formFlag = .arg → info.arg.item ≠ none := fun harg => h.slot (hflag ▸ harg)
  obtain ⟨arg, file, hcontent, hitem⟩ := @formContent_tables { info with loc := loc } hslot c
  refine ⟨loc, _, honly, hcontent, hbody.trans hcontent, ⟨?_, ?_, hreads, ?_, hitem⟩⟩
  · show loc.formStatus = .body
    rw [hloc]
    exact h.status
  · show loc.boundaryCnt = dashCount boundary
    rw [hloc]
    exact h.cnt
  · exact (WindowReader.step_sound (dashCount_pos boundary) h.sound).1

theorem mem_windows_cons {text r : List Byte} : r ∈ windows boundary (c :: text) s ↔
    (labelStep boundary c s).1 = some r ∨ r ∈ windows boundary text (labelStep boundary c s).2 := by
  rw [show windows boundary (c :: text) s = (labelStep boundary c s).1.toList ++
    windows boundary text (labelStep boundary c s).2 from rfl, List.mem_append, Option.mem_toList]

/-- **The loop over bytes of a part that meet no label**: what the reader's fields do not matter
to and each stored byte extends holds of all of them. -/
theorem loop_stored {P : List Byte → Http → Prop} (hne : labelRest boundary ≠ [])
    (hreader : ∀ v i loc, ReaderOnly i.loc loc → P v i → P v { i with loc := loc })
    (hcontent : ∀ v c i r, P v i → formContent c i = some r → P (v ++ [c]) r) (rest name : List Byte) :
    ∀ (text v : List Byte) (info : Http) (s : WindowReader Byte), InBody boundary info s → P v info →
      labelRest boundary ∉ windows boundary text s →
      ∃ r, httpParseFormLoop (labelOf boundary) (text ++ rest) info name =
          httpParseFormLoop (labelOf boundary) rest r name ∧
        InBody boundary r (labelAfter boundary text s) ∧ P (v ++ text) r := by
  intro text
  induction text with
  | nil =>
    intro v info s h hP _
    exact ⟨info, rfl, h, by rwa [List.append_nil]⟩
  | cons c text ih =>
    intro v info s h hP hno
    rw [mem_windows_cons, not_or] at hno
    obtain ⟨loc, i, honly, hstored, hbody, hi⟩ := formBody_inBody h hne hno.1
    have hnext := hcontent v c _ i (hreader v info loc honly hP) hstored
    obtain ⟨r, hloop, hr, hall⟩ := ih (v ++ [c]) i _ hi hnext hno.2
    refine ⟨r, ?_, hr, by rwa [List.append_assoc, List.singleton_append] at hall⟩
    rw [List.cons_append, httpParseFormLoop, h.status]
    simp only [hbody, Option.bind_some]
    exact hloop

/-- A byte that is stored leaves everything but the tables. -/
theorem formContent_only {r : Http} (h : formContent c info = some r) :
    r = { info with arg := r.arg, file := r.file } := by
  unfold formContent at h
  split at h
  · split at h
    · cases h
      rfl
    · split at h
      · cases h
        rfl
      · dsimp only at h
        split at h
        · cases h
          rfl
        · obtain ⟨file, -, rfl⟩ := Option.map_eq_some_iff.mp h
          rfl
  · obtain ⟨arg, -, rfl⟩ := Option.map_eq_some_iff.mp h
    rfl

theorem formContent_loc {r : Http} (h : formContent c info = some r) : r.loc = info.loc := by
  rw [formContent_only h]

theorem loop_inBody (hne : labelRest boundary ≠ []) (rest name text : List Byte) (info : Http)
    (s : WindowReader Byte) (h : InBody boundary info s) (hno : labelRest boundary ∉ windows boundary text s) :
    ∃ r, httpParseFormLoop (labelOf boundary) (text ++ rest) info name =
        httpParseFormLoop (labelOf boundary) rest r name ∧
      InBody boundary r (labelAfter boundary text s) ∧ SameForm info r := by
  refine @loop_stored boundary (fun _ i => SameForm info i) hne ?_ ?_ rest name text [] info s h
    ⟨rfl, rfl, rfl⟩ hno
  · intro _ i loc honly hsame
    refine ⟨hsame.str, hsame.logic, ?_⟩
    show loc.formFlag = _
    rw [honly.eq]
    exact hsame.flag
  · intro _ c i r hsame hstored
    rw [formContent_only hstored]
    exact ⟨hsame.str, hsame.logic, hsame.flag⟩

/-- The byte of the loop that ends the part. -/
theorem loop_met (h : InBody boundary info s) (hne : labelRest boundary ≠ [])
    (hmet : (labelStep boundary c s).1 = some (labelRest boundary)) (rest name : List Byte) :
    ∃ loc, httpParseFormLoop (labelOf boundary) (c :: rest) info name =
        httpParseFormLoop (labelOf boundary) rest (formMet (labelOf boundary) { info with loc := loc }) name ∧
      Reads loc (labelStep boundary c s).2 ∧ ReaderOnly info.loc loc := by
  obtain ⟨loc, hbody, hreads, honly⟩ := formBody_ends h hne hmet
  refine ⟨loc, ?_, hreads, honly⟩
  rw [httpParseFormLoop, h.status]
  simp only [hbody, Option.bind_some]

end

/-! ## Calls of `http_parse_form` -/

/-- The calls of `http_parse_form` on what comes in. -/
def parseForms (info : Http) (segments : List (List Byte)) : Option Http :=
  segments.foldlM (fun info segment => httpParseForm segment info) info

theorem parseForms_cons (info : Http) (segment : List Byte) (segments : List (List Byte)) :
    parseForms info (segment :: segments) =
      (httpParseForm segment info).bind fun r => parseForms r segments := rfl

/-- The calls while the message has not ended. -/
structure MoreToCome (boundary : List Byte) (info : Http) : Prop where
  stored : info.str.boundary.cString = some boundary
  state : info.logic.state ≠ .none

section
variable {boundary : List Byte} {info : Http} {s : WindowReader Byte} {c : Byte}

theorem MoreToCome.label (h : MoreToCome boundary info) :
    formLabelText info = some (labelOf boundary) := by
  rw [formLabelText, h.stored]
  rfl

/-- A call is its loop and what follows it. -/
theorem MoreToCome.call (h : MoreToCome boundary info) {data : List Byte} {r : Http}
    (hcall : httpParseForm data info = some r) :
    ∃ i stop, httpParseFormLoop (labelOf boundary) data info [] = some (i, stop) ∧
      r = if stop then i else formEnd (labelOf boundary) i := by
  unfold httpParseForm at hcall
  rw [h.label] at hcall
  simp only [Option.bind_eq_bind, Option.bind_some] at hcall
  obtain ⟨⟨i, stop⟩, hloop, hr⟩ := Option.bind_eq_some_iff.mp hcall
  exact ⟨i, stop, hloop, (Option.some.inj hr).symm⟩

theorem MoreToCome.of_same {r : Http} (h : MoreToCome boundary info) (hstr : r.str = info.str)
    (hlogic : r.logic = info.logic) : MoreToCome boundary r where
  stored := by rw [hstr, h.stored]
  state := by rw [hlogic]; exact h.state

/-- A call is its loop. -/
theorem httpParseForm_loop (h : MoreToCome boundary info) {data : List Byte} {r : Http}
    (hloop : httpParseFormLoop (labelOf boundary) data info [] = some (r, false))
    (hlogic : r.logic = info.logic) : httpParseForm data info = some r := by
  have hend : formEnd (labelOf boundary) r = r := by
    unfold formEnd
    rw [hlogic, if_neg h.state]
  unfold httpParseForm
  rw [h.label]
  simp only [Option.bind_eq_bind, Option.bind_some, hloop, hend]
  rfl

theorem forms_empty (h : MoreToCome boundary info) : ∀ segments : List (List Byte),
    segments.flatten = [] → parseForms info segments = some info := by
  intro segments
  induction segments with
  | nil => exact fun _ => rfl
  | cons segment segments ih =>
    intro hflat
    rw [List.flatten_cons, List.append_eq_nil_iff] at hflat
    have hcall : httpParseForm segment info = some info := by
      rw [hflat.1]
      exact httpParseForm_loop h rfl rfl
    rw [parseForms_cons, hcall]
    exact ih hflat.2

/-- What one call makes of the bytes of a part. -/
structure PartRun (boundary text : List Byte) (info : Http) (s : WindowReader Byte) (r : Http) : Prop where
  more : MoreToCome boundary r
  stays : labelRest boundary ∉ windows boundary text s → InBody boundary r (labelAfter boundary text s)
  ends : labelRest boundary ∈ windows boundary text s → r.loc.formStatus = .header

/-- One call, when the label is met with its last byte or not at all. -/
theorem form_run (hmore : MoreToCome boundary info) (h : InBody boundary info s)
    (hne : labelRest boundary ≠ []) {text : List Byte}
    (hno : ∀ j < text.length, labelRest boundary ∉ windows boundary (text.take j) s) :
    ∃ r, httpParseForm text info = some r ∧ PartRun boundary text info s r := by
  by_cases hmem : labelRest boundary ∈ windows boundary text s
  · obtain ⟨x, c, rfl⟩ : ∃ x c, text = x ++ [c] := by
      refine ⟨_, _, (List.dropLast_concat_getLast ?_).symm⟩
      rintro rfl
      cases hmem
    have hx : labelRest boundary ∉ windows boundary x s := by
      have h := hno x.length (by simp)
      rwa [List.take_left' rfl] at h
    obtain ⟨i, hloop, hi, hsame⟩ := loop_inBody hne [c] [] x info s h hx
    have hmet : (labelStep boundary c (labelAfter boundary x s)).1 = some (labelRest boundary) := by
      rw [windows_append] at hmem
      exact (mem_windows_cons.mp ((List.mem_append.mp hmem).resolve_left hx)).resolve_right
        List.not_mem_nil
    obtain ⟨loc, hlast, -, -⟩ := loop_met hi hne hmet [] []
    obtain ⟨hstr, hlogic⟩ := formMet_same (labelOf boundary) { i with loc := loc }
    have hstr' := hstr.trans hsame.str
    have hlogic' := hlogic.trans hsame.logic
    exact ⟨_, httpParseForm_loop hmore (hloop.trans hlast) hlogic',
      hmore.of_same hstr' hlogic', fun hno => absurd hmem hno, fun _ => rfl⟩
  · obtain ⟨r, hloop, hr, hsame⟩ := loop_inBody hne [] [] text info s h hmem
    rw [List.append_nil] at hloop
    exact ⟨r, httpParseForm_loop hmore hloop hsame.logic, hmore.of_same hsame.str hsame.logic,
      fun _ => hr, fun hin => absurd hin hmem⟩

/-- **The calls on a part's bytes**, in whatever pieces they come. -/
theorem forms_run (hne : labelRest boundary ≠ []) : ∀ (segments : List (List Byte)) (info : Http)
    (s : WindowReader Byte), MoreToCome boundary info → InBody boundary info s →
    (∀ j < segments.flatten.length, labelRest boundary ∉ windows boundary (segments.flatten.take j) s) →
    ∃ r, parseForms info segments = some r ∧ PartRun boundary segments.flatten info s r := by
  intro segments
  induction segments with
  | nil => exact fun info s hmore h _ => ⟨info, rfl, hmore, fun _ => h, fun hmem => by cases hmem⟩
  | cons segment segments ih =>
    intro info s hmore h hno
    rw [List.flatten_cons] at hno ⊢
    have hfirst : ∀ j < segment.length, labelRest boundary ∉ windows boundary (segment.take j) s := by
      intro j hj
      have hseg := hno j (by rw [List.length_append]; omega)
      rwa [List.take_append_of_le_length (Nat.le_of_lt hj)] at hseg
    obtain ⟨i, hcall, hi⟩ := form_run hmore h hne hfirst
    have hrun : ∀ r, parseForms i segments = some r → parseForms info (segment :: segments) = some r := by
      intro r hr
      rw [parseForms_cons, hcall]
      exact hr
    by_cases hrest : segments.flatten = []
    · refine ⟨i, hrun i (forms_empty hi.more segments hrest), ?_⟩
      rwa [hrest, List.append_nil]
    · have hseg : labelRest boundary ∉ windows boundary segment s := by
        have hpos := List.length_pos_iff.mpr hrest
        have h := hno segment.length (by rw [List.length_append]; omega)
        rwa [List.take_left' rfl] at h
      have hsplit : ∀ text, labelRest boundary ∈ windows boundary (segment ++ text) s ↔
          labelRest boundary ∈ windows boundary text (labelAfter boundary segment s) := by
        intro text
        rw [windows_append, List.mem_append]
        exact or_iff_right hseg
      obtain ⟨r, hr, hpart⟩ := ih i _ hi.more (hi.stays hseg) fun j hj => by
        have h := hno (segment.length + j) (by rw [List.length_append]; omega)
        rwa [List.take_length_add_append, hsplit] at h
      refine ⟨r, hrun r hr, hpart.more, fun hnot => ?_, fun hin => hpart.ends ((hsplit _).mp hin)⟩
      have hstays := hpart.stays (fun hin => hnot ((hsplit _).mpr hin))
      rwa [labelAfter_append]

end

/-! ## The end of a part -/

/-- A part's content begins, as `formHeader` leaves it. -/
structure PartStart (boundary : List Byte) (info : Http) : Prop extends MoreToCome boundary info where
  status : info.loc.formStatus = .body
  cnt : info.loc.boundaryCnt = dashCount boundary
  reads : Reads info.loc ⟨info.loc.myformLabelNum, none⟩

/-- In whatever calls the bytes come, the part ends with the last of them and with no earlier one. -/
def PartEndsWith (info : Http) (text : List Byte) : Prop :=
  ∀ j ≤ text.length, ∀ segments : List (List Byte), segments.flatten = text.take j →
    ∃ r, parseForms info segments = some r ∧ (r.loc.formStatus = .body ↔ j < text.length)

/-- What is read is stored in an item. -/
def HasItem (info : Http) : Prop := info.loc.formFlag = .arg → info.arg.item ≠ none

/-- The delimiter behind the content `v` is met: `d` dashes are counted in front of `v`. -/
structure Detects (boundary v : List Byte) (d : Nat) : Prop where
  /-- `--B` has another byte than dashes within `label` -/
  rest : labelRest boundary ≠ []
  /-- behind its first dashes the label has no run of `boundary_cnt` dashes -/
  regular : ¬ List.replicate (dashCount boundary) (ch '-') <:+: labelRest boundary
  /-- nothing in front of the delimiter's `boundary_cnt`-th dash is taken for the label -/
  unmistaken : labelRest boundary ∉
    windows boundary (v ++ str "\r\n" ++ List.replicate (dashCount boundary - 1) (ch '-')) ⟨d, none⟩
  /-- no window that a run of dashes in the content opened is open there -/
  idle : (labelAfter boundary
    (v ++ str "\r\n" ++ List.replicate (dashCount boundary - 1) (ch '-')) ⟨d, none⟩).window = none

section
variable {boundary : List Byte} {info : Http}

theorem PartStart.inBody (h : PartStart boundary info) (hitem : HasItem info) :
    InBody boundary info ⟨info.loc.myformLabelNum, none⟩ where
  status := h.status
  cnt := h.cnt
  reads := h.reads
  sound := WindowReader.sound_idle _
  slot := hitem

theorem cacheByte_spec {loc loc' : HttpLocal} {c : Byte} (h : cacheByte loc c = some loc') :
    0 < loc'.cacheBuf.length ∧ loc' = { loc with cacheBuf := loc'.cacheBuf } := by
  unfold cacheByte at h
  split at h
  · cases h
    simp
  · split at h
    next hfull =>
      cases h
      exact ⟨by omega, rfl⟩
    · cases h

/-- Whatever a byte does to the label, it does to the reader's fields. -/
theorem formLabel_readerOnly {label : List Byte} {loc loc' : HttpLocal} {c : Byte} {met : Bool}
    (h : formLabel label c loc = some (met, loc')) : ReaderOnly loc loc' := by
  have hcount : ∃ n st, countLabel c loc = { loc with myformLabelNum := n, myformLabelState := st } := by
    unfold countLabel
    split
    · exact ⟨_, _, rfl⟩
    · exact ⟨_, _, rfl⟩
  obtain ⟨n, st, hcount⟩ := hcount
  unfold formLabel at h
  simp only [hcount] at h
  split at h
  · unfold httpWaitLabelStr at h
    obtain ⟨loc1, hcache, h⟩ := Option.map_eq_some_iff.mp h
    obtain ⟨-, hloc1⟩ := cacheByte_spec hcache
    split at h
    · obtain ⟨-, rfl⟩ := Prod.mk.inj h
      exact ⟨by rw [hloc1]⟩
    · obtain ⟨-, rfl⟩ := Prod.mk.inj h
      exact ⟨by rw [hloc1]⟩
  · cases h
    exact ⟨rfl⟩

/-- A label that is met fills its window and leaves none. -/
theorem formLabel_met {label : List Byte} {loc loc' : HttpLocal} {c : Byte}
    (h : formLabel label c loc = some (true, loc')) :
    loc'.boundaryCnt < label.length ∧ loc'.myformLabelState = .null := by
  unfold formLabel at h
  dsimp only at h
  split at h
  · unfold httpWaitLabelStr at h
    obtain ⟨loc1, hcache, h⟩ := Option.map_eq_some_iff.mp h
    obtain ⟨hpos, -⟩ := cacheByte_spec hcache
    split at h
    · obtain ⟨-, rfl⟩ := Prod.mk.inj h
      exact ⟨by show loc1.boundaryCnt < label.length; omega, rfl⟩
    · cases h
  · cases h

/-- A label of nothing but dashes is never met. -/
theorem formLabel_never {label : List Byte} {loc loc' : HttpLocal} {c : Byte} {met : Bool}
    (hlen : label.length ≤ loc.boundaryCnt) (h : formLabel label c loc = some (met, loc')) : met = false := by
  have hcnt : loc'.boundaryCnt = loc.boundaryCnt := by rw [(formLabel_readerOnly h).eq]
  cases met with
  | false => rfl
  | true =>
    have hlt := (formLabel_met h).1
    omega

/-- Where no label can be met, the part goes on. -/
theorem formBody_never {label : List Byte} {c : Byte} {r : Http} (hlen : label.length ≤ info.loc.boundaryCnt)
    (hstatus : info.loc.formStatus = .body) (h : formBody label c info = some r) :
    r.loc.formStatus = .body ∧ r.loc.boundaryCnt = info.loc.boundaryCnt := by
  unfold formBody at h
  obtain ⟨⟨met, loc⟩, hlabel, h⟩ := Option.bind_eq_some_iff.mp h
  obtain rfl := formLabel_never hlen hlabel
  have honly := formLabel_readerOnly hlabel
  have hloc := formContent_loc h
  have hstatus' : loc.formStatus = .body := by
    rw [honly.eq]
    exact hstatus
  have hcnt : loc.boundaryCnt = info.loc.boundaryCnt := by rw [honly.eq]
  exact ⟨by rw [hloc]; exact hstatus', by rw [hloc]; exact hcnt⟩

theorem loop_never {label : List Byte} : ∀ (text : List Byte) (info r : Http) (name : List Byte) (stop : Bool),
    label.length ≤ info.loc.boundaryCnt → info.loc.formStatus = .body →
    httpParseFormLoop label text info name = some (r, stop) → r.loc.formStatus = .body := by
  intro text
  induction text with
  | nil =>
    intro info r name stop _ hstatus h
    cases h
    exact hstatus
  | cons c text ih =>
    intro info r name stop hlen hstatus h
    rw [httpParseFormLoop, hstatus] at h
    obtain ⟨i, hbody, h⟩ := Option.bind_eq_some_iff.mp h
    obtain ⟨hi, hcnt⟩ := formBody_never hlen hstatus hbody
    exact ih i r name stop (hcnt ▸ hlen) hi h

theorem formEnd_loc (label : List Byte) (info : Http) : (formEnd label info).loc = info.loc := by
  unfold formEnd formCutFile formCutArg
  split
  · split
    · split
      · rfl
      · split
        · rfl
        · rfl
    · split
      · rfl
      · rfl
  · rfl

/-- The same for a call. -/
theorem form_never (h : PartStart boundary info) (hrest : labelRest boundary = []) {text : List Byte}
    {r : Http} (hcall : httpParseForm text info = some r) : r.loc.formStatus = .body := by
  have hlen : (labelOf boundary).length ≤ info.loc.boundaryCnt := by
    have hlen := congrArg List.length hrest
    rw [labelRest, List.length_drop, List.length_nil] at hlen
    rw [h.cnt]
    omega
  obtain ⟨i, stop, hloop, rfl⟩ := h.toMoreToCome.call hcall
  have hbody := loop_never text info i [] stop hlen h.status hloop
  split
  · exact hbody
  · rw [formEnd_loc]
    exact hbody

/-- A first byte is stored, so that there must be an item. -/
theorem hasItem_of_formBody (h : PartStart boundary info) {c : Byte} {r : Http}
    (hbody : formBody (labelOf boundary) c info = some r) : HasItem info := by
  intro hflag hnone
  obtain ⟨loc, hlabel, -, honly⟩ := @formLabel_idle boundary info.loc c _ h.cnt h.reads
  have hloc : loc.formFlag = .arg := by rw [honly.eq]; exact hflag
  have hcontent : formContent c { info with loc := loc } = none := by
    unfold formContent
    rw [if_neg (by simp [hloc]), httpAppendArg, if_neg (List.cons_ne_nil c []), hnone]
    rfl
  unfold formBody at hbody
  rw [hlabel] at hbody
  cases hbody.symm.trans hcontent

theorem PartEndsWith.hasItem (h : PartStart boundary info) {text : List Byte} (htext : text ≠ [])
    (hends : PartEndsWith info text) : HasItem info := by
  obtain ⟨c, text', rfl⟩ := List.exists_cons_of_ne_nil htext
  obtain ⟨r, hr, -⟩ := hends 1 (Nat.succ_pos _) [[c]] rfl
  rw [parseForms_cons] at hr
  obtain ⟨i, hcall, -⟩ := Option.bind_eq_some_iff.mp hr
  obtain ⟨i', stop, hloop, -⟩ := h.toMoreToCome.call hcall
  rw [httpParseFormLoop, h.status] at hloop
  obtain ⟨i'', hbody, -⟩ := Option.bind_eq_some_iff.mp hloop
  exact hasItem_of_formBody h hbody

/-- Whether a part ends with a text is whether its last byte, and no earlier one, meets the label. -/
theorem partEndsWith_iff (h : PartStart boundary info) (hne : labelRest boundary ≠ []) {text : List Byte}
    (htext : text ≠ []) : PartEndsWith info text ↔ HasItem info ∧
      WindowReader.FoundLast (ch '-') (dashCount boundary) (labelRest boundary) text
        ⟨info.loc.myformLabelNum, none⟩ := by
  have htake : ∀ {i j}, i < (text.take j).length → (text.take j).take i = text.take i := by
    intro i j hij
    rw [List.length_take] at hij
    rw [List.take_take, Nat.min_eq_left (by omega)]
  refine ⟨fun hends => ?_, fun ⟨hitem, hfound⟩ => ?_⟩
  · have hitem := hends.hasItem h htext
    refine ⟨hitem, ?_⟩
    have hbody := h.inBody hitem
    -- the label is not met early: at the first time the part would end
    have hearly : ∀ j < text.length, labelRest boundary ∉
        windows boundary (text.take j) ⟨info.loc.myformLabelNum, none⟩ := by
      intro j
      induction j using Nat.strongRecOn with
      | ind j ih =>
        intro hj hmem
        have hno : ∀ i < [text.take j].flatten.length, labelRest boundary ∉
            windows boundary ([text.take j].flatten.take i) ⟨info.loc.myformLabelNum, none⟩ := by
          intro i hi
          rw [List.flatten_singleton] at hi ⊢
          rw [htake hi]
          rw [List.length_take] at hi
          exact ih i (by omega) (by omega)
        obtain ⟨r, hr, hpart⟩ := forms_run hne [text.take j] info _ h.toMoreToCome hbody hno
        obtain ⟨r', hr', hiff⟩ := hends j (Nat.le_of_lt hj) [text.take j] (by simp)
        obtain rfl : r = r' := Option.some.inj (hr.symm.trans hr')
        rw [hpart.ends (by rwa [List.flatten_singleton])] at hiff
        exact absurd (hiff.mpr hj) (by decide)
    intro j hj
    refine ⟨fun hmem => ?_, fun heq => ?_⟩
    · by_contra hlt
      exact hearly j (by omega) hmem
    · by_contra hno
      subst heq
      rw [List.take_length] at hno
      obtain ⟨r, hr, hpart⟩ := forms_run hne [text] info _ h.toMoreToCome hbody (by
        rw [List.flatten_singleton]
        exact hearly)
      obtain ⟨r', hr', hiff⟩ := hends text.length hj [text] (by simp)
      obtain rfl : r = r' := Option.some.inj (hr.symm.trans hr')
      rw [List.flatten_singleton] at hpart
      exact absurd (hiff.mp (hpart.stays hno).status) (Nat.lt_irrefl _)
  · intro j hj segments hflat
    have hlen : segments.flatten.length = j := by
      rw [hflat, List.length_take]
      omega
    have hno : ∀ i < segments.flatten.length, labelRest boundary ∉
        windows boundary (segments.flatten.take i) ⟨info.loc.myformLabelNum, none⟩ := by
      intro i hi hmem
      rw [hflat] at hi hmem
      rw [htake hi] at hmem
      rw [List.length_take] at hi
      have heq := (hfound i (by omega)).mp hmem
      omega
    obtain ⟨r, hr, hpart⟩ := forms_run hne segments info _ h.toMoreToCome (h.inBody hitem) hno
    rw [hflat] at hpart
    refine ⟨r, hr, ?_⟩
    -- the label is met with the byte read last, or the part goes on
    by_cases hmem : labelRest boundary ∈ windows boundary (text.take j) ⟨info.loc.myformLabelNum, none⟩
    · have heq := (hfound j hj).mp hmem
      rw [hpart.ends hmem]
      exact iff_of_false (by decide) (by omega)
    · have hlt : j ≠ text.length := fun heq => hmem ((hfound j hj).mpr heq)
      exact iff_of_true (hpart.stays hmem).status (by omega)

/-- A content with its delimiter, up to the `boundary_cnt`-th dash and from there on. -/
theorem delimiter_split (hne : labelRest boundary ≠ []) (v : List Byte) :
    v ++ str "\r\n" ++ labelOf boundary =
      v ++ str "\r\n" ++ List.replicate (dashCount boundary - 1) (ch '-') ++
        ch '-' :: labelRest boundary := by
  have hdashes : List.replicate (dashCount boundary) (ch '-') =
      List.replicate (dashCount boundary - 1) (ch '-') ++ [ch '-'] := by
    rw [← List.replicate_succ', Nat.sub_add_cancel (dashCount_pos boundary)]
  rw [labelOf_eq hne, hdashes]
  simp only [List.append_assoc, List.singleton_append]

theorem delimiter_marks (boundary v : List Byte) (d : Nat) : WindowReader.marksAfter (ch '-') d
    (v ++ str "\r\n" ++ List.replicate (dashCount boundary - 1) (ch '-')) + 1 = dashCount boundary := by
  have hline : ∀ d, WindowReader.marksAfter (ch '-') d (str "\r\n") = 0 := fun d => rfl
  rw [WindowReader.marksAfter_append, WindowReader.marksAfter_append, hline,
    WindowReader.marksAfter_replicate, Nat.zero_add, Nat.sub_add_cancel (dashCount_pos boundary)]

/-- The label of a delimiter is met with its last byte exactly when the delimiter is met. -/
theorem found_iff_detects (hne : labelRest boundary ≠ []) {v : List Byte} {d : Nat} :
    WindowReader.FoundLast (ch '-') (dashCount boundary) (labelRest boundary)
      (v ++ str "\r\n" ++ labelOf boundary) ⟨d, none⟩ ↔ Detects boundary v d := by
  have hpos := dashCount_pos boundary
  -- the last counted dash of the delimiter opens the window
  rw [delimiter_split hne, WindowReader.found_iff hpos (labelRest_head boundary)
    (WindowReader.sound_idle d) (delimiter_marks boundary v d)]
  refine ⟨fun ⟨h1, h2, h3, h4⟩ => ⟨h1, (WindowReader.quiet_iff hpos).mp h2, h3, h4⟩, fun h => ?_⟩
  exact ⟨h.rest, (WindowReader.quiet_iff hpos).mpr h.regular, h.unmistaken, h.idle⟩

/-- The dashes counted behind a label. -/
def labelMarks (boundary : List Byte) : Nat :=
  WindowReader.marksAfter (ch '-') (dashCount boundary) (labelRest boundary)

/-- The reader behind a delimiter that was met. -/
theorem Detects.after {v : List Byte} {d : Nat} (h : Detects boundary v d) :
    labelAfter boundary (v ++ str "\r\n" ++ labelOf boundary) ⟨d, none⟩ =
      ⟨labelMarks boundary, none⟩ := by
  have hpos := dashCount_pos boundary
  rw [delimiter_split h.rest]
  exact WindowReader.found_after hpos (labelRest_head boundary) h.rest
    ((WindowReader.quiet_iff hpos).mpr h.regular) (delimiter_marks boundary v d) h.idle

/-- **Where a part ends.** It ends with the delimiter behind its content, and not earlier,
exactly when there is an item for it and the delimiter is met. -/
theorem part_ends_iff (h : PartStart boundary info) (v : List Byte) :
    PartEndsWith info (v ++ str "\r\n" ++ labelOf boundary) ↔
      HasItem info ∧ Detects boundary v info.loc.myformLabelNum := by
  by_cases hne : labelRest boundary = []
  · refine iff_of_false (fun hends => ?_) fun hdet => hdet.2.rest hne
    -- a label without a rest is never met: the text is read and the part goes on
    obtain ⟨r, hr, hiff⟩ := hends _ (Nat.le_refl _) [v ++ str "\r\n" ++ labelOf boundary] (by
      rw [List.take_length, List.flatten_singleton])
    rw [parseForms_cons] at hr
    obtain ⟨i, hcall, hr⟩ := Option.bind_eq_some_iff.mp hr
    cases hr
    exact absurd (hiff.mp (form_never h hne hcall)) (Nat.lt_irrefl _)
  · have htext : v ++ str "\r\n" ++ labelOf boundary ≠ [] := by
      rw [delimiter_split hne]
      exact List.append_ne_nil_of_right_ne_nil _ (List.cons_ne_nil _ _)
    rw [partEndsWith_iff h hne htext, found_iff_detects hne]

/-- A content without a run of `boundary_cnt` dashes, the counted ones included, hides no delimiter. -/
theorem detects_of_quiet {v : List Byte} {d : Nat} (hrest : labelRest boundary ≠ [])
    (hregular : ¬ List.replicate (dashCount boundary) (ch '-') <:+: labelRest boundary)
    (hquiet : WindowReader.quiet (ch '-') (dashCount boundary) d v = true) : Detects boundary v d := by
  have hpos := dashCount_pos boundary
  -- the CRLF of the delimiter starts the count anew, so its dashes are one too few
  have hall : WindowReader.quiet (ch '-') (dashCount boundary) d
      (v ++ str "\r\n" ++ List.replicate (dashCount boundary - 1) (ch '-')) = true := by
    have hline : ∀ d, WindowReader.marksAfter (ch '-') d (str "\r\n") = 0 := fun d => rfl
    have hdashes : WindowReader.quiet (ch '-') (dashCount boundary) 0
        (List.replicate (dashCount boundary - 1) (ch '-')) = true :=
      WindowReader.quiet_replicate (by omega)
    rw [WindowReader.quiet_append, WindowReader.quiet_append, hquiet, WindowReader.marksAfter_append,
      hline, hdashes]
    rfl
  obtain ⟨hclosed, hafter⟩ := @WindowReader.idle_quiet _ _ (ch '-') (dashCount boundary)
    (labelRest boundary).length d _ hpos hall
  refine ⟨hrest, hregular, ?_, ?_⟩
  · rw [show windows boundary _ ⟨d, none⟩ = [] from hclosed]
    exact List.not_mem_nil
  · rw [show labelAfter boundary _ ⟨d, none⟩ = _ from hafter]

end

/-- The head of a multipart request. -/
def formHead (target boundary : List Byte) : List Byte :=
  str "POST " ++ target ++ str " HTTP/1.1\r\nContent-Type: multipart/form-data; boundary=" ++ boundary ++
    str "\r\n\r\n"

/-- A zeroed parser behind a head. -/
def behindHead (head : List Byte) : Http :=
  ((httpParseHead head.length Http.zero).run (Memory.ofList head)).getD Http.zero

/-- The parser in front of the body of a multipart request with this boundary. -/
def formRequest (boundary : List Byte) : Http := behindHead (formHead (str "/") boundary)

/-- The head of a part with this name. -/
def partHead (name : List Byte) : List Byte :=
  str "\r\nContent-Disposition: form-data; name=\"" ++ name ++ str "\"\r\n\r\n"

/-- The parser behind the head of the first part. -/
def partInfo (boundary : List Byte) : Http :=
  (httpParseForm (str "--" ++ boundary ++ partHead (str "a")) (formRequest boundary)).getD {}

theorem partInfo_fields : (partInfo (str "bound")).str.boundary.cString = some (str "bound") ∧
    (partInfo (str "bound")).logic.state ≠ .none ∧ (partInfo (str "bound")).loc.formStatus = .body ∧
    (partInfo (str "bound")).loc.boundaryCnt = dashCount (str "bound") ∧
    (partInfo (str "bound")).loc.cacheBuf = [] ∧ (partInfo (str "bound")).loc.myformLabelNum = 0 ∧
    ((partInfo (str "bound")).loc.myformLabelState ≠ .begin ∧
      (partInfo (str "bound")).loc.myformLabelState ≠ .run) ∧
    (partInfo (str "bound")).arg.item ≠ none := by
  decide +kernel

theorem partInfo_start : PartStart (str "bound") (partInfo (str "bound")) := by
  have hfields := partInfo_fields
  generalize partInfo (str "bound") = info at hfields ⊢
  obtain ⟨hstored, hstate, hstatus, hcnt, hcache, -, hlabel, -⟩ := hfields
  exact ⟨⟨hstored, hstate⟩, hstatus, hcnt, ⟨rfl, fun _ => ⟨hcache, hlabel⟩, fun w hw => (by cases hw)⟩⟩

theorem part_ends_bound : Detects (str "bound") (str "a-b") 0 ∧
    PartEndsWith (partInfo (str "bound")) (str "a-b" ++ str "\r\n" ++ labelOf (str "bound")) := by
  have hdetects : Detects (str "bound") (str "a-b") 0 :=
    ⟨by decide +kernel, by decide +kernel, by decide +kernel, by decide +kernel⟩
  obtain ⟨-, -, -, -, -, hnum, -, hitem⟩ := partInfo_fields
  refine ⟨hdetects, (part_ends_iff partInfo_start (str "a-b")).mpr ⟨fun _ => hitem, ?_⟩⟩
  rw [hnum]
  exact hdetects

/-- Two dashes directly in front of the delimiter hide it, and the boundary without a line
break in front of it ends the part. -/
theorem delimiter_missed :
    (¬ str "\r\n--bound" <:+: (str "--" ++ str "\r\n" ++ labelOf (str "bound")).dropLast ∧
      ¬ PartEndsWith (partInfo (str "bound")) (str "--" ++ str "\r\n" ++ labelOf (str "bound"))) ∧
    (¬ str "\r\n--bound" <:+: (str "x--bound" ++ str "\r\n" ++ labelOf (str "bound")).dropLast ∧
      ¬ PartEndsWith (partInfo (str "bound")) (str "x--bound" ++ str "\r\n" ++ labelOf (str "bound"))) := by
  have hmissed : (parseForms (partInfo (str "bound"))
      [str "--" ++ str "\r\n" ++ labelOf (str "bound")]).map (·.loc.formStatus) = some .body := by
    decide +kernel
  have hearly : (parseForms (partInfo (str "bound")) [str "x--bound"]).map (·.loc.formStatus) =
      some .header := by
    decide +kernel
  refine ⟨⟨by decide +kernel, fun hends => ?_⟩, ⟨by decide +kernel, fun hends => ?_⟩⟩
  · obtain ⟨r, hr, hiff⟩ := hends _ (Nat.le_refl _) [str "--" ++ str "\r\n" ++ labelOf (str "bound")]
      (by rw [List.take_length, List.flatten_singleton])
    rw [hr] at hmissed
    exact absurd (hiff.mp (Option.some.inj hmissed)) (Nat.lt_irrefl _)
  · obtain ⟨r, hr, hiff⟩ := hends 8 (by decide +kernel) [str "x--bound"] (by decide +kernel)
    rw [hr] at hearly
    have hbody := hiff.mpr (by decide +kernel)
    have hheader : r.loc.formStatus = .header := Option.some.inj hearly
    rw [hheader] at hbody
    cases hbody

/-! ## Every part starts so -/

section
variable {info r : Http} {name name' : List Byte} {stop : Bool}

/-- In front of a header no window is open. -/
def HeaderIdle (info : Http) : Prop :=
  info.loc.formStatus = .header → info.loc.myformLabelState = .null

theorem formArg_loc {a : Http × Bool} (h : formArg name info = some a) : a.1.loc = info.loc := by
  unfold formArg at h
  split at h
  · dsimp only at h
    split at h
    · cases h
      rfl
    · obtain ⟨arg, -, h⟩ := Option.bind_eq_some_iff.mp h
      obtain ⟨arg', -, h⟩ := Option.bind_eq_some_iff.mp h
      cases h
      rfl
  · cases h
    rfl

theorem formFile_reader (text : List Byte) (info : Http) :
    (formFile text info).loc.formStatus = info.loc.formStatus ∧
      (formFile text info).loc.cacheBuf = info.loc.cacheBuf ∧
      (formFile text info).loc.myformLabelNum = info.loc.myformLabelNum ∧
      (formFile text info).loc.myformLabelState = info.loc.myformLabelState ∧
      (formFile text info).loc.boundaryCnt = info.loc.boundaryCnt := by
  unfold formFile
  split <;> exact ⟨rfl, rfl, rfl, rfl, rfl⟩

/-- A byte of a header leaves the label's fields as they are. -/
theorem httpWaitLineStr_reader {c : Byte} {loc loc' : HttpLocal} {text : Option (List Byte)}
    (h : httpWaitLineStr c loc = some (text, loc')) :
    loc' = { loc with cacheBuf := loc'.cacheBuf, formHeaderState := loc'.formHeaderState } ∧
      (text ≠ none → loc'.cacheBuf = []) := by
  unfold httpWaitLineStr at h
  obtain ⟨loc1, hcache, h⟩ := Option.map_eq_some_iff.mp h
  obtain ⟨-, hloc1⟩ := cacheByte_spec hcache
  rw [hloc1] at h
  repeat' split at h
  all_goals
    obtain ⟨rfl, rfl⟩ := Prod.mk.inj h
    simp

/-- The byte that ends a header starts a part. -/
theorem formHeader_starts {boundary : List Byte} {c : Byte} (h : formHeader c info name = some (r, name', stop))
    (hidle : HeaderIdle info) (hheader : info.loc.formStatus = .header) :
    HeaderIdle r ∧ (r.loc.formStatus = .body → MoreToCome boundary r →
      info.loc.boundaryCnt = dashCount boundary → PartStart boundary r) := by
  have hnull := hidle hheader
  unfold formHeader at h
  obtain ⟨⟨text, loc⟩, hline, h⟩ := Option.bind_eq_some_iff.mp h
  obtain ⟨hloc, hcache⟩ := httpWaitLineStr_reader hline
  have hstate : loc.myformLabelState = .null := by rw [hloc]; exact hnull
  cases text with
  | none =>
    cases h
    have hstatus : loc.formStatus = .header := by rw [hloc]; exact hheader
    refine ⟨fun _ => hstate, fun hbody => ?_⟩
    rw [show loc.formStatus = .body from hbody] at hstatus
    cases hstatus
  | some text =>
    obtain ⟨⟨i, stop'⟩, harg, h⟩ := Option.bind_eq_some_iff.mp h
    cases h
    have hi := formArg_loc harg
    obtain ⟨hst, hbuf, hnum, hlab, hcnt⟩ :=
      formFile_reader text { info with loc := { loc with formStatus := .body } }
    have hcache' : loc.cacheBuf = [] := hcache (Option.some_ne_none _)
    have hlabel : r.loc.myformLabelState = .null := by rw [hi, hlab]; exact hstate
    have hcnt' : r.loc.boundaryCnt = info.loc.boundaryCnt := by rw [hi, hcnt, hloc]
    refine ⟨fun _ => hlabel, fun hbody hmore hc => ⟨hmore, hbody, hcnt'.trans hc, rfl, fun _ => ⟨?_, ?_⟩, ?_⟩⟩
    · rw [hi, hbuf]
      exact hcache'
    · rw [hlabel]
      exact ⟨by decide, by decide⟩
    · intro w hw
      cases hw

/-- **In front of every header no window is open**, in every run of the loop. -/
theorem loop_headerIdle (label : List Byte) : ∀ (data : List Byte) (info r : Http) (name : List Byte)
    (stop : Bool), HeaderIdle info → httpParseFormLoop label data info name = some (r, stop) →
    HeaderIdle r := by
  intro data
  induction data with
  | nil =>
    intro info r name stop hidle h
    cases h
    exact hidle
  | cons c data ih =>
    intro info r name stop hidle h
    rw [httpParseFormLoop] at h
    cases hstatus : info.loc.formStatus with
    | begin =>
      rw [hstatus] at h
      obtain ⟨i, hbegin, h⟩ := Option.bind_eq_some_iff.mp h
      refine ih i r name stop ?_ h
      obtain ⟨⟨met, loc⟩, hlabel, rfl⟩ := Option.map_eq_some_iff.mp hbegin
      cases met with
      | true => exact fun _ => (formLabel_met hlabel).2
      | false =>
        intro hheader
        have hloc : loc.formStatus = info.loc.formStatus := by rw [(formLabel_readerOnly hlabel).eq]
        rw [show loc.formStatus = .header from hheader, hstatus] at hloc
        cases hloc
    | header =>
      rw [hstatus] at h
      obtain ⟨⟨i, name', stop'⟩, hheader, h⟩ := Option.bind_eq_some_iff.mp h
      have hi := (@formHeader_starts info i name name' stop' [] c hheader hidle hstatus).1
      cases stop' with
      | true =>
        cases h
        exact hi
      | false => exact ih i r name' stop hi h
    | body =>
      rw [hstatus] at h
      obtain ⟨i, hbody, h⟩ := Option.bind_eq_some_iff.mp h
      refine ih i r name stop ?_ h
      obtain ⟨⟨met, loc⟩, hlabel, hi⟩ := Option.bind_eq_some_iff.mp hbody
      cases met with
      | true =>
        cases hi
        exact fun _ => (formLabel_met hlabel).2
      | false =>
        intro hheader
        rw [formContent_loc hi] at hheader
        have hloc : loc.formStatus = info.loc.formStatus := by rw [(formLabel_readerOnly hlabel).eq]
        rw [show loc.formStatus = .header from hheader, hstatus] at hloc
        cases hloc

end

end WafProxy
