import WafProxy.Http.Files

/-
  When the file table lists the files of a body — http_form.c

  `http_get_empty_file` hands out 8 items, and `http_set_file` and
  `http_append_file` refuse to fill the eighth. A content is stored up to
  `HTTP_FILE_MAX_LEN` bytes and its delimiter with it, so the length of the
  delimiter is taken off a content that has lost some of it already.

  What is proved:
    1. `loop_fixed` — an item that `cur` no longer fills is not changed again.
    2. `loop_fileLost` — a file whose delimiter is not met has another length.
    3. `loop_filesDetect` — when all files are listed, every delimiter was met.
    4. `files_iff` — when the table lists the files.
-/

namespace WafProxy
open Lib

/-! ## The items behind -/

theorem HttpFileCtrl.onCur_cur (f : HttpFileCtrl) (g : HttpFile → HttpFile) : (f.onCur g).cur = f.cur := by
  unfold HttpFileCtrl.onCur
  split <;> rfl

/-- Only the item `cur` points to differs. -/
theorem HttpFileCtrl.onCur_others {f : HttpFileCtrl} {k : Nat} (hk : f.cur ≠ some k) (g : HttpFile → HttpFile) :
    (f.onCur g).file[k]? = f.file[k]? := by
  unfold HttpFileCtrl.onCur
  split
  next i hi =>
    have hne : i ≠ k := fun heq => hk (by rw [hi, heq])
    simp [hne]
  next => rfl

/-- The `k`-th item is behind: `cur` does not fill it. -/
structure FileFixed (k : Nat) (item : HttpFile) (info : Http) : Prop where
  started : info.loc.formStatus ≠ .begin
  item : info.file.file[k]? = some item
  idle : info.loc.formFlag = .file → info.file.cur ≠ some k

section
variable {info r : Http} {label : List Byte} {c : Byte} {k : Nat} {item : HttpFile}

theorem formCutFile_others (hk : info.file.cur ≠ some k) (d : Nat) :
    (formCutFile d info).file.cur = info.file.cur ∧
      (formCutFile d info).file.file[k]? = info.file.file[k]? := by
  unfold formCutFile
  split
  · exact ⟨rfl, rfl⟩
  · split
    · exact ⟨HttpFileCtrl.onCur_cur _ _, HttpFileCtrl.onCur_others hk _⟩
    · exact ⟨rfl, rfl⟩

theorem httpAppendFile_others {f f' : HttpFileCtrl} (hk : f.cur ≠ some k) (h : httpAppendFile c f = some f') :
    f'.cur = f.cur ∧ f'.file[k]? = f.file[k]? := by
  unfold httpAppendFile at h
  split at h
  · cases h
    exact ⟨rfl, rfl⟩
  · split at h
    · cases h
      exact ⟨rfl, rfl⟩
    · split at h
      · cases h
        exact ⟨HttpFileCtrl.onCur_cur _ _, HttpFileCtrl.onCur_others hk _⟩
      · obtain ⟨v, -, rfl⟩ := Option.map_eq_some_iff.mp h
        exact ⟨HttpFileCtrl.onCur_cur _ _, HttpFileCtrl.onCur_others hk _⟩

theorem formContent_others (hk : info.loc.formFlag = .file → info.file.cur ≠ some k)
    (h : formContent c info = some r) :
    r.file.cur = info.file.cur ∧ r.file.file[k]? = info.file.file[k]? := by
  unfold formContent at h
  split at h
  next hflag =>
    have hcur := hk hflag
    split at h
    · cases h
      exact ⟨rfl, rfl⟩
    · split at h
      · cases h
        exact ⟨rfl, rfl⟩
      · dsimp only at h
        have hnext :
            (info.file.onCur fun item => { item with rawFileLen := item.rawFileLen + 1 }).cur ≠ some k := by
          rw [HttpFileCtrl.onCur_cur]
          exact hcur
        split at h
        · cases h
          refine ⟨?_, ?_⟩
          · show HttpFileCtrl.cur _ = _
            rw [HttpFileCtrl.onCur_cur, HttpFileCtrl.onCur_cur]
          · show (HttpFileCtrl.file _)[k]? = _
            rw [HttpFileCtrl.onCur_others hnext, HttpFileCtrl.onCur_others hcur]
        · obtain ⟨file, happend, rfl⟩ := Option.map_eq_some_iff.mp h
          obtain ⟨hcur', hothers⟩ := httpAppendFile_others hnext happend
          exact ⟨hcur'.trans (HttpFileCtrl.onCur_cur _ _), hothers.trans (HttpFileCtrl.onCur_others hcur _)⟩
  next =>
    obtain ⟨arg, -, rfl⟩ := Option.map_eq_some_iff.mp h
    exact ⟨rfl, rfl⟩

/-- A head leaves the items behind it alone, and `cur` on none of them. -/
theorem formFile_others (text : List Byte) (hk : k < info.file.file.length)
    (hcur : info.loc.formFlag = .file → info.file.cur ≠ some k) :
    (formFile text info).file.file[k]? = info.file.file[k]? ∧
      ((formFile text info).loc.formFlag = .file → (formFile text info).file.cur ≠ some k) := by
  have hempty : (httpGetEmptyFile info.file).cur ≠ some k ∧
      (httpGetEmptyFile info.file).file[k]? = info.file.file[k]? := by
    unfold httpGetEmptyFile
    split
    · exact ⟨fun h => (by cases h), rfl⟩
    · refine ⟨fun h => ?_, List.getElem?_append_left hk⟩
      have heq := Option.some.inj h
      omega
  unfold formFile
  split
  · exact ⟨rfl, hcur⟩
  · exact ⟨rfl, hcur⟩
  · dsimp only
    have hnext :
        ((httpGetEmptyFile info.file).onCur fun item => { item with completeFlag := false }).cur ≠ some k := by
      rw [HttpFileCtrl.onCur_cur]
      exact hempty.1
    unfold httpSetFile
    split
    · exact ⟨(HttpFileCtrl.onCur_others hempty.1 _).trans hempty.2, fun _ => hnext⟩
    · refine ⟨?_, fun _ => ?_⟩
      · rw [HttpFileCtrl.onCur_others hnext, HttpFileCtrl.onCur_others hempty.1, hempty.2]
      · rw [HttpFileCtrl.onCur_cur]
        exact hnext

theorem formArg_file {name : List Byte} {a : Http × Bool} (h : formArg name info = some a) :
    a.1.file = info.file := by
  unfold formArg at h
  split at h
  · dsimp only at h
    split at h
    · cases h
      rfl
    · obtain ⟨a1, -, h⟩ := Option.bind_eq_some_iff.mp h
      obtain ⟨a2, -, h⟩ := Option.bind_eq_some_iff.mp h
      cases h
      rfl
  · cases h
    rfl

theorem fileFixed_header {name name' : List Byte} {stop : Bool} (h : FileFixed k item info)
    (hheader : info.loc.formStatus = .header) (hrun : formHeader c info name = some (r, name', stop)) :
    FileFixed k item r := by
  have hstarted := formHeader_started hheader hrun
  unfold formHeader at hrun
  obtain ⟨⟨text, loc⟩, hline, hrun⟩ := Option.bind_eq_some_iff.mp hrun
  have hloc := (httpWaitLineStr_reader hline).1
  have hflag : loc.formFlag = info.loc.formFlag := by rw [hloc]
  cases text with
  | none =>
    cases hrun
    exact ⟨hstarted, h.item, fun hfile => h.idle (hflag ▸ hfile)⟩
  | some text =>
    obtain ⟨⟨i, stop'⟩, harg, hrun⟩ := Option.bind_eq_some_iff.mp hrun
    cases hrun
    obtain ⟨hlt, -⟩ := List.getElem?_eq_some_iff.mp h.item
    obtain ⟨hsame, hidle⟩ := @formFile_others { info with loc := { loc with formStatus := .body } } k text hlt
      fun hfile => h.idle (hflag ▸ hfile)
    have hfile := formArg_file harg
    have hi := formArg_loc harg
    dsimp only at hfile hi
    refine ⟨hstarted, ?_, fun hr => ?_⟩
    · rw [hfile]
      exact hsame.trans h.item
    · rw [hfile]
      exact hidle (by rw [← hi]; exact hr)

theorem fileFixed_body (h : FileFixed k item info) (hbody : info.loc.formStatus = .body)
    (hrun : formBody label c info = some r) : FileFixed k item r := by
  have hstarted := formBody_started hbody hrun
  unfold formBody at hrun
  obtain ⟨⟨met, loc⟩, hlabel, hrun⟩ := Option.bind_eq_some_iff.mp hrun
  have honly := formLabel_readerOnly hlabel
  have hflag : loc.formFlag = info.loc.formFlag := by rw [honly.eq]
  have hidle : loc.formFlag = .file → info.file.cur ≠ some k := fun hfile => h.idle (hflag ▸ hfile)
  cases met with
  | true =>
    simp only [if_true] at hrun
    cases hrun
    refine ⟨hstarted, ?_, fun hfile => by cases hfile⟩
    split
    next hfile =>
      exact (@formCutFile_others { info with loc := loc } k (hidle hfile) _).2.trans h.item
    next =>
      split
      · exact h.item
      · exact h.item
  | false =>
    simp only [Bool.false_eq_true, if_false] at hrun
    obtain ⟨hcur, hothers⟩ := @formContent_others { info with loc := loc } r c k hidle hrun
    refine ⟨hstarted, hothers.trans h.item, fun hfile => ?_⟩
    rw [hcur]
    rw [formContent_loc hrun] at hfile
    exact hidle hfile

/-- **An item that is behind stays as it is.** -/
theorem loop_fixed {data name : List Byte} {stop : Bool} (h : FileFixed k item info)
    (hrun : httpParseFormLoop label data info name = some (r, stop)) : FileFixed k item r :=
  loop_induct (fun _ hi => hi.started)
    (fun _ _ _ _ _ _ hi hheader hstep => fileFixed_header hi hheader hstep)
    (fun _ _ _ hi hbody hstep => fileFixed_body hi hbody hstep) data info r name stop h hrun

/-- What a call leaves of the files. -/
def finalFiles (label : List Byte) (r : Http) (stop : Bool) : List FileEntry :=
  (if stop then r else formEnd label r).file.file.map HttpFile.entry

theorem formEnd_file (hflag : r.loc.formFlag = .arg) : (formEnd label r).file = r.file := by
  unfold formEnd formCutArg
  rw [if_neg (show ¬ r.loc.formFlag = .file by rw [hflag]; decide)]
  split
  · split <;> rfl
  · rfl

theorem finalFiles_fixed (h : FileFixed k item r) (stop : Bool) :
    (finalFiles label r stop)[k]? = some item.entry := by
  have hitem : (if stop then r else formEnd label r).file.file[k]? = some item := by
    cases stop with
    | true => exact h.item
    | false =>
      simp only [Bool.false_eq_true, if_false]
      cases hflag : r.loc.formFlag with
      | arg =>
        rw [formEnd_file hflag]
        exact h.item
      | file =>
        unfold formEnd
        split
        · rw [(formCutFile_others (h.idle hflag) _).2]
          exact h.item
        · exact h.item
  rw [finalFiles, List.getElem?_map, hitem]
  rfl

end

/-! ## A delimiter that is not met -/

section
variable {boundary : List Byte} {flags : DecodeFlag} {n t : Nat} {files : List FileEntry} {info r : Http}
variable {done : List HttpFile} {name : XStr} {v rest nm : List Byte} {p : FormPart} {stop : Bool}

/-- The first window that is the label. -/
theorem windows_first {text : List Byte} : ∀ {s : WindowReader Byte}, labelRest boundary ∈ windows boundary text s →
    ∃ a c b, text = a ++ c :: b ∧ labelRest boundary ∉ windows boundary a s ∧
      (labelStep boundary c (labelAfter boundary a s)).1 = some (labelRest boundary) := by
  -- on the text, with the reader as it is in front of it
  induction text with
  | nil =>
    intro s h
    cases h
  | cons x text ih =>
    intro s h
    by_cases hmet : (labelStep boundary x s).1 = some (labelRest boundary)
    · exact ⟨[], x, text, rfl, List.not_mem_nil, hmet⟩
    · obtain ⟨a, c, b, htext, hno, hlast⟩ := ih ((mem_windows_cons.mp h).resolve_left hmet)
      refine ⟨x :: a, c, b, by rw [htext, List.cons_append], ?_, hlast⟩
      rw [mem_windows_cons, not_or]
      exact ⟨hmet, hno⟩

/-- A label that is met with the last byte of a delimiter, and not earlier, is met there. -/
theorem detects_of_first {a : List Byte} {c : Byte} {b : List Byte} (hne : labelRest boundary ≠ [])
    (hsplit : delimited boundary v ++ rest = a ++ c :: b)
    (hno : labelRest boundary ∉ windows boundary a ⟨t, none⟩)
    (hmet : (labelStep boundary c (labelAfter boundary a ⟨t, none⟩)).1 = some (labelRest boundary))
    (hlen : a.length + 1 = (delimited boundary v).length) : Detects boundary v t := by
  have hdel : delimited boundary v = a ++ [c] := by
    have htake := congrArg (List.take (a.length + 1)) hsplit
    rwa [hlen, List.take_left' rfl, ← hlen, List.take_append, List.take_of_length_le (Nat.le_succ _),
      Nat.add_sub_cancel_left, List.take_succ_cons, List.take_zero] at htake
  refine (found_iff_detects hne).mp fun j hj => ?_
  rw [show v ++ str "\r\n" ++ labelOf boundary = a ++ [c] from hdel] at hj ⊢
  rw [List.length_append, List.length_singleton] at hj ⊢
  constructor
  · intro hmem
    by_contra hlt
    rw [List.take_append_of_le_length (by omega)] at hmem
    exact hno (WindowReader.closed_take _ hmem)
  · rintro rfl
    rw [List.take_of_length_le (by rw [List.length_append, List.length_singleton]),
      WindowReader.closed_append, List.mem_append]
    exact Or.inr (mem_windows_cons.mpr (Or.inl hmet))

/-- **A file whose delimiter is not met** has another length than its content. -/
theorem loop_fileLost (h : InBody boundary info ⟨t, none⟩) (hi : FileContent flags n done name [] info)
    (hne : labelRest boundary ≠ [])
    (hregular : ¬ List.replicate (dashCount boundary) (ch '-') <:+: labelRest boundary)
    (hno : ¬ Detects boundary v t) (hrest : rest ≠ [])
    (hrun : httpParseFormLoop (labelOf boundary) (delimited boundary v ++ rest) info nm = some (r, stop)) :
    ∃ e, (finalFiles (labelOf boundary) r stop)[done.length]? = some e ∧ e.name = name.p.getD [] ∧
      (done.length < 7 → e.rawFileLen ≠ v.length) := by
  have hreader : ∀ w i loc, ReaderOnly i.loc loc → FileContent flags n done name w i →
      FileContent flags n done name w { i with loc := loc } := fun _ _ _ honly h => h.of_readerOnly honly
  have hbyte : ∀ w c i r, FileContent flags n done name w i → formContent c i = some r →
      FileContent flags n done name (w ++ [c]) r := fun _ _ _ _ h hstored => h.byte hstored
  have hdel := delimited_length boundary v
  have hpos := List.length_pos_iff.mpr hrest
  have hv : v ≠ [] := by
    rintro rfl
    exact hno (detects_of_quiet hne hregular rfl)
  have hvpos := List.length_pos_iff.mpr hv
  -- the label is met elsewhere, or nowhere in what is left
  by_cases hmem : labelRest boundary ∈ windows boundary (delimited boundary v ++ rest) ⟨t, none⟩
  · obtain ⟨a, c, b, hsplit, hfirst, hmet⟩ := windows_first hmem
    have hlen : a.length + 1 ≠ (delimited boundary v).length :=
      fun heq => hno (detects_of_first hne hsplit hfirst hmet heq)
    have ha : a ≠ [] := by
      rintro rfl
      exact windows_idle c hmet
    obtain ⟨i, hloop, hbody, hi'⟩ := @loop_stored boundary (FileContent flags n done name) hne hreader hbyte
      (c :: b) nm a [] info _ h hi hfirst
    obtain ⟨loc, hend, -, honly⟩ := loop_met hbody hne hmet b nm
    rw [hsplit, hloop, hend] at hrun
    rw [List.nil_append] at hi'
    obtain ⟨item, hfile, hentry⟩ := formMet_file (hi'.of_readerOnly honly) ha (labelOf boundary)
    have hfixed : FileFixed done.length item (formMet (labelOf boundary) { i with loc := loc }) := by
      refine ⟨fun hst => (by cases hst), ?_, fun hflag => (by cases hflag)⟩
      rw [hfile]
      simp [filesWith]
    refine ⟨_, finalFiles_fixed (loop_fixed hfixed hrun) stop, ?_, fun hk => ?_⟩
    · rw [hentry]
      rfl
    · rw [hentry]
      show (if 7 ≤ done.length then _ else _) ≠ _
      rw [if_neg (by omega)]
      omega
  · obtain ⟨i, hloop, -, hi'⟩ := @loop_stored boundary (FileContent flags n done name) hne hreader hbyte [] nm
      _ [] info _ h hi hmem
    rw [List.append_nil] at hloop
    rw [hloop] at hrun
    cases hrun
    rw [List.nil_append] at hi'
    have hcons : delimited boundary v ++ rest ≠ [] := List.append_ne_nil_of_right_ne_nil _ hrest
    have hlen : (delimited boundary v ++ rest).length = v.length + 2 + (labelOf boundary).length + rest.length := by
      rw [List.length_append, hdel]
    by_cases hstate : r.logic.state = .none
    · -- the end of the message takes a label off
      obtain ⟨item, hfile, hentry⟩ := formCutFile_content hi' hcons ((labelOf boundary).length + 2)
      have hend : formEnd (labelOf boundary) r = formCutFile ((labelOf boundary).length + 2) r := by
        unfold formEnd
        rw [if_pos hstate, if_pos hi'.flag]
      refine ⟨item.entry, ?_, by rw [hentry]; rfl, fun hk => ?_⟩
      · simp [finalFiles, hend, hfile, filesWith]
      · rw [hentry]
        show (if 7 ≤ done.length then _ else _) ≠ _
        rw [if_neg (by omega)]
        omega
    · obtain ⟨complete, hfile⟩ := hi'.item
      have hend : formEnd (labelOf boundary) r = r := by
        unfold formEnd
        rw [if_neg hstate]
      refine ⟨(fileItem done.length name (delimited boundary v ++ rest) complete).entry, ?_, rfl, fun _ => ?_⟩
      · simp [finalFiles, hend, hfile, filesWith]
      · show (((delimited boundary v ++ rest).length : Nat) : Int) ≠ _
        omega

theorem formFiles_nil {parts : List FormPart} (h : formFiles parts = []) : ∀ p ∈ parts, p.file = none := by
  intro p hp
  have hnone := List.filterMap_eq_nil_iff.mp h p hp
  rwa [FormPart.entry, Option.map_eq_none_iff] at hnone

/-- Behind a file there is something. -/
theorem formTail_ne (parts : List FormPart) :
    labelTail boundary ++ formTail boundary (parts.map FormPart.toPart) ≠ [] := by
  refine List.append_ne_nil_of_right_ne_nil _ ?_
  cases parts with
  | nil => exact List.cons_ne_nil _ _
  | cons q parts =>
    rw [List.map_cons, formTail_cons]
    obtain ⟨rest, hcons⟩ := q.toPart.head_cons
    rw [hcons]
    exact List.cons_ne_nil _ _

/-- The delimiter of a file that is listed was met. -/
theorem detects_of_listed (hb : BoundaryOk boundary) (hne : labelRest boundary ≠ [])
    (hregular : ¬ List.replicate (dashCount boundary) (ch '-') <:+: labelRest boundary) {f : FileName}
    {parts : List FormPart} (h : BetweenParts boundary flags n files (labelMarks boundary) info)
    (hp : p.Ok) (hfile : p.file = some f)
    (hread : p.readName boundary = some f.name) (hroom : files.length < 8)
    (hrun : httpParseFormLoop (labelOf boundary) (labelTail boundary ++ p.head ++ (delimited boundary p.value ++
      (labelTail boundary ++ formTail boundary (parts.map FormPart.toPart)))) info nm = some (r, stop))
    (hlisted : (finalFiles (labelOf boundary) r stop).drop files.length = formFiles (p :: parts)) :
    Detects boundary p.value (labelMarks boundary) := by
  by_contra hno
  obtain ⟨i, hhead, hbody, hi⟩ := @loop_fileHead boundary flags n _ files info (delimited boundary p.value ++
    (labelTail boundary ++ formTail boundary (parts.map FormPart.toPart))) p nm hb h hp _ hread hroom
  rw [hhead] at hrun
  obtain ⟨e, he, hename, heraw⟩ := loop_fileLost hbody hi hne hregular hno (formTail_ne parts) hrun
  have hlen : info.file.file.length = files.length := by
    rw [← h.files, List.length_map]
  have hentry := congrArg (fun l => l[0]?) hlisted
  rw [formFiles_file hfile] at hentry
  simp only [List.getElem?_drop, Nat.add_zero, List.getElem?_cons_zero, ← hlen, he] at hentry
  cases hentry
  -- the eighth file has no name, every other one another length
  rcases Nat.lt_or_ge info.file.file.length 7 with hlt | hlast
  · exact heraw hlt rfl
  · unfold keptName at hename
    rw [if_pos (hlen ▸ hlast)] at hename
    exact (hp.file f hfile).2 hename

/-- **When all files are listed, every delimiter was met**, those of the other parts given. -/
theorem loop_filesDetect (hb : BoundaryOk boundary) (hne : labelRest boundary ≠ [])
    (hregular : ¬ List.replicate (dashCount boundary) (ch '-') <:+: labelRest boundary) :
    ∀ (parts : List FormPart) (files : List FileEntry) (n : Nat) (info : Http) (nm : List Byte),
      BetweenParts boundary flags n files (labelMarks boundary) info → nm.length < 4000 →
      files.length + (formFiles parts).length ≤ 8 → (∀ p ∈ parts, p.Ok) →
      (∀ p ∈ parts, p.file = none → Detects boundary p.value (labelMarks boundary)) →
      (∀ p ∈ parts, ∀ f ∈ p.file, f.Cached boundary) →
      httpParseFormLoop (labelOf boundary)
        (labelTail boundary ++ formTail boundary (parts.map FormPart.toPart)) info nm = some (r, stop) →
      (finalFiles (labelOf boundary) r stop).drop files.length = formFiles parts →
      ∀ p ∈ parts, Detects boundary p.value (labelMarks boundary) := by
  intro parts
  -- on the parts; the files recorded so far stay in the front of the list
  induction parts with
  | nil =>
    intro _ _ _ _ _ _ _ _ _ _ _ _ p hp
    cases hp
  | cons p parts ih =>
    intro files n info nm h hname hcount hok hfields hcached hrun hlisted
    obtain ⟨hp, hok⟩ := List.forall_mem_cons.mp hok
    obtain ⟨hd, hfields'⟩ := List.forall_mem_cons.mp hfields
    obtain ⟨hc, hcached⟩ := List.forall_mem_cons.mp hcached
    rw [List.map_cons, formTail_cons, ← List.append_assoc] at hrun
    cases hfile : p.file with
    | none =>
      have hread := @readName_field boundary p hfile
      have hfiles := formFiles_field hfile parts
      rw [hfiles] at hcount hlisted
      by_cases hroom : n < 32
      · obtain ⟨i, hpart, hi⟩ := @loop_fieldPart boundary flags n _ files info
          (labelTail boundary ++ formTail boundary (parts.map FormPart.toPart)) p nm hb h hp hread hname
          hroom (hd hfile)
        rw [hpart] at hrun
        exact List.forall_mem_cons.mpr ⟨hd hfile,
          ih files (n + 1) i _ hi (partName_length hname) hcount hok hfields' hcached hrun hlisted⟩
      · -- the parsing ends here, so no file is behind
        have hhead := @loop_fieldHead boundary flags n _ files info (delimited boundary p.value ++
          (labelTail boundary ++ formTail boundary (parts.map FormPart.toPart))) p nm hb h hp hread hname
        rw [if_neg hroom] at hhead
        obtain ⟨r', hhead, hr'⟩ := hhead
        rw [hhead] at hrun
        cases hrun
        have hnone : formFiles (p :: parts) = [] := by
          rw [hfiles, ← hlisted, finalFiles, if_pos rfl, hr', List.drop_length]
        exact fun q hq => hfields q hq (formFiles_nil hnone q hq)
    | some f =>
      have hread := readName_file hfile (hc f hfile)
      have hroom : files.length < 8 := by
        rw [formFiles_read hread] at hcount
        omega
      have hdet := detects_of_listed hb hne hregular h hp hfile hread hroom hrun hlisted
      obtain ⟨i, hpart, hi⟩ := @loop_filePart boundary flags n _ files info
        (labelTail boundary ++ formTail boundary (parts.map FormPart.toPart)) p nm hb h hp _ hread hroom hdet
      rw [hpart] at hrun
      have hnext : (finalFiles (labelOf boundary) r stop).drop
          (files ++ [recordedFile boundary flags files.length f.name p.value]).length = formFiles parts := by
        rw [List.length_append, List.length_singleton, ← List.drop_drop, hlisted,
          formFiles_file hfile, List.drop_one, List.tail_cons]
      rw [formFiles_read hread] at hcount
      exact List.forall_mem_cons.mpr ⟨hdet, ih _ n i _ hi (partName_length hname)
        (by rw [List.length_append, List.length_singleton]; omega) hok hfields' hcached hrun hnext⟩

/-! ## A body in one packet -/

/-- The parser in front of a multipart body of `len` bytes, with which the message ends; no file is
recorded yet. -/
structure FilesStart (boundary : List Byte) (len : Nat) (info : Http) : Prop where
  stored : info.str.boundary.cString = some boundary
  type : info.logic.contentType = .multiform
  notChunked : info.logic.isChunked = false
  left : toInt32 (info.loc.unRecvContentLen - len) ≤ 0
  before : BeforeLabel boundary ⟨0, none⟩ info.loc
  room : info.arg.maxNum = 32
  empty : info.file.file = []

/-- A body in one packet is one call of `http_parse_form`, at the end of the message. -/
theorem FilesStart.parse {data : List Byte} (h : FilesStart boundary data.length info) (hne : data ≠ []) :
    ∃ i, parseBody info data = httpParseForm data i ∧ BeforeLabel boundary ⟨0, none⟩ i.loc ∧
      FormTables info.tmpFlag info.arg.arg.length [] i ∧ formLabelText i = some (labelOf boundary) := by
  obtain ⟨httpInt, left, hbody⟩ := parseBody_form hne h.type h.notChunked h.left
  refine ⟨_, hbody, ?_, ⟨rfl, h.room, rfl, ?_⟩, ?_⟩
  · exact ⟨h.before.status, h.before.flag, h.before.line, h.before.cnt,
      ⟨h.before.reads.num, h.before.reads.idle, fun w hw => by cases hw⟩, h.before.sound⟩
  · show info.file.file.map HttpFile.entry = []
    rw [h.empty]
    rfl
  · unfold formLabelText
    rw [h.stored]
    rfl

/-- **A head read by a zeroed parser leaves it so**, when it names the boundary. -/
theorem filesStart_head {head : List Byte}
    (h : (httpParseHead head.length Http.zero).run (Memory.ofList head) = some info)
    (hstored : info.str.boundary.cString = some boundary) (htype : info.logic.contentType = .multiform)
    (hchunked : info.logic.isChunked = false) (hcnt : info.loc.boundaryCnt = dashCount boundary)
    (hroom : info.arg.maxNum = 32) {len : Nat} (hlen : len ≤ 2 ^ 31) : FilesStart boundary len info := by
  obtain ⟨hbefore, hleft, hfile⟩ := head_leaves h hcnt hlen
  exact ⟨hstored, htype, hchunked, hleft, hbefore, hroom, hfile⟩

theorem formText_ne_nil (boundary : List Byte) (parts : List Part) : formText boundary parts ≠ [] :=
  List.cons_ne_nil _ _

/-- The label is met when it has a rest, and no run of dashes in it. -/
def LabelMet (boundary : List Byte) : Prop :=
  labelRest boundary ≠ [] ∧ ¬ List.replicate (dashCount boundary) (ch '-') <:+: labelRest boundary

theorem LabelMet.other (h : LabelMet boundary) : ∃ c ∈ boundary, c ≠ ch '-' := by
  have hne := h.1
  rw [labelRest_eq] at hne
  have hdrop : boundary.dropWhile (· = ch '-') ≠ [] := by
    intro hnil
    rw [hnil, List.take_nil] at hne
    exact hne rfl
  simpa [List.dropWhile_eq_nil_iff] using hdrop

/-- The parsing of a body whose label is met, from the first label on. -/
theorem parse_met {parts : List FormPart}
    (h : FilesStart boundary (formText boundary (parts.map FormPart.toPart)).length info)
    (hmet : LabelMet boundary) :
    ∃ i, BetweenParts boundary info.tmpFlag info.arg.arg.length [] (labelMarks boundary) i ∧
      parseBody info (formText boundary (parts.map FormPart.toPart)) =
        (httpParseFormLoop (labelOf boundary)
          (labelTail boundary ++ formTail boundary (parts.map FormPart.toPart)) i []).map fun out =>
            if out.2 then out.1 else formEnd (labelOf boundary) out.1 := by
  obtain ⟨i, hbody, hbefore, htables, hlabelText⟩ := h.parse (formText_ne_nil _ _)
  obtain ⟨loc, hlabel, hbehind⟩ := @loop_firstLabel boundary i
    (labelTail boundary ++ formTail boundary (parts.map FormPart.toPart)) hbefore hmet.1 hmet.2 []
  refine ⟨{ i with loc := loc }, ⟨⟨htables.flags, htables.room, htables.args, htables.files⟩, hbehind⟩, ?_⟩
  rw [hbody]
  unfold httpParseForm
  rw [hlabelText, formText, label_split, List.append_assoc]
  simp only [Option.bind_eq_bind, Option.bind_some, hlabel]
  rw [Option.map_eq_bind]
  rfl

/-- **What the table holds** of a body whose delimiters are all met. -/
theorem form_files (hb : BoundaryOk boundary) {parts : List FormPart}
    (h : FilesStart boundary (formText boundary (parts.map FormPart.toPart)).length info) (hmet : LabelMet boundary)
    (hcount : (formFiles parts).length ≤ 8) (hok : ∀ p ∈ parts, p.Ok)
    (hdet : ∀ p ∈ parts, Detects boundary p.value (labelMarks boundary)) :
    ∃ r, parseBody info (formText boundary (parts.map FormPart.toPart)) = some r ∧
      r.file.file.map HttpFile.entry = recordedFiles boundary info.tmpFlag 0 info.arg.arg.length parts := by
  obtain ⟨i, hi, hbody⟩ := parse_met h hmet
  obtain ⟨r, stop, hloop, hr⟩ := loop_files hb parts [] _ i [] hi (by decide)
    (by rw [List.length_nil, Nat.zero_add]; exact hcount) hok hdet
  rw [hbody, hloop]
  refine ⟨_, rfl, ?_⟩
  cases stop with
  | true => exact hr.files
  | false =>
    simp only [Bool.false_eq_true, if_false]
    rw [formEnd_file (hr.flag rfl)]
    exact hr.files

/-- A label that cannot be met leaves the table empty. -/
theorem form_noFiles {parts : List FormPart}
    (h : FilesStart boundary (formText boundary (parts.map FormPart.toPart)).length info)
    (hunmet : ¬ LabelMet boundary) :
    ∃ r, parseBody info (formText boundary (parts.map FormPart.toPart)) = some r ∧ r.file.file = [] := by
  obtain ⟨i, hbody, hbefore, htables, hlabelText⟩ := h.parse (formText_ne_nil _ _)
  have hunmet' : labelRest boundary = [] ∨
      List.replicate (dashCount boundary) (ch '-') <:+: labelRest boundary := by
    by_contra hno
    rw [not_or] at hno
    exact hunmet hno
  obtain ⟨loc, hloop, hflag⟩ := loop_unmet hbefore hunmet' (formText boundary (parts.map FormPart.toPart)) []
  refine ⟨formEnd (labelOf boundary) { i with loc := loc }, ?_, ?_⟩
  · rw [hbody]
    unfold httpParseForm
    rw [hlabelText]
    simp only [Option.bind_eq_bind, Option.bind_some, hloop, Bool.false_eq_true, if_false]
  · rw [@formEnd_file { i with loc := loc } _ hflag]
    exact List.map_eq_nil_iff.mp htables.files

/-! ## When the table lists the files -/

/-- When the files of a body are recorded. -/
structure FilesKept (boundary : List Byte) (info : Http) (parts : List FormPart) : Prop where
  /-- the eighth file is not filled -/
  count : (formFiles parts).length ≤ 7
  kept : ∀ p ∈ parts, ∀ f ∈ p.file, FileKept boundary info.tmpFlag f p.value
  fields : FieldsPlaced info.arg.arg.length parts
  met : formFiles parts ≠ [] → LabelMet boundary
  /-- every delimiter is met, with the dashes of the label in front counted -/
  detects : LabelMet boundary → ∀ p ∈ parts, Detects boundary p.value (labelMarks boundary)

/-- A label that does not end in a dash leaves none counted. -/
theorem labelMarks_zero (hne : labelRest boundary ≠ []) (hlast : (labelOf boundary).getLast? ≠ some (ch '-')) :
    labelMarks boundary = 0 := by
  obtain ⟨front, c, hrest⟩ : ∃ front c, labelRest boundary = front ++ [c] :=
    ⟨_, _, (List.dropLast_concat_getLast hne).symm⟩
  have hc : c ≠ ch '-' := by
    rintro rfl
    refine hlast ?_
    rw [labelOf_eq hne, hrest, ← List.append_assoc, List.getLast?_concat]
  rw [labelMarks, hrest, WindowReader.marksAfter_concat, WindowReader.count_other hc]

/-- Behind such a label every delimiter is met whose content has no run of dashes. -/
theorem detects_of_noRun (hmet : LabelMet boundary) (hlast : (labelOf boundary).getLast? ≠ some (ch '-'))
    (hrun : ¬ List.replicate (dashCount boundary) (ch '-') <:+: v) :
    Detects boundary v (labelMarks boundary) := by
  rw [labelMarks_zero hmet.1 hlast]
  refine detects_of_quiet hmet.1 hmet.2 ((WindowReader.quiet_iff (dashCount_pos boundary)).mpr ?_)
  rwa [List.replicate_zero, List.nil_append]

/-- The bodies in question: at most eight files, with heads that `cache_buf` holds and contents
without the delimiter and without a run of dashes. -/
structure FilesSent (boundary : List Byte) (parts : List FormPart) : Prop where
  ok : ∀ p ∈ parts, p.Ok
  count : (formFiles parts).length ≤ 8
  names : ∀ p ∈ parts, ∀ f ∈ p.file, f.name.length < 512
  heads : ∀ p ∈ parts, p.head.length ≤ 511
  noDelimiter : ∀ p ∈ parts, ¬ str "\r\n--" ++ boundary <:+: p.value
  noRun : ∀ p ∈ parts, ¬ List.replicate (dashCount boundary) (ch '-') <:+: p.value

/-- A head of up to 511 bytes is cached whole when `label` has room for the boundary. -/
theorem cached_of_head {f : FileName} (hf : f.Of p.head) (hhead : p.head.length ≤ 511)
    (hshort : boundary.length ≤ 253) : f.Cached boundary := by
  have htail : labelTail boundary = [] := by
    rw [labelTail, List.drop_eq_nil_iff, List.length_append, show (str "--").length = 2 from rfl]
    omega
  have hle := hf.found.length_le
  unfold FileName.Cached
  rw [htail, List.nil_append]
  omega

/-- **When the table lists the files**: at most seven, each with a name that is not decoded again
and a content that fits with its delimiter. The other direction is for boundaries that do not end
in a dash, and for bodies of which the delimiters behind the fields are met. -/
theorem files_iff (hline : LineText boundary) (hunquoted : ch '"' ∉ boundary) {parts : List FormPart}
    (h : FilesStart boundary (formText boundary (parts.map FormPart.toPart)).length info)
    (hsent : FilesSent boundary parts) :
    (FilesKept boundary info parts →
      ∃ r, parseBody info (formText boundary (parts.map FormPart.toPart)) = some r ∧ FilesListed parts r) ∧
    ((labelOf boundary).getLast? ≠ some (ch '-') ∨
        (∀ p ∈ parts, (p.file = none → Detects boundary p.value (labelMarks boundary)) ∧
          ∀ f ∈ p.file, f.Cached boundary) →
      (∃ r, parseBody info (formText boundary (parts.map FormPart.toPart)) = some r ∧ FilesListed parts r) →
      FilesKept boundary info parts) := by
  have hb : LabelMet boundary → BoundaryOk boundary := fun hmet => ⟨hline, hunquoted, hmet.other⟩
  have hlisted : ∀ r, LabelMet boundary → (∀ p ∈ parts, Detects boundary p.value (labelMarks boundary)) →
      parseBody info (formText boundary (parts.map FormPart.toPart)) = some r → (FilesListed parts r ↔
        0 + (formFiles parts).length ≤ 7 ∧
          (∀ p ∈ parts, ∀ f ∈ p.file, FileKept boundary info.tmpFlag f p.value) ∧
          FieldsPlaced info.arg.arg.length parts) := by
    intro r hmet hdet hr
    obtain ⟨r', hr', hfiles⟩ := form_files (hb hmet) h hmet hsent.count hsent.ok hdet
    obtain rfl := Option.some.inj (hr'.symm.trans hr)
    rw [FilesListed, hfiles, recordedFiles_iff parts 0 _ (by decide) hsent.ok]
  by_cases hmet : LabelMet boundary
  · constructor
    · intro hkept
      obtain ⟨r, hr, -⟩ := form_files (hb hmet) h hmet hsent.count hsent.ok (hkept.detects hmet)
      refine ⟨r, hr, (hlisted r hmet (hkept.detects hmet) hr).mpr ⟨?_, hkept.kept, hkept.fields⟩⟩
      rw [Nat.zero_add]
      exact hkept.count
    · rintro hside ⟨r, hr, hall⟩
      have hdet : ∀ p ∈ parts, Detects boundary p.value (labelMarks boundary) := by
        rcases hside with hlast | hread
        · exact fun p hp => detects_of_noRun hmet hlast (hsent.noRun p hp)
        · obtain ⟨i, hi, hbody⟩ := parse_met h hmet
          rw [hbody] at hr
          obtain ⟨⟨r', stop⟩, hloop, rfl⟩ := Option.map_eq_some_iff.mp hr
          refine loop_filesDetect (hb hmet) hmet.1 hmet.2 parts [] _ i [] hi (by decide)
            (by rw [List.length_nil, Nat.zero_add]; exact hsent.count) hsent.ok (fun p hp => (hread p hp).1)
            (fun p hp => (hread p hp).2) hloop ?_
          rw [List.length_nil, List.drop_zero]
          exact hall
      obtain ⟨hseven, hkept, hfit⟩ := (hlisted r hmet hdet hr).mp hall
      exact ⟨by rwa [Nat.zero_add] at hseven, hkept, hfit, fun _ => hmet, fun _ => hdet⟩
  · obtain ⟨r, hr, hempty⟩ := form_noFiles h hmet
    have hnone : FilesListed parts r ↔ formFiles parts = [] := by
      rw [FilesListed, hempty, List.map_nil]
      exact eq_comm
    constructor
    · intro hkept
      refine ⟨r, hr, hnone.mpr ?_⟩
      by_contra hne
      exact hmet (hkept.met hne)
    · rintro - ⟨r', hr', hall⟩
      obtain rfl := Option.some.inj (hr.symm.trans hr')
      have hnil := hnone.mp hall
      refine ⟨by rw [hnil]; exact Nat.zero_le 7, fun p hp f hf => ?_, fun front q back hsplit _ hback => ?_,
        fun hne => absurd hnil hne, fun hm => absurd hm hmet⟩
      · rw [formFiles_nil hnil p hp] at hf
        cases hf
      · refine absurd ?_ hback
        refine List.filterMap_eq_nil_iff.mpr fun p hp => ?_
        have hmem : p ∈ parts := by
          rw [hsplit]
          exact List.mem_append_right _ (List.mem_cons_of_mem _ hp)
        rw [FormPart.entry, formFiles_nil hnil p hmem, Option.map_none]

end

/-- The head of a file part in front of its name. -/
def fileFront : List Byte := str "Content-Disposition: form-data; name=\"a\"; "

/-- A file with this name and content. -/
def filePart (name value : List Byte) : FormPart where
  lines := [fileFront ++ str "filename=\"" ++ name ++ str "\""]
  value := value
  file := some { front := str "\r\n" ++ fileFront, name := name }

theorem filePart_front : (ch '\r' ∉ fileFront ++ str "filename=\"" ∧ ch '\n' ∉ fileFront ++ str "filename=\"") ∧
    ¬ str "filename=\"" <:+: (str "\r\n" ++ fileFront ++ str "filename=\"").dropLast := by
  decide +kernel

theorem filePart_ok {name : List Byte} (hne : name ≠ []) (hline : LineText name) (hquote : ch '"' ∉ name)
    (value : List Byte) : (filePart name value).Ok where
  line := by
    intro l hl
    obtain rfl := List.mem_singleton.mp hl
    obtain ⟨⟨hcr, hlf⟩, -⟩ := filePart_front
    refine ⟨List.append_ne_nil_of_right_ne_nil _ (by decide), ⟨fun hmem => ?_, fun hmem => ?_⟩⟩
    · rcases List.mem_append.mp hmem with hmem | hmem
      · exact (List.mem_append.mp hmem).elim hcr hline.cr
      · exact absurd hmem (by decide)
    · rcases List.mem_append.mp hmem with hmem | hmem
      · exact (List.mem_append.mp hmem).elim hlf hline.lf
      · exact absurd hmem (by decide)
  field := fun h => by cases h
  file := by
    rintro f ⟨⟩
    refine ⟨⟨?_, filePart_front.2, hquote⟩, hne⟩
    refine ⟨str "\r\n\r\n", ?_⟩
    simp [filePart, Part.head]

theorem files_start {len : Nat} (h : len ≤ 2 ^ 31) : FilesStart (str "bound") len (formRequest (str "bound")) := by
  obtain ⟨hstored, htype, hchunked, hcnt, harg, -⟩ := formRequest_fields
  exact filesStart_head formRequest_run hstored htype hchunked hcnt (by rw [harg]; rfl) h

theorem bound_met : LabelMet (str "bound") := by
  unfold LabelMet
  decide +kernel

/-- Files that are named `a`. -/
def filesOf (values : List (List Byte)) : List FormPart := values.map (filePart (str "a"))

/-- What `http_parse_body` makes of a body with these files. -/
def parsedFiles (values : List (List Byte)) : Option Http :=
  parseBody (formRequest (str "bound"))
    (formText (str "bound") ((filesOf values).map FormPart.toPart))

theorem filesOf_count (values : List (List Byte)) : (formFiles (filesOf values)).length = values.length := by
  induction values with
  | nil => rfl
  | cons v values ih =>
    show (formFiles (filePart (str "a") v :: filesOf values)).length = _
    rw [List.length_cons, ← ih]
    rfl

theorem filesOf_sent {values : List (List Byte)} (hcount : values.length ≤ 8)
    (hdash : ∀ v ∈ values, ch '-' ∉ v) : FilesSent (str "bound") (filesOf values) where
  ok := by
    intro p hp
    obtain ⟨v, -, rfl⟩ := List.mem_map.mp hp
    exact filePart_ok (by decide) ⟨by decide, by decide⟩ (by decide) v
  count := by rwa [filesOf_count]
  names := by
    intro p hp f hf
    obtain ⟨v, -, rfl⟩ := List.mem_map.mp hp
    cases hf
    decide
  heads := by
    intro p hp
    obtain ⟨v, -, rfl⟩ := List.mem_map.mp hp
    show (filePart (str "a") []).head.length ≤ 511
    decide
  noDelimiter := by
    intro p hp hwithin
    obtain ⟨v, hv, rfl⟩ := List.mem_map.mp hp
    exact hdash v hv (hwithin.subset (by decide))
  noRun := by
    intro p hp hwithin
    obtain ⟨v, hv, rfl⟩ := List.mem_map.mp hp
    exact hdash v hv (hwithin.subset (by decide))

theorem filesOf_detects {values : List (List Byte)} (hsent : FilesSent (str "bound") (filesOf values)) :
    ∀ p ∈ filesOf values, Detects (str "bound") p.value (labelMarks (str "bound")) :=
  fun p hp => detects_of_noRun bound_met (by decide) (hsent.noRun p hp)

/-- Two files are listed, one of them empty. -/
theorem files_two : ∃ r, parsedFiles [str "hello", []] = some r ∧ FilesListed (filesOf [str "hello", []]) r := by
  have hsent : FilesSent (str "bound") (filesOf [str "hello", []]) :=
    filesOf_sent (by decide) (by decide)
  have hkept : FilesKept (str "bound") (formRequest (str "bound")) (filesOf [str "hello", []]) := by
    refine ⟨by decide, fun p hp f hf => ?_, fun front q back hsplit hq => ?_, fun _ => bound_met,
      fun _ => filesOf_detects hsent⟩
    · have hof := ((hsent.ok p hp).file f hf).1
      obtain ⟨v, hv, rfl⟩ := List.mem_map.mp hp
      cases hf
      refine ⟨cached_of_head hof (hsent.heads _ hp) (by decide), by decide +kernel, ?_⟩
      have hle : v.length ≤ 5 := by
        rcases List.mem_pair.mp hv with rfl | rfl
        · decide
        · decide
      show v.length + 7 + 1 ≤ 550
      omega
    · have hmem : q ∈ filesOf [str "hello", []] := by
        rw [hsplit]
        exact List.mem_append_right _ List.mem_cons_self
      obtain ⟨v, -, rfl⟩ := List.mem_map.mp hmem
      cases hq
  exact (files_iff ⟨by decide, by decide⟩ (by decide) (files_start (by decide +kernel)) hsent).1 hkept

/-- The eighth file is not filled, and a content of 550 bytes loses the length of its delimiter. -/
theorem files_lost :
    (FilesSent (str "bound") (filesOf (List.replicate 8 (str "b"))) ∧
      ¬ ∃ r, parsedFiles (List.replicate 8 (str "b")) = some r ∧
        FilesListed (filesOf (List.replicate 8 (str "b"))) r) ∧
    (FilesSent (str "bound") (filesOf [List.replicate 550 (ch 'b')]) ∧
      ¬ ∃ r, parsedFiles [List.replicate 550 (ch 'b')] = some r ∧
        FilesListed (filesOf [List.replicate 550 (ch 'b')]) r) := by
  have hb : BoundaryOk (str "bound") := ⟨⟨by decide, by decide⟩, by decide, bound_met.other⟩
  have hrecorded : ∀ {values : List (List Byte)}, FilesSent (str "bound") (filesOf values) →
      (formText (str "bound") ((filesOf values).map FormPart.toPart)).length ≤ 2 ^ 31 → ∀ r,
      parsedFiles values = some r → FilesListed (filesOf values) r →
      0 + values.length ≤ 7 ∧ ∀ v ∈ values, v.length + 8 ≤ HTTP_FILE_MAX_LEN := by
    intro values hsent hlen r hr hlisted
    obtain ⟨r', hr', hfiles⟩ :=
      form_files hb (files_start hlen) bound_met hsent.count hsent.ok (filesOf_detects hsent)
    obtain rfl := Option.some.inj (hr'.symm.trans hr)
    obtain ⟨hcount, hkept, -⟩ := (recordedFiles_iff _ 0 _ (by decide) hsent.ok).mp (hfiles.symm.trans hlisted)
    rw [filesOf_count] at hcount
    exact ⟨hcount, fun v hv => (hkept _ (List.mem_map_of_mem hv) _ rfl).room⟩
  have height : FilesSent (str "bound") (filesOf (List.replicate 8 (str "b"))) := by
    refine filesOf_sent (by rw [List.length_replicate]) fun v hv => ?_
    rw [List.eq_of_mem_replicate hv]
    decide
  have hlong : FilesSent (str "bound") (filesOf [List.replicate 550 (ch 'b')]) := by
    refine filesOf_sent (by decide) fun v hv hdash => ?_
    rw [List.mem_singleton.mp hv] at hdash
    exact absurd (List.eq_of_mem_replicate hdash) (by decide)
  refine ⟨⟨height, ?_⟩, hlong, ?_⟩
  · rintro ⟨r, hr, hlisted⟩
    have hcount := (hrecorded height (by decide +kernel) r hr hlisted).1
    rw [List.length_replicate] at hcount
    omega
  · rintro ⟨r, hr, hlisted⟩
    have hroom := (hrecorded hlong (by decide +kernel) r hr hlisted).2 _ List.mem_cons_self
    rw [List.length_replicate] at hroom
    exact absurd hroom (by decide)

end WafProxy
