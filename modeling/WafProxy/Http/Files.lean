import WafProxy.Http.PartsLost
import WafProxy.Http.StoredText

/-
  The files of a multipart body — http_form.c

  A part with a file name gets an item of the file table instead of an argument.
  Its content is counted whole and stored up to `HTTP_FILE_MAX_LEN` bytes, the
  delimiter behind it as well; when the delimiter is met its length is taken off
  both. `http_set_file` and `http_append_file` do nothing once the table has 8
  items, the last of which is the one that is being filled.

  What is proved:
    1. `headText_fileName` — the file name a head is read with.
    2. `loop_stored` — the bytes of a content, for any predicate on what they leave.
    3. `loop_files` — what the table holds of a body whose delimiters are met.
    4. `recordedFiles_iff` — when that is what the body says.

  Correspondence (C ↔ Lean):
    `item->name`, `item->raw_file_len`, `item->value` ↔ `FileEntry`
    the bytes that `item->value` has                   ↔ `keptValue`
    `item->name` behind `http_set_file`                ↔ `keptName`
-/

namespace WafProxy
open Lib

/-! ## Forms with files -/

/-- The file name in the head of a part, and what the head has in front of its label. -/
structure FileName where
  front : List Byte
  name : List Byte

/-- The name stands behind the first `filename="` of the head, up to the next quote. -/
structure FileName.Of (f : FileName) (head : List Byte) : Prop where
  found : f.front ++ str "filename=\"" ++ f.name ++ str "\"" <+: head
  first : ¬ str "filename=\"" <:+: (f.front ++ str "filename=\"").dropLast
  unquoted : ch '"' ∉ f.name

/-- A part of a form; `file` is set when the head gives a file name that is not empty. -/
structure FormPart extends Part where
  file : Option FileName

/-- The parts a form may consist of. -/
structure FormPart.Ok (p : FormPart) : Prop where
  line : ∀ l ∈ p.lines, l ≠ [] ∧ LineText l
  field : p.file = none → ¬ str "filename=\"" <:+: p.head ∨ ∃ f : FileName, f.Of p.head ∧ f.name = []
  file : ∀ f ∈ p.file, f.Of p.head ∧ f.name ≠ []

/-- What the file table holds of a file. -/
structure FileEntry where
  name : List Byte
  rawFileLen : Int
  value : List Byte
  deriving DecidableEq, Repr

def HttpFile.entry (item : HttpFile) : FileEntry where
  name := item.name.p.getD []
  rawFileLen := item.rawFileLen
  value := item.value.p.getD []

/-- What it should hold. -/
def FormPart.entry (p : FormPart) : Option FileEntry :=
  p.file.map fun f => { name := f.name, rawFileLen := p.value.length, value := p.value.take HTTP_FILE_MAX_LEN }

/-- The files of a form, in order. -/
def formFiles (parts : List FormPart) : List FileEntry := parts.filterMap FormPart.entry

/-- The file table lists them. -/
def FilesListed (parts : List FormPart) (r : Http) : Prop := r.file.file.map HttpFile.entry = formFiles parts

/-! ## The file name in a head -/

theorem strlstrText_found {pattern front rest : List Byte} (hne : pattern ≠ [])
    (hfirst : ¬ pattern <:+: (front ++ pattern).dropLast) :
    strlstrText pattern (front ++ pattern ++ rest) = some (pattern ++ rest) := by
  induction front with
  | nil =>
    obtain ⟨c, tail, rfl⟩ := List.exists_cons_of_ne_nil hne
    have hstarts : (c :: tail).isPrefixOf (c :: tail ++ rest) = true :=
      List.isPrefixOf_iff_prefix.mpr (List.prefix_append _ _)
    rw [List.nil_append, List.cons_append, strlstrText, ← List.cons_append, if_pos hstarts]
  | cons c front ih =>
    have htail : front ++ pattern ≠ [] := List.append_ne_nil_of_right_ne_nil _ hne
    rw [List.cons_append, List.dropLast_cons_of_ne_nil htail] at hfirst
    have hstarts : ¬ pattern.isPrefixOf (c :: front ++ pattern ++ rest) = true := by
      intro h
      refine hfirst (List.IsPrefix.isInfix ?_)
      refine List.prefix_of_prefix_length_le (List.isPrefixOf_iff_prefix.mp h) ?_ ?_
      · -- one byte less than the pattern at its place
        rw [List.cons_append, List.cons_append]
        refine List.cons_prefix_cons.mpr ⟨rfl, (List.dropLast_prefix _).trans (List.prefix_append _ _)⟩
      · rw [List.length_cons, List.length_dropLast, List.length_append]
        omega
    rw [List.cons_append, List.cons_append, strlstrText, ← List.cons_append, ← List.cons_append, if_neg hstarts]
    exact ih fun h => hfirst (h.trans (List.suffix_cons c _).isInfix)

/-- The name and the quote behind it are within what `cache_buf` holds of the head. -/
def FileName.Cached (boundary : List Byte) (f : FileName) : Prop :=
  (labelTail boundary ++ f.front ++ str "filename=\"" ++ f.name ++ str "\"").length ≤ 511

instance (boundary : List Byte) (f : FileName) : Decidable (f.Cached boundary) :=
  inferInstanceAs (Decidable (_ ≤ _))

section
variable {boundary : List Byte} {p : Part} {f : FileName}

/-- With the rest of the label in front the name is still behind the first `filename="`. -/
theorem FileName.Of.first_cached (hb : BoundaryOk boundary) (hf : f.Of p.head) :
    ¬ str "filename=\"" <:+: (labelTail boundary ++ f.front ++ str "filename=\"").dropLast := by
  obtain ⟨rest, hhead⟩ := p.head_cons
  obtain ⟨front, hfront⟩ : ∃ front, f.front = ch '\r' :: front := by
    have hfound := hf.found
    rw [hhead] at hfound
    cases hf' : f.front with
    | nil =>
      rw [hf'] at hfound
      obtain ⟨heq, -⟩ := List.cons_prefix_cons.mp hfound
      exact absurd heq (by decide)
    | cons c front =>
      rw [hf'] at hfound
      obtain ⟨heq, -⟩ := List.cons_prefix_cons.mp hfound
      exact ⟨front, by rw [heq]⟩
  have hcons : front ++ str "filename=\"" ≠ [] := List.append_ne_nil_of_right_ne_nil _ (by decide)
  have hsplit : (labelTail boundary ++ f.front ++ str "filename=\"").dropLast =
      labelTail boundary ++ ch '\r' :: (front ++ str "filename=\"").dropLast := by
    rw [hfront, List.append_assoc, List.cons_append, List.dropLast_append_of_ne_nil (List.cons_ne_nil _ _),
      List.dropLast_cons_of_ne_nil hcons]
  rw [hsplit]
  intro h
  rcases WindowReader.infix_around (by decide) h with hin | hin
  · -- the quote is not in the boundary
    rcases labelTail_subset (hin.subset (show ch '"' ∈ str "filename=\"" by decide)) with heq | hmem
    · exact absurd heq (by decide)
    · exact hb.unquoted hmem
  · refine hf.first (hin.trans ?_)
    rw [hfront, List.cons_append, List.dropLast_cons_of_ne_nil hcons]
    exact (List.suffix_cons _ _).isInfix

theorem takeWhile_unquoted {name : List Byte} (h : ch '"' ∉ name) (rest : List Byte) :
    (name ++ ch '"' :: rest).takeWhile (· ≠ ch '"') = name := by
  induction name with
  | nil => simp
  | cons c name ih =>
    have hc : c ≠ ch '"' := fun heq => h (heq ▸ List.mem_cons_self)
    have hrest := ih fun hmem => h (List.mem_cons_of_mem c hmem)
    simpa [hc] using hrest

/-- **The file name a head is read with**, when `cache_buf` holds it to its quote. -/
theorem headText_fileName (hb : BoundaryOk boundary) (hf : f.Of p.head) :
    httpGetFormLableValue (headText boundary p) (str "filename=\"") 512 =
      if f.Cached boundary then some f.name else none := by
  obtain ⟨rest, hhead⟩ := hf.found
  have hfirst := hf.first_cached hb
  have hwhole : labelTail boundary ++ p.head = labelTail boundary ++ f.front ++ str "filename=\"" ++
      (f.name ++ ch '"' :: rest) := by
    rw [← hhead]
    simp only [List.append_assoc]
    rfl
  have hquote : ∀ l : List Byte, strlstrText (str "\"") (f.name ++ ch '"' :: l) = some (ch '"' :: l) := by
    intro l
    have hno : ¬ str "\"" <:+: (f.name ++ str "\"").dropLast := by
      rw [show str "\"" = [ch '"'] from rfl, List.dropLast_concat]
      exact fun h => hf.unquoted (h.subset List.mem_cons_self)
    have h := @strlstrText_found (str "\"") f.name l (by decide) hno
    rwa [List.append_assoc] at h
  unfold headText httpGetFormLableValue
  rw [hwhole]
  generalize hfront : labelTail boundary ++ f.front = front at hfirst ⊢
  have hcached : f.Cached boundary ↔ (front ++ str "filename=\"").length + f.name.length + 1 ≤ 511 := by
    unfold FileName.Cached
    rw [hfront, List.length_append, List.length_append, show (str "\"").length = 1 from rfl]
  rcases Nat.lt_or_ge 511 (front ++ str "filename=\"").length with hlong | hfits
  · -- not even the label is cached
    rw [if_neg (by rw [hcached]; omega), List.take_append_of_le_length (Nat.le_of_lt hlong),
      strlstrText_none]
    · rfl
    · refine fun h => hfirst (h.trans (List.IsPrefix.isInfix ?_))
      rw [List.dropLast_eq_take]
      exact List.take_prefix_take_left (by omega)
  · rw [List.take_append, List.take_of_length_le hfits, strlstrText_found (by decide) hfirst]
    generalize hk : 511 - (front ++ str "filename=\"").length = k
    simp only [Option.bind_eq_bind, Option.bind_some, List.drop_left]
    by_cases hle : f.name.length + 1 ≤ k
    · have htake : (f.name ++ ch '"' :: rest).take k = f.name ++ ch '"' :: rest.take (k - (f.name.length + 1)) := by
        rw [List.take_append, List.take_of_length_le (by omega),
          show k - f.name.length = k - (f.name.length + 1) + 1 by omega, List.take_succ_cons]
      rw [if_pos (by rw [hcached]; omega), htake, hquote, Option.bind_some, takeWhile_unquoted hf.unquoted,
        List.take_of_length_le (by omega)]
    · -- the name is cached without its quote
      rw [if_neg (by rw [hcached]; omega), List.take_append_of_le_length (by omega), strlstrText_none]
      · rfl
      · exact fun h => hf.unquoted (List.take_subset _ _ (h.subset List.mem_cons_self))

end

/-! ## Behind a head -/

/-- The finished files, and the one `cur` points to. -/
def filesWith (done : List HttpFile) (item : HttpFile) : HttpFileCtrl where
  cur := some done.length
  file := done ++ [item]

@[simp] theorem filesWith_length (done : List HttpFile) (item : HttpFile) :
    (filesWith done item).file.length = done.length + 1 := by
  simp [filesWith]

@[simp] theorem filesWith_item (done : List HttpFile) (item : HttpFile) :
    (filesWith done item).item = some item := by
  simp [filesWith, HttpFileCtrl.item]

@[simp] theorem filesWith_onCur (done : List HttpFile) (item : HttpFile) (f : HttpFile → HttpFile) :
    (filesWith done item).onCur f = filesWith done (f item) := by
  have hfile : (done ++ [item]).modify done.length f = done ++ [f item] := by
    rw [List.modify_eq_set_getElem?, List.getElem?_append_right (Nat.le_refl _), Nat.sub_self]
    simp
  unfold HttpFileCtrl.onCur filesWith
  simp only [hfile]

/-- The file name a part is read with. -/
def FormPart.readName (boundary : List Byte) (p : FormPart) : Option (List Byte) :=
  p.file.bind fun f => if f.Cached boundary then some f.name else none

/-- `item->name` of the `k`-th file: `http_set_file` refuses the eighth. -/
def keptName (flags : DecodeFlag) (k : Nat) (name : List Byte) : XStr :=
  if 7 ≤ k then {} else XStr.ofText flags name

/-- `item->value` of the `k`-th file behind these bytes: `http_append_file` refuses the eighth. -/
def keptValue (k : Nat) (v : List Byte) : XStr :=
  if 7 ≤ k ∨ v = [] then {} else .text (v.take HTTP_FILE_MAX_LEN)

section
variable {boundary : List Byte} {p : FormPart}

/-- A part that is not read as a file leaves the file table as it is. -/
theorem formFile_unread (hb : BoundaryOk boundary) (hp : p.Ok) (hread : p.readName boundary = none) (info : Http) :
    ∃ nullFile, formFile (headText boundary p.toPart) info =
      { info with loc := { info.loc with nullFile := nullFile } } := by
  have hvalue : httpGetFormLableValue (headText boundary p.toPart) (str "filename=\"") 512 = none ∨
      httpGetFormLableValue (headText boundary p.toPart) (str "filename=\"") 512 = some [] := by
    cases hfile : p.file with
    | none =>
      rcases hp.field hfile with hno | ⟨f, hf, hempty⟩
      · left
        unfold httpGetFormLableValue
        rw [headText_noFile hb ⟨hp.line, hno⟩]
        rfl
      · rw [headText_fileName hb hf, hempty]
        split
        · exact Or.inr rfl
        · exact Or.inl rfl
    | some f =>
      left
      rw [FormPart.readName, hfile, Option.bind_some] at hread
      obtain ⟨hf, hne⟩ := hp.file f hfile
      rw [headText_fileName hb hf]
      split
      next hcached =>
        rw [if_pos hcached] at hread
        cases hread
      next => rfl
  unfold formFile
  rcases hvalue with hvalue | hvalue
  · exact ⟨info.loc.nullFile, by rw [hvalue]⟩
  · exact ⟨true, by rw [hvalue]⟩

/-- A part that is read as a file gets an item, with its name unless it is the eighth. -/
theorem formFile_read (hb : BoundaryOk boundary) (hp : p.Ok) {name : List Byte}
    (hread : p.readName boundary = some name) {info : Http} (hroom : info.file.file.length < 8) :
    formFile (headText boundary p.toPart) info = { info with
      loc := { info.loc with nullFile := false, formFlag := .file }
      file := filesWith info.file.file { name := keptName info.tmpFlag info.file.file.length name } } := by
  obtain ⟨f, hfile, hname⟩ := Option.bind_eq_some_iff.mp hread
  obtain ⟨hf, hne⟩ := hp.file f hfile
  have hvalue := headText_fileName hb hf
  rw [hname] at hvalue
  have hcons : name ≠ [] := by
    split at hname
    · exact Option.some.inj hname ▸ hne
    · cases hname
  obtain ⟨c, tail, rfl⟩ := List.exists_cons_of_ne_nil hcons
  unfold formFile
  rw [hvalue]
  have hempty : httpGetEmptyFile info.file = filesWith info.file.file {} := by
    unfold httpGetEmptyFile
    rw [if_neg (by omega)]
    rfl
  simp only [hempty, filesWith_onCur]
  congr 1
  unfold httpSetFile keptName
  rw [filesWith_length]
  by_cases hlast : 7 ≤ info.file.file.length
  · rw [if_pos (by omega), if_pos hlast]
  · rw [if_neg (by omega), if_neg hlast, filesWith_onCur, if_neg (List.cons_ne_nil c tail)]

end

/-! ## The content of a file -/

theorem keptValue_len (k : Nat) (v : List Byte) :
    (keptValue k v).len = if 7 ≤ k then 0 else min v.length HTTP_FILE_MAX_LEN := by
  unfold keptValue
  by_cases hk : 7 ≤ k
  · rw [if_pos (Or.inl hk), if_pos hk]
    rfl
  · by_cases hv : v = []
    · rw [if_pos (Or.inr hv), if_neg hk, hv]
      rfl
    · rw [if_neg (by simp [hk, hv]), if_neg hk, Nat.min_comm, ← List.length_take]
      rfl

/-- Behind the first `HTTP_FILE_MAX_LEN` bytes nothing is stored. -/
theorem keptValue_full (k : Nat) {v : List Byte} (hv : HTTP_FILE_MAX_LEN ≤ v.length) (c : Byte) :
    keptValue k (v ++ [c]) = keptValue k v := by
  have hne : v ≠ [] := List.ne_nil_of_length_pos (Nat.lt_of_lt_of_le (by decide) hv)
  unfold keptValue
  simp only [hne, List.concat_ne_nil, List.take_append_of_le_length hv]

/-- Up to there a byte is, but for the eighth file. -/
theorem keptValue_append {k : Nat} (hk : k < 7) {v : List Byte} (hv : v.length < HTTP_FILE_MAX_LEN) (c : Byte) :
    (keptValue k v).append [c] = some (keptValue k (v ++ [c])) := by
  have hmax : HTTP_FILE_MAX_LEN = 550 := rfl
  have hbuf : APPEND_MAX = 4096 := rfl
  have hlen : (v ++ [c]).length ≤ HTTP_FILE_MAX_LEN := by
    rw [List.length_append, List.length_singleton]
    omega
  have hk' : ¬ 7 ≤ k := by omega
  unfold keptValue
  simp only [hk', List.concat_ne_nil, or_false, false_or, if_false, List.take_of_length_le hlen]
  by_cases hnil : v = []
  · rw [hnil, if_pos rfl]
    exact empty_append (show 1 ≤ APPEND_MAX by decide)
  · rw [if_neg hnil, List.take_of_length_le (Nat.le_of_lt hv), text_append]
    rw [List.length_singleton]
    omega

/-- What the files of a form depend on besides `local_t`. -/
structure FormTables (flags : DecodeFlag) (n : Nat) (files : List FileEntry) (info : Http) : Prop where
  flags : info.tmpFlag = flags
  room : info.arg.maxNum = 32
  args : info.arg.arg.length = n
  files : info.file.file.map HttpFile.entry = files

/-- The item of the file that is being read, with `v` of its content behind. -/
def fileItem (k : Nat) (name : XStr) (v : List Byte) (complete : Bool) : HttpFile where
  name := name
  value := keptValue k v
  completeFlag := complete
  rawFileLen := v.length

/-- A file is being read. -/
structure FileContent (flags : DecodeFlag) (n : Nat) (done : List HttpFile) (name : XStr) (v : List Byte)
    (info : Http) : Prop where
  flag : info.loc.formFlag = .file
  named : info.loc.nullFile = false
  line : info.loc.formHeaderState = 0
  flags : info.tmpFlag = flags
  room : info.arg.maxNum = 32
  args : info.arg.arg.length = n
  item : ∃ complete, info.file = filesWith done (fileItem done.length name v complete)

section
variable {boundary : List Byte} {flags : DecodeFlag} {n t : Nat} {files : List FileEntry} {info : Http}
variable {done : List HttpFile} {name : XStr} {v : List Byte} {rest : List Byte}

/-- A byte of a file's content is counted, and stored while there is room. -/
theorem formContent_file (h : FileContent flags n done name v info) (c : Byte) : ∃ complete,
    formContent c info = some { info with
      file := filesWith done (fileItem done.length name (v ++ [c]) complete) } := by
  obtain ⟨complete, hitem⟩ := h.item
  have hmax : HTTP_FILE_MAX_LEN = 550 := rfl
  have hlen := keptValue_len done.length v
  have hraw : ((v.length : Int) + 1) = ((v ++ [c]).length : Nat) := by
    rw [List.length_append, List.length_singleton]
    rfl
  unfold formContent httpAppendFile
  rw [if_pos h.flag, hitem, filesWith_item, h.named]
  simp only [Bool.false_eq_true, if_false, filesWith_onCur, filesWith_item, filesWith_length, fileItem, hraw]
  by_cases hk : 7 ≤ done.length
  · -- the eighth file: http_append_file refuses the byte
    rw [if_pos hk] at hlen
    have hsame : keptValue done.length (v ++ [c]) = keptValue done.length v := by simp [keptValue, hk]
    rw [if_neg (by omega), if_pos (by omega), hsame]
    exact ⟨complete, rfl⟩
  · rw [if_neg hk] at hlen
    rcases Nat.lt_or_ge v.length HTTP_FILE_MAX_LEN with hroom | hfull
    · rw [if_neg (by omega), if_neg (by omega), if_neg (by omega), keptValue_append (by omega) hroom]
      exact ⟨complete, rfl⟩
    · rw [if_pos (by omega), keptValue_full _ hfull]
      exact ⟨true, rfl⟩

theorem FileContent.byte (h : FileContent flags n done name v info) {c : Byte} {r : Http}
    (hstored : formContent c info = some r) : FileContent flags n done name (v ++ [c]) r := by
  obtain ⟨complete, hbyte⟩ := formContent_file h c
  rw [hbyte] at hstored
  cases hstored
  exact ⟨h.flag, h.named, h.line, h.flags, h.room, h.args, complete, rfl⟩

theorem FileContent.of_readerOnly {loc : HttpLocal} (honly : ReaderOnly info.loc loc)
    (h : FileContent flags n done name v info) : FileContent flags n done name v { info with loc := loc } := by
  refine ⟨?_, ?_, ?_, h.flags, h.room, h.args, h.item⟩
  · show loc.formFlag = .file
    rw [honly.eq]
    exact h.flag
  · show loc.nullFile = false
    rw [honly.eq]
    exact h.named
  · show loc.formHeaderState = 0
    rw [honly.eq]
    exact h.line

/-- What is left of the item when `d` bytes are taken off the `v` behind. -/
def cutFile (k d : Nat) (name : XStr) (v : List Byte) : FileEntry where
  name := name.p.getD []
  rawFileLen := if 7 ≤ k then v.length else max 0 ((v.length : Int) - d)
  value := if 7 ≤ k then [] else v.take (min v.length HTTP_FILE_MAX_LEN - d)

theorem formCutFile_content (h : FileContent flags n done name v info) (hv : v ≠ []) (d : Nat) :
    ∃ item, (formCutFile d info).file = filesWith done item ∧ item.entry = cutFile done.length d name v := by
  obtain ⟨complete, hitem⟩ := h.item
  have hpos := List.length_pos_iff.mpr hv
  have hmax : HTTP_FILE_MAX_LEN = 550 := rfl
  have hlen := keptValue_len done.length v
  unfold formCutFile
  rw [hitem, filesWith_item, h.named]
  by_cases hk : 7 ≤ done.length
  · -- nothing of the eighth file is stored
    have hnone : keptValue done.length v = {} := by simp [keptValue, hk]
    simp only [fileItem, hnone, ne_eq, not_true_eq_false, false_and, if_false]
    rw [hitem]
    refine ⟨_, rfl, ?_⟩
    simp [HttpFile.entry, fileItem, cutFile, hnone, hk]
  · rw [if_neg hk] at hlen
    have hsome : keptValue done.length v = .text (v.take HTTP_FILE_MAX_LEN) := by simp [keptValue, hk, hv]
    have hcut : (fileItem done.length name v complete).value.p ≠ none ∧
        0 < (fileItem done.length name v complete).value.len ∧ false = false :=
      ⟨by simp [fileItem, hsome, XStr.text], by show 0 < (keptValue done.length v).len; omega, rfl⟩
    dsimp only
    rw [if_pos hcut, filesWith_onCur]
    refine ⟨_, rfl, ?_⟩
    have htake : min (min v.length HTTP_FILE_MAX_LEN - d) HTTP_FILE_MAX_LEN =
        min v.length HTTP_FILE_MAX_LEN - d := by omega
    simp only [HttpFile.entry, fileItem, cutFile, XStr.cut, hlen, hk, if_false]
    rw [hsome]
    simp only [XStr.text, Option.map_some, Option.getD_some, List.take_take, htake]

/-- The delimiter is taken off the file in front of it, but for its last byte. -/
theorem formMet_file (h : FileContent flags n done name v info) (hv : v ≠ []) (label : List Byte) :
    ∃ item, (formMet label info).file = filesWith done item ∧
      item.entry = cutFile done.length (label.length + 1) name v := by
  have hfile : (formMet label info).file = (formCutFile (label.length + 1) info).file := by
    unfold formMet
    rw [if_pos h.flag]
  rw [hfile]
  exact formCutFile_content h hv _

/-! ## The content of a field -/

theorem onCur_maxNum (a : HttpArgCtrl) (f : HttpArg → HttpArg) : (a.onCur f).maxNum = a.maxNum := by
  unfold HttpArgCtrl.onCur
  split <;> rfl

theorem httpAppendArg_maxNum {a a' : HttpArgCtrl} {value : List Byte} (h : httpAppendArg value a = some a') :
    a'.maxNum = a.maxNum := by
  unfold httpAppendArg at h
  split at h
  · cases h
    rfl
  · split at h
    · cases h
    · obtain ⟨item, -, rfl⟩ := Option.map_eq_some_iff.mp h
      exact onCur_maxNum a _

/-- A field is being read. -/
structure FieldContent (flags : DecodeFlag) (n : Nat) (files : List FileEntry) (info : Http) : Prop
    extends FormTables flags n files info where
  flag : info.loc.formFlag = .arg

theorem FieldContent.byte (h : FieldContent flags n files info) {c : Byte} {r : Http}
    (hstored : formContent c info = some r) : FieldContent flags n files r := by
  unfold formContent at hstored
  rw [if_neg (by simp [h.flag])] at hstored
  obtain ⟨arg, happend, rfl⟩ := Option.map_eq_some_iff.mp hstored
  exact {
    flags := h.flags
    room := (httpAppendArg_maxNum happend).trans h.room
    args := (httpAppendArg_onlyCur happend).length.trans h.args
    files := h.files
    flag := h.flag }

theorem FieldContent.of_readerOnly {loc : HttpLocal} (honly : ReaderOnly info.loc loc)
    (h : FieldContent flags n files info) : FieldContent flags n files { info with loc := loc } where
  flags := h.flags
  room := h.room
  args := h.args
  files := h.files
  flag := by
    show loc.formFlag = .arg
    rw [honly.eq]
    exact h.flag

/-- A delimiter behind a field leaves the files as they are. -/
theorem formMet_field (h : FieldContent flags n files info) (label : List Byte) :
    FormTables flags n files (formMet label info) := by
  have hflag : info.loc.formFlag ≠ .file := by
    rw [h.flag]
    decide
  unfold formMet
  rw [if_neg hflag]
  split
  · exact ⟨h.flags, (onCur_maxNum _ _).trans h.room, (onlyCur_onCur _ _).length.trans h.args, h.files⟩
  · exact ⟨h.flags, h.room, h.args, h.files⟩

/-! ## One part -/

/-- **A content up to its delimiter**, when that is met. -/
theorem loop_delimited {P : List Byte → Http → Prop} {w : List Byte}
    (hreader : ∀ v i loc, ReaderOnly i.loc loc → P v i → P v { i with loc := loc })
    (hcontent : ∀ v c i r, P v i → formContent c i = some r → P (v ++ [c]) r)
    (h : InBody boundary info ⟨t, none⟩) (hline : info.loc.formHeaderState = 0) (hP : P [] info)
    (hdet : Detects boundary w t) (nm : List Byte) :
    ∃ i, httpParseFormLoop (labelOf boundary) (delimited boundary w ++ rest) info nm =
        httpParseFormLoop (labelOf boundary) rest (formMet (labelOf boundary) i) nm ∧
      P (delimited boundary w).dropLast i ∧
      BehindLabel boundary (labelMarks boundary) (formMet (labelOf boundary) i).loc := by
  obtain ⟨c, hsplit, hno, hlast⟩ := detects_last hdet
  obtain ⟨i, hloop, hi, hline', hP'⟩ := @loop_stored boundary
    (fun v i => i.loc.formHeaderState = 0 ∧ P v i) hdet.rest
    (by
      rintro v i loc honly ⟨hline, hP⟩
      refine ⟨?_, hreader v i loc honly hP⟩
      show loc.formHeaderState = 0
      rw [honly.eq]
      exact hline)
    (by
      rintro v c i r ⟨hline, hP⟩ hstored
      refine ⟨?_, hcontent v c i r hP hstored⟩
      rw [formContent_loc hstored]
      exact hline)
    (c :: rest) nm _ [] info _ h ⟨hline, hP⟩ hno
  obtain ⟨loc, hmet, hreads, honly⟩ := loop_met hi hdet.rest (by rw [hlast]) rest nm
  rw [hlast] at hreads
  refine ⟨{ i with loc := loc }, ?_, hreader _ i loc honly hP', ⟨rfl, rfl, ?_, ?_, ?_⟩⟩
  · rw [hsplit, List.append_assoc, List.singleton_append, hloop, hmet]
  · show loc.formHeaderState = 0
    rw [honly.eq]
    exact hline'
  · show loc.boundaryCnt = dashCount boundary
    rw [honly.eq]
    exact hi.cnt
  · exact ⟨hreads.num, hreads.idle, fun w hw => by cases hw⟩

/-- The parser in front of the head of a part: `n` arguments and these files are recorded. -/
structure BetweenParts (boundary : List Byte) (flags : DecodeFlag) (n : Nat) (files : List FileEntry)
    (t : Nat) (info : Http) : Prop extends FormTables flags n files info where
  behind : BehindLabel boundary t info.loc

/-- What is recorded of a file whose delimiter is met, the `k`-th of the form. -/
def recordedFile (boundary : List Byte) (flags : DecodeFlag) (k : Nat) (name content : List Byte) : FileEntry :=
  cutFile k ((labelOf boundary).length + 1) (keptName flags k name) (delimited boundary content).dropLast

variable {p : FormPart} {nm : List Byte}

/-- The head of a part that is not read as a file. -/
theorem loop_fieldHead (hb : BoundaryOk boundary) (h : BetweenParts boundary flags n files t info) (hp : p.Ok)
    (hread : p.readName boundary = none) (hname : nm.length < 4000) :
    if n < 32 then
      ∃ r, httpParseFormLoop (labelOf boundary) (labelTail boundary ++ p.head ++ rest) info nm =
          httpParseFormLoop (labelOf boundary) rest r (partName boundary p.toPart nm) ∧
        InBody boundary r ⟨t, none⟩ ∧ r.loc.formHeaderState = 0 ∧ FieldContent flags (n + 1) files r
    else
      ∃ r, httpParseFormLoop (labelOf boundary) (labelTail boundary ++ p.head ++ rest) info nm = some (r, true) ∧
        r.file.file.map HttpFile.entry = files := by
  obtain ⟨nullFile, hfile⟩ := formFile_unread hb hp hread (headEnd info)
  rw [loop_headEnd hb h.behind hp.line, hfile]
  generalize hi : ({ headEnd info with loc := { (headEnd info).loc with nullFile := nullFile } } : Http) = i
  have hreads : Reads i.loc ⟨t, none⟩ := by
    rw [← hi]
    exact ⟨h.behind.reads.num, fun _ => ⟨rfl, (h.behind.reads.idle rfl).2⟩, fun w hw => by cases hw⟩
  have hflag : i.loc.formFlag = .arg := by rw [← hi]; exact h.behind.flag
  have harg : i.arg = info.arg := by rw [← hi]; rfl
  have hfiles : i.file = info.file := by rw [← hi]; rfl
  split
  next hroom =>
    have hempty : httpGetEmptyArg i.arg = tableWith info.arg.arg {} := by
      rw [harg]
      unfold httpGetEmptyArg
      rw [if_neg (by rw [h.room, h.args]; omega), h.room]
      rfl
    have hnamed := @formArg_named _ i (partName boundary p.toPart nm) hflag hempty (partName_length hname)
    rw [hnamed]
    refine ⟨_, rfl, ⟨?_, ?_, hreads, WindowReader.sound_idle t, fun _ => ?_⟩, ?_, ⟨⟨?_, rfl, ?_, ?_⟩, hflag⟩⟩
    · show i.loc.formStatus = .body
      rw [← hi]
      rfl
    · show i.loc.boundaryCnt = dashCount boundary
      rw [← hi]
      exact h.behind.cnt
    · rw [tableWith_item]
      exact Option.some_ne_none _
    · show i.loc.formHeaderState = 0
      rw [← hi]
      rfl
    · show i.tmpFlag = flags
      rw [← hi]
      exact h.flags
    · simp [tableWith, h.args]
    · show i.file.file.map HttpFile.entry = files
      rw [hfiles]
      exact h.files
  next hfull =>
    have hempty : (httpGetEmptyArg i.arg).cur = none := by
      rw [harg]
      unfold httpGetEmptyArg
      rw [h.room, h.args, if_pos (by omega)]
    unfold formArg
    simp only [if_pos hflag, hempty, if_true]
    refine ⟨_, rfl, ?_⟩
    show i.file.file.map HttpFile.entry = files
    rw [hfiles]
    exact h.files

/-- The head of a part that is read as a file. -/
theorem loop_fileHead (hb : BoundaryOk boundary) (h : BetweenParts boundary flags n files t info) (hp : p.Ok)
    {name : List Byte} (hread : p.readName boundary = some name) (hroom : files.length < 8) :
    ∃ r, httpParseFormLoop (labelOf boundary) (labelTail boundary ++ p.head ++ rest) info nm =
        httpParseFormLoop (labelOf boundary) rest r (partName boundary p.toPart nm) ∧
      InBody boundary r ⟨t, none⟩ ∧
      FileContent flags n info.file.file (keptName flags files.length name) [] r := by
  have hlen : info.file.file.length = files.length := by
    rw [← h.files, List.length_map]
  have hfile := @formFile_read _ p hb hp name hread (headEnd info) (by show info.file.file.length < 8; omega)
  rw [loop_headEnd hb h.behind hp.line, hfile]
  unfold formArg
  rw [if_neg (show FormFlag.file ≠ .arg by decide)]
  refine ⟨_, rfl, ⟨rfl, h.behind.cnt, ?_, WindowReader.sound_idle t, fun harg => by cases harg⟩,
    ⟨rfl, rfl, rfl, h.flags, h.room, h.args, false, ?_⟩⟩
  · exact ⟨h.behind.reads.num, fun _ => ⟨rfl, (h.behind.reads.idle rfl).2⟩, fun w hw => by cases hw⟩
  · show filesWith info.file.file { name := keptName info.tmpFlag info.file.file.length name } = _
    rw [h.flags, hlen]
    simp [fileItem, keptValue]

/-- A part that is not read as a file, when there is an argument for it. -/
theorem loop_fieldPart (hb : BoundaryOk boundary) (h : BetweenParts boundary flags n files t info) (hp : p.Ok)
    (hread : p.readName boundary = none) (hname : nm.length < 4000) (hroom : n < 32)
    (hdet : Detects boundary p.value t) :
    ∃ r, httpParseFormLoop (labelOf boundary)
          (labelTail boundary ++ p.head ++ (delimited boundary p.value ++ rest)) info nm =
        httpParseFormLoop (labelOf boundary) rest r (partName boundary p.toPart nm) ∧
      BetweenParts boundary flags (n + 1) files (labelMarks boundary) r := by
  have hhead := @loop_fieldHead boundary flags n t files info (delimited boundary p.value ++ rest) p nm hb h hp
    hread hname
  rw [if_pos hroom] at hhead
  obtain ⟨i, hhead, hbody, hline, hi⟩ := hhead
  obtain ⟨i', hcontent, hi', hbehind⟩ :=
    @loop_delimited boundary t i rest (fun _ j => FieldContent flags (n + 1) files j) p.value
      (fun _ _ _ honly h => h.of_readerOnly honly) (fun _ _ _ _ h hstored => h.byte hstored)
      hbody hline hi hdet (partName boundary p.toPart nm)
  exact ⟨_, hhead.trans hcontent, formMet_field hi' _, hbehind⟩

/-- A part that is read as a file. -/
theorem loop_filePart (hb : BoundaryOk boundary) (h : BetweenParts boundary flags n files t info) (hp : p.Ok)
    {name : List Byte} (hread : p.readName boundary = some name) (hroom : files.length < 8)
    (hdet : Detects boundary p.value t) :
    ∃ r, httpParseFormLoop (labelOf boundary)
          (labelTail boundary ++ p.head ++ (delimited boundary p.value ++ rest)) info nm =
        httpParseFormLoop (labelOf boundary) rest r (partName boundary p.toPart nm) ∧
      BetweenParts boundary flags n (files ++ [recordedFile boundary flags files.length name p.value])
        (labelMarks boundary) r := by
  have hlen : info.file.file.length = files.length := by
    rw [← h.files, List.length_map]
  obtain ⟨i, hhead, hbody, hi⟩ := @loop_fileHead boundary flags n t files info
    (delimited boundary p.value ++ rest) p nm hb h hp name hread hroom
  obtain ⟨i', hcontent, hi', hbehind⟩ := @loop_delimited boundary t i rest
    (fun v j => FileContent flags n info.file.file (keptName flags files.length name) v j)
    p.value (fun _ _ _ honly h => h.of_readerOnly honly) (fun _ _ _ _ h hstored => h.byte hstored)
    hbody hi.line hi hdet (partName boundary p.toPart nm)
  obtain ⟨-, -, hcons⟩ := delimited_concat hdet.rest p.value
  obtain ⟨item, hfile, hentry⟩ := formMet_file hi' hcons (labelOf boundary)
  have hsame : (formMet (labelOf boundary) i').tmpFlag = i'.tmpFlag ∧
      (formMet (labelOf boundary) i').arg = i'.arg := by
    unfold formMet formCutFile
    rw [if_pos hi'.flag]
    split
    · exact ⟨rfl, rfl⟩
    · split <;> exact ⟨rfl, rfl⟩
  refine ⟨_, hhead.trans hcontent, ⟨hsame.1.trans hi'.flags, ?_, ?_, ?_⟩, hbehind⟩
  · rw [hsame.2]
    exact hi'.room
  · rw [hsame.2]
    exact hi'.args
  · rw [hfile]
    simp only [filesWith, List.map_append, List.map_cons, List.map_nil, h.files, hentry, hlen, recordedFile]

/-! ## All parts -/

/-- What the table gets of the parts, behind `k` files and `n` arguments: a part that finds
no argument ends the parsing. -/
def recordedFiles (boundary : List Byte) (flags : DecodeFlag) : Nat → Nat → List FormPart → List FileEntry
  | _, _, [] => []
  | k, n, p :: parts =>
    match p.readName boundary with
    | none => if n < 32 then recordedFiles boundary flags k (n + 1) parts else []
    | some name => recordedFile boundary flags k name p.value :: recordedFiles boundary flags (k + 1) n parts

theorem readName_field (hfile : p.file = none) : p.readName boundary = none := by
  rw [FormPart.readName, hfile, Option.bind_none]

theorem readName_file {f : FileName} (hfile : p.file = some f) (hcached : f.Cached boundary) :
    p.readName boundary = some f.name := by
  rw [FormPart.readName, hfile, Option.bind_some, if_pos hcached]

/-- A field is not listed. -/
theorem formFiles_field (hfile : p.file = none) (parts : List FormPart) :
    formFiles (p :: parts) = formFiles parts := by
  simp [formFiles, FormPart.entry, hfile]

/-- What a file should be listed as. -/
theorem formFiles_file {f : FileName} (hfile : p.file = some f) (parts : List FormPart) :
    formFiles (p :: parts) =
      { name := f.name, rawFileLen := p.value.length, value := p.value.take HTTP_FILE_MAX_LEN } ::
        formFiles parts := by
  simp [formFiles, FormPart.entry, hfile]

theorem formFiles_read {name : List Byte} (hread : p.readName boundary = some name) (parts : List FormPart) :
    (formFiles (p :: parts)).length = (formFiles parts).length + 1 := by
  obtain ⟨f, hfile, -⟩ := Option.bind_eq_some_iff.mp hread
  rw [formFiles_file hfile, List.length_cons]

theorem formFiles_cons (p : FormPart) (parts : List FormPart) :
    (formFiles parts).length ≤ (formFiles (p :: parts)).length := by
  unfold formFiles
  rw [List.filterMap_cons]
  split
  · exact Nat.le_refl _
  · exact Nat.le_succ _

/-- The parser behind the last part that is read: `formEnd` finds no file there. -/
structure FormDone (files : List FileEntry) (r : Http) (stop : Bool) : Prop where
  flag : stop = false → r.loc.formFlag = .arg
  files : r.file.file.map HttpFile.entry = files

/-- **What is recorded of the files** when every delimiter is met, by induction on the parts. -/
theorem loop_files (hb : BoundaryOk boundary) : ∀ (parts : List FormPart) (files : List FileEntry) (n : Nat)
    (info : Http) (nm : List Byte), BetweenParts boundary flags n files (labelMarks boundary) info →
    nm.length < 4000 → files.length + (formFiles parts).length ≤ 8 → (∀ p ∈ parts, p.Ok) →
    (∀ p ∈ parts, Detects boundary p.value (labelMarks boundary)) →
    ∃ r stop, httpParseFormLoop (labelOf boundary)
        (labelTail boundary ++ formTail boundary (parts.map FormPart.toPart)) info nm = some (r, stop) ∧
      FormDone (files ++ recordedFiles boundary flags files.length n parts) r stop := by
  intro parts
  induction parts with
  | nil =>
    intro files n info nm h _ _ _ _
    obtain ⟨cache, state, hclose⟩ := @loop_close boundary info (labelOf boundary) hb _ h.behind nm
    refine ⟨_, _, hclose, fun _ => h.behind.flag, ?_⟩
    rw [recordedFiles, List.append_nil]
    exact h.files
  | cons p parts ih =>
    intro files n info nm h hname hcount hok hdet
    obtain ⟨hp, hok⟩ := List.forall_mem_cons.mp hok
    obtain ⟨hd, hdet⟩ := List.forall_mem_cons.mp hdet
    rw [List.map_cons, formTail_cons, ← List.append_assoc]
    cases hread : p.readName boundary with
    | none =>
      have hle := formFiles_cons p parts
      by_cases hroom : n < 32
      · obtain ⟨i, hpart, hi⟩ := @loop_fieldPart boundary flags n _ files info
          (labelTail boundary ++ formTail boundary (parts.map FormPart.toPart)) p nm hb h hp hread hname hroom hd
        obtain ⟨r, stop, hrest, hr⟩ := ih files (n + 1) i _ hi (partName_length hname) (by omega) hok hdet
        refine ⟨r, stop, hpart.trans hrest, ?_⟩
        rw [recordedFiles, hread]
        simp only [if_pos hroom]
        exact hr
      · have hhead := @loop_fieldHead boundary flags n _ files info (delimited boundary p.value ++
          (labelTail boundary ++ formTail boundary (parts.map FormPart.toPart))) p nm hb h hp hread hname
        rw [if_neg hroom] at hhead
        obtain ⟨r, hhead, hfiles⟩ := hhead
        refine ⟨r, true, hhead, fun hstop => (by cases hstop), ?_⟩
        rw [recordedFiles, hread]
        simp only [if_neg hroom, List.append_nil]
        exact hfiles
    | some name =>
      rw [formFiles_read hread] at hcount
      obtain ⟨i, hpart, hi⟩ := @loop_filePart boundary flags n _ files info
        (labelTail boundary ++ formTail boundary (parts.map FormPart.toPart)) p nm hb h hp name hread (by omega) hd
      obtain ⟨r, stop, hrest, hr⟩ := ih _ n i _ hi (partName_length hname)
        (by rw [List.length_append, List.length_singleton]; omega) hok hdet
      refine ⟨r, stop, hpart.trans hrest, ?_⟩
      rw [recordedFiles, hread]
      rw [List.length_append, List.length_singleton, List.append_assoc, List.singleton_append] at hr
      exact hr

/-! ## When the table lists the files -/

/-- A file is recorded as it is. -/
structure FileKept (boundary : List Byte) (flags : DecodeFlag) (f : FileName) (content : List Byte) : Prop where
  /-- the name is found in what is cached of the head -/
  cached : f.Cached boundary
  /-- the decoding that is left over from the head's last line does not change the name -/
  name : decodedText flags f.name = f.name
  /-- with the delimiter behind it the content fits -/
  room : content.length + (labelOf boundary).length + 1 ≤ HTTP_FILE_MAX_LEN

/-- Every part that is no file, and has a file behind it, finds one of the 32 arguments free. -/
def FieldsPlaced (n : Nat) (parts : List FormPart) : Prop :=
  ∀ front q back, parts = front ++ q :: back → q.file = none → formFiles back ≠ [] →
    n + front.countP (fun p => p.file.isNone) < 32

theorem fieldsPlaced_nil (n : Nat) : FieldsPlaced n [] := by
  intro front q back h
  exact absurd h.symm (List.append_ne_nil_of_right_ne_nil _ (List.cons_ne_nil q back))

theorem fieldsPlaced_field (hfile : p.file = none) (parts : List FormPart) :
    FieldsPlaced n (p :: parts) ↔ (formFiles parts ≠ [] → n < 32) ∧ FieldsPlaced (n + 1) parts := by
  constructor
  · intro h
    refine ⟨h [] p parts rfl hfile, fun front q back hsplit hq hback => ?_⟩
    have hlt := h (p :: front) q back (by rw [hsplit, List.cons_append]) hq hback
    rw [List.countP_cons_of_pos (by rw [hfile]; rfl)] at hlt
    omega
  · rintro ⟨hroom, h⟩ front q back hsplit hq hback
    cases front with
    | nil =>
      cases hsplit
      exact hroom hback
    | cons p' front =>
      cases hsplit
      rw [List.countP_cons_of_pos (by rw [hfile]; rfl)]
      have hlt := h front q back rfl hq hback
      omega

theorem fieldsPlaced_file (hfile : p.file ≠ none) (parts : List FormPart) :
    FieldsPlaced n (p :: parts) ↔ FieldsPlaced n parts := by
  obtain ⟨f, hf⟩ := Option.ne_none_iff_exists'.mp hfile
  constructor
  · intro h front q back hsplit hq hback
    have hlt := h (p :: front) q back (by rw [hsplit, List.cons_append]) hq hback
    rwa [List.countP_cons_of_neg (by rw [hf]; exact Bool.false_ne_true)] at hlt
  · intro h front q back hsplit hq hback
    cases front with
    | nil =>
      cases hsplit
      exact absurd hq hfile
    | cons p' front =>
      cases hsplit
      rw [List.countP_cons_of_neg (by rw [hf]; exact Bool.false_ne_true)]
      exact h front q back rfl hq hback

/-- **One file**: what is recorded is the file when it is not the eighth, its name is not
decoded and its content fits with the delimiter. -/
theorem recordedFile_iff {f : FileName} (hne : f.name ≠ []) (hcached : f.Cached boundary) (k : Nat)
    (content : List Byte) :
    recordedFile boundary flags k f.name content =
        { name := f.name, rawFileLen := content.length, value := content.take HTTP_FILE_MAX_LEN } ↔
      k < 7 ∧ FileKept boundary flags f content := by
  have hshort : f.name.length < DECODE_BUF := by
    unfold FileName.Cached at hcached
    simp only [List.length_append] at hcached
    exact Nat.lt_of_le_of_lt (show f.name.length ≤ 511 by omega) (by decide)
  have hlen : (delimited boundary content).dropLast.length = content.length + ((labelOf boundary).length + 1) := by
    rw [List.length_dropLast, delimited_length]
    omega
  have hmax : HTTP_FILE_MAX_LEN = 550 := rfl
  have hlabel : (labelOf boundary).length ≤ 255 := List.length_take_le _ _
  -- the eighth file is recorded without its name
  rcases Nat.lt_or_ge k 7 with hk | hk
  · have hk' : ¬ 7 ≤ k := by omega
    have hname : (keptName flags k f.name).p.getD [] = decodedText flags f.name := by
      rw [keptName, if_neg hk', ofText_decoded hne hshort, Option.getD_some]
    have hvalue : ∀ d ≤ content.length, (delimited boundary content).dropLast.take d = content.take d := by
      intro d hd
      have hfront : (delimited boundary content).dropLast.take content.length = content := by
        rw [List.dropLast_eq_take, List.take_take, Nat.min_eq_left (by rw [delimited_length]; omega), delimited,
          List.append_assoc, List.take_left' rfl]
      calc (delimited boundary content).dropLast.take d
          = ((delimited boundary content).dropLast.take content.length).take d := by
            rw [List.take_take, Nat.min_eq_left hd]
        _ = content.take d := by rw [hfront]
    have hraw : max 0 (((content.length + ((labelOf boundary).length + 1) : Nat) : Int) -
        ((labelOf boundary).length + 1 : Nat)) = content.length := by omega
    unfold recordedFile cutFile
    rw [hname, hlen, if_neg hk', if_neg hk', hvalue _ (by omega), hraw, FileEntry.mk.injEq]
    constructor
    · rintro ⟨hdecoded, -, htake⟩
      refine ⟨hk, hcached, hdecoded, ?_⟩
      -- the shorter text is a proper one
      have hlen' := congrArg List.length htake
      rw [List.length_take, List.length_take] at hlen'
      omega
    · rintro ⟨-, hkept⟩
      have hroom := hkept.room
      refine ⟨hkept.name, rfl, ?_⟩
      rw [List.take_of_length_le (by omega), List.take_of_length_le (by omega)]
  · refine iff_of_false (fun h => ?_) fun h => by omega
    have hname := congrArg FileEntry.name h
    unfold recordedFile cutFile keptName at hname
    rw [if_pos hk] at hname
    exact hne hname.symm

theorem recordedFiles_length (boundary : List Byte) (flags : DecodeFlag) : ∀ (parts : List FormPart) (k n : Nat),
    (recordedFiles boundary flags k n parts).length ≤ (formFiles parts).length := by
  intro parts
  induction parts with
  | nil => exact fun _ _ => Nat.le_refl _
  | cons p parts ih =>
    intro k n
    have hle := formFiles_cons p parts
    rw [recordedFiles]
    cases hread : p.readName boundary with
    | none =>
      dsimp only
      split
      · exact (ih k (n + 1)).trans hle
      · exact Nat.zero_le _
    | some name =>
      rw [formFiles_read hread, List.length_cons]
      exact Nat.succ_le_succ (ih (k + 1) n)

/-- **All files**, by induction on the parts. -/
theorem recordedFiles_iff : ∀ (parts : List FormPart) (k n : Nat), k ≤ 7 → (∀ p ∈ parts, p.Ok) →
    (recordedFiles boundary flags k n parts = formFiles parts ↔
      k + (formFiles parts).length ≤ 7 ∧
        (∀ p ∈ parts, ∀ f ∈ p.file, FileKept boundary flags f p.value) ∧ FieldsPlaced n parts) := by
  intro parts
  induction parts with
  | nil => exact fun k n hk _ => iff_of_true rfl ⟨hk, fun p hp => (by cases hp), fieldsPlaced_nil n⟩
  | cons p parts ih =>
    intro k n hk hok
    obtain ⟨hp, hok⟩ := List.forall_mem_cons.mp hok
    cases hfile : p.file with
    | none =>
      rw [recordedFiles, readName_field hfile, formFiles_field hfile, fieldsPlaced_field hfile,
        List.forall_mem_cons, hfile]
      dsimp only
      -- the argument table is full behind 32 fields, and the parsing ends there
      by_cases hroom : n < 32
      · rw [if_pos hroom, ih k (n + 1) hk hok]
        simp [hroom]
      · rw [if_neg hroom]
        constructor
        · intro hnone
          rw [← hnone]
          have hempty : recordedFiles boundary flags k (n + 1) parts = formFiles parts := by
            have hle := recordedFiles_length boundary flags parts k (n + 1)
            rw [← hnone, List.length_nil, Nat.le_zero, List.length_eq_zero_iff] at hle
            rw [hle, ← hnone]
          obtain ⟨-, hkept, hfit⟩ := (ih k (n + 1) hk hok).mp hempty
          exact ⟨hk, ⟨fun f hf => (by cases hf), hkept⟩, fun hno => absurd rfl hno, hfit⟩
        · rintro ⟨-, -, hfit, -⟩
          by_contra hno
          exact hroom (hfit (Ne.symm hno))
    | some f =>
      obtain ⟨hf, hne⟩ := hp.file f hfile
      rw [fieldsPlaced_file (by rw [hfile]; exact Option.some_ne_none f), List.forall_mem_cons, hfile]
      by_cases hcached : f.Cached boundary
      · rw [recordedFiles, readName_file hfile hcached, formFiles_file hfile]
        dsimp only
        rw [List.cons.injEq, recordedFile_iff hne hcached, List.length_cons]
        constructor
        · rintro ⟨⟨hlt, hkept⟩, hrest⟩
          obtain ⟨hcount, hall, hfit⟩ := (ih (k + 1) n hlt hok).mp hrest
          refine ⟨by omega, ⟨fun f' hf' => ?_, hall⟩, hfit⟩
          cases hf'
          exact hkept
        · rintro ⟨hcount, ⟨hkept, hall⟩, hfit⟩
          exact ⟨⟨by omega, hkept f rfl⟩, (ih (k + 1) n (by omega) hok).mpr ⟨by omega, hall, hfit⟩⟩
      · -- a file that is not read is missing
        have hread : p.readName boundary = none := by
          rw [FormPart.readName, hfile, Option.bind_some, if_neg hcached]
        refine iff_of_false (fun h => ?_) fun h => hcached (h.2.1.1 f rfl).cached
        have hlen := congrArg List.length h
        have hle := recordedFiles_length boundary flags parts k (n + 1)
        rw [recordedFiles, hread, formFiles_file hfile, List.length_cons] at hlen
        dsimp only at hlen
        split at hlen
        · omega
        · rw [List.length_nil] at hlen
          omega

end

end WafProxy
