import WafProxy.Http.Head

/-
  multipart/form-data — http_form.c

  The parser takes one byte at a time, so it is a function of the bytes it is
  given; what it keeps between two calls is in `local_t`. `none` is undefined
  behaviour: a NULL item dereferenced, or `cache_buf` overrun.

  Correspondence (C ↔ Lean):
    `http_get_empty_file`, `http_set_file`, `http_append_file` ↔ the same names
    `http_wait_label_str`, `http_wait_line_str`  ↔ `httpWaitLabelStr`, `httpWaitLineStr`
    `http_get_form_lable_value`                  ↔ `httpGetFormLableValue`
    the branches of the loop of `http_parse_form` ↔ `formBegin`, `formHeader`, `formBody`
    the locals `name`, `name_len`                ↔ `name` of the loop
    what follows the loop                        ↔ `formEnd`
-/

namespace WafProxy
open Lib

/-! ## Files -/

def HTTP_FILE_MAX_LEN : Nat := 550

def HttpFileCtrl.onCur (f : HttpFileCtrl) (g : HttpFile → HttpFile) : HttpFileCtrl :=
  match f.cur with
  | some i => { f with file := f.file.modify i g }
  | none => f

/-- `*file->cur`. -/
def HttpFileCtrl.item (f : HttpFileCtrl) : Option HttpFile := f.cur.bind fun i => f.file[i]?

/-- `file->cur = http_get_empty_file(info)`: NULL when the table is full. -/
def httpGetEmptyFile (f : HttpFileCtrl) : HttpFileCtrl :=
  if 8 ≤ f.file.length then { f with cur := none }
  else { cur := some f.file.length, file := f.file ++ [{}] }

/-- `http_set_file(name, name_len, "\0", 0, info, file->cur)`. It does nothing
once the table has 8 items, the last of which is the item itself. -/
def httpSetFile (tmpFlag : DecodeFlag) (name : List Byte) (f : HttpFileCtrl) : HttpFileCtrl :=
  if 8 ≤ f.file.length then f
  else f.onCur fun item =>
    { item with
      rawFileLen := 0
      name := if name = [] then item.name else XStr.ofText tmpFlag name }

/-- `http_append_file(mydata, 1, info, file->cur)`. -/
def httpAppendFile (c : Byte) (f : HttpFileCtrl) : Option HttpFileCtrl :=
  match f.item with
  | none => some f
  | some item =>
    if 8 ≤ f.file.length then some f
    else if HTTP_FILE_MAX_LEN < item.value.len + 1 then
      some (f.onCur fun item => { item with completeFlag := true })
    else (item.value.append [c]).map fun v => f.onCur fun item => { item with value := v }

/-! ## `cache_buf` -/

/-- `strlcpy2` of one byte behind `cache_buf_len`: byte 511 is kept for the NUL.
A full buffer is overrun. -/
def cacheByte (loc : HttpLocal) (c : Byte) : Option HttpLocal :=
  if loc.cacheBuf.length < 511 then some { loc with cacheBuf := loc.cacheBuf ++ [c] }
  else if loc.cacheBuf.length = 511 then some loc
  else none

/-- `http_wait_label_str` on one byte: whether the label was met. -/
def httpWaitLabelStr (label : List Byte) (c : Byte) (loc : HttpLocal) :
    Option (Bool × HttpLocal) :=
  (cacheByte loc c).map fun loc =>
    if (loc.cacheBuf.length : Int) = label.length - loc.boundaryCnt then
      (loc.cacheBuf = label.drop loc.boundaryCnt,
        { loc with cacheBuf := [], myformLabelState := .null })
    else (false, loc)

/-- `http_wait_line_str` on one byte: the cached text when the byte ends it. -/
def httpWaitLineStr (c : Byte) (loc : HttpLocal) : Option (Option (List Byte) × HttpLocal) :=
  (cacheByte loc c).map fun loc =>
    if c = ch '\r' then
      if loc.formHeaderState = 0 then (none, { loc with formHeaderState := 1 })
      else if loc.formHeaderState = 2 then (none, { loc with formHeaderState := 3 })
      else (none, loc)
    else if c = ch '\n' then
      if loc.formHeaderState = 1 then (none, { loc with formHeaderState := 2 })
      else if loc.formHeaderState = 3 then
        (some loc.cacheBuf, { loc with cacheBuf := [], formHeaderState := 0 })
      else (none, loc)
    else (none, { loc with formHeaderState := 0 })

/-- The text between a label and the next quote, at most `max_len - 1` bytes. -/
def httpGetFormLableValue (data label : List Byte) (maxLen : Nat) : Option (List Byte) := do
  let found ← strlstrText label data
  let begin := found.drop label.length
  let _ ← strlstrText (str "\"") begin
  some ((begin.takeWhile (· ≠ ch '"')).take (maxLen - 1))

/-! ## The loop -/

/-- The counting of dashes in `HTTP_FORM_BEGIN` and `HTTP_FORM_BODY`, and
whether the byte belongs to a label being read. -/
def countLabel (c : Byte) (loc : HttpLocal) : HttpLocal :=
  if c = ch '-' then
    let num := loc.myformLabelNum + 1
    { loc with
      myformLabelNum := num
      myformLabelState := if num = loc.boundaryCnt then .begin else loc.myformLabelState }
  else
    { loc with
      myformLabelNum := 0
      myformLabelState :=
        if loc.myformLabelState = .begin ∨ loc.myformLabelState = .run then .run else .null }

/-- Up to and with `http_wait_label_str`: whether the byte ends a label. -/
def formLabel (label : List Byte) (c : Byte) (loc : HttpLocal) : Option (Bool × HttpLocal) :=
  let loc := countLabel c loc
  if loc.myformLabelState = .run then httpWaitLabelStr label c loc else some (false, loc)

def formBegin (label : List Byte) (c : Byte) (info : Http) : Option Http :=
  (formLabel label c info.loc).map fun (met, loc) =>
    { info with
      loc := if met then { loc with formStatus := .header, formFlag := .arg } else loc }

/-- The file item a part with a file name gets. -/
def formFile (text : List Byte) (info : Http) : Http :=
  match httpGetFormLableValue text (str "filename=\"") 512 with
  | none => info
  | some [] => { info with loc := { info.loc with nullFile := true } }
  | some fileName =>
    let file := (httpGetEmptyFile info.file).onCur fun item => { item with completeFlag := false }
    { info with
      loc := { info.loc with nullFile := false, formFlag := .file }
      file := httpSetFile info.tmpFlag fileName file }

/-- The argument item any other part gets; the flag is the `return -1`. -/
def formArg (name : List Byte) (info : Http) : Option (Http × Bool) :=
  if info.loc.formFlag = .arg then
    let arg := httpGetEmptyArg info.arg
    if arg.cur = none then some ({ info with arg := arg }, true)
    else do
      let arg ← httpAppendArg name arg
      let arg ← httpAppendArg [0] (arg.onCur fun item => { item with argFlag := false })
      some ({ info with arg := arg.onCur fun item => { item with argFlag := true } }, false)
  else some (info, false)

/-- `HTTP_FORM_HEADER`; `name` keeps its value when a part has none. -/
def formHeader (c : Byte) (info : Http) (name : List Byte) : Option (Http × List Byte × Bool) := do
  let (text, loc) ← httpWaitLineStr c info.loc
  match text with
  | none => some ({ info with loc := loc }, name, false)
  | some text =>
    let info := formFile text { info with loc := { loc with formStatus := .body } }
    let name := (httpGetFormLableValue text (str "name=\"") 512).getD name
    let (info, stop) ← formArg name info
    some (info, name, stop)

/-- A byte of a part's content is stored. -/
def formContent (c : Byte) (info : Http) : Option Http :=
  if info.loc.formFlag = .file then
    match info.file.item with
    | none => some info
    | some item =>
      if info.loc.nullFile then some info
      else
        let file := info.file.onCur fun item => { item with rawFileLen := item.rawFileLen + 1 }
        if HTTP_FILE_MAX_LEN < item.value.len + 1 then
          some { info with file := file.onCur fun item => { item with completeFlag := true } }
        else (httpAppendFile c file).map fun file => { info with file := file }
  else (httpAppendArg [c] info.arg).map fun arg => { info with arg := arg }

/-- The last `k` bytes of a file's content are taken off. -/
def formCutFile (k : Nat) (info : Http) : Http :=
  match info.file.item with
  | none => info
  | some item =>
    if item.value.p ≠ none ∧ 0 < item.value.len ∧ info.loc.nullFile = false then
      { info with file := info.file.onCur fun item =>
          { item with
            value := item.value.cut k
            rawFileLen := max 0 (item.rawFileLen - k)
            completeFlag := true } }
    else info

/-- The last `k` bytes of an argument's value are taken off. -/
def formCutArg (k : Nat) (info : Http) : Http :=
  { info with arg := info.arg.onCur fun item => { item with value := item.value.cut k } }

/-- `HTTP_FORM_BODY`. The label's last byte has not been stored. -/
def formBody (label : List Byte) (c : Byte) (info : Http) : Option Http := do
  let (met, loc) ← formLabel label c info.loc
  let info := { info with loc := loc }
  if met then
    let info :=
      if loc.formFlag = .file then formCutFile (label.length + 1) info
      else if ∃ item ∈ info.arg.item, item.value.p ≠ none ∧ 0 < item.value.len then
        formCutArg (label.length + 1) info
      else info
    some { info with loc := { loc with formStatus := .header, formFlag := .arg } }
  else formContent c info

/-- The loop of `http_parse_form`; the flag is the `return -1`. -/
def httpParseFormLoop (label : List Byte) : List Byte → Http → List Byte → Option (Http × Bool)
  | [], info, _ => some (info, false)
  | c :: data, info, name =>
    match info.loc.formStatus with
    | .begin => (formBegin label c info).bind fun info => httpParseFormLoop label data info name
    | .header =>
      (formHeader c info name).bind fun (info, name, stop) =>
        if stop then some (info, true) else httpParseFormLoop label data info name
    | .body => (formBody label c info).bind fun info => httpParseFormLoop label data info name

/-- What `http_parse_form` does behind the loop when the message has ended. -/
def formEnd (label : List Byte) (info : Http) : Http :=
  if info.logic.state = .none then
    if info.loc.formFlag = .file then formCutFile (label.length + 2) info
    else if ∃ item ∈ info.arg.item,
        item.value.p ≠ none ∧ (item.value.p.getD []).head? ≠ some 0 ∧ 0 < item.value.len then
      formCutArg (label.length + 2) info
    else info
  else info

/-- `snprintf(label, 256, "--%s", boundary)`. -/
def formLabelText (info : Http) : Option (List Byte) :=
  info.str.boundary.cString.map fun b => (str "--" ++ b).take 255

def httpParseForm (data : List Byte) (info : Http) : Option Http := do
  let label ← formLabelText info
  let (info, stop) ← httpParseFormLoop label data info []
  some (if stop then info else formEnd label info)

end WafProxy
