import WafProxy.Http.FormSteps

/-
  What the form parser does not read — http_form.c

  The loop of `http_parse_form` reads neither a counter of the body nor the state
  of the message nor `http_int_t`, so a form is parsed alike whatever these are
  (`httpParseFormLoop_recount`). Only what follows the loop looks at the state, to
  see whether the message has ended (`httpParseForm_recount`).
-/

namespace WafProxy
open Lib

/-- A change of the counters of a body, of the state and of the integers. -/
structure Recount where
  left : Int → Int
  chunk : Int → Int
  flag : ChunkFlag → ChunkFlag
  state : HttpState → HttpState
  ints : HttpInt → HttpInt

def HttpLocal.recount (g : Recount) (loc : HttpLocal) : HttpLocal :=
  { loc with
    unRecvContentLen := g.left loc.unRecvContentLen
    unRecvChunkedLen := g.chunk loc.unRecvChunkedLen
    chunkFlag := g.flag loc.chunkFlag }

def Http.recount (g : Recount) (info : Http) : Http :=
  { info with
    loc := info.loc.recount g
    logic := { info.logic with state := g.state info.logic.state }
    httpInt := g.ints info.httpInt }

section
variable {g : Recount} {c : Byte} {loc : HttpLocal} {info : Http} {label : List Byte}

theorem cacheByte_recount : cacheByte (loc.recount g) c = (cacheByte loc c).map (·.recount g) := by
  unfold cacheByte HttpLocal.recount
  split
  · rfl
  · split <;> rfl

theorem httpWaitLabelStr_recount : httpWaitLabelStr label c (loc.recount g) =
    (httpWaitLabelStr label c loc).map fun r => (r.1, r.2.recount g) := by
  unfold httpWaitLabelStr
  rw [cacheByte_recount]
  cases cacheByte loc c with
  | none => rfl
  | some loc' =>
    simp only [Option.map_some]
    unfold HttpLocal.recount
    split <;> rfl

theorem httpWaitLineStr_recount : httpWaitLineStr c (loc.recount g) =
    (httpWaitLineStr c loc).map fun r => (r.1, r.2.recount g) := by
  unfold httpWaitLineStr
  rw [cacheByte_recount]
  cases cacheByte loc c with
  | none => rfl
  | some loc' =>
    simp only [Option.map_some]
    unfold HttpLocal.recount
    dsimp only
    split
    · split
      · rfl
      · split <;> rfl
    · split
      · split
        · rfl
        · split <;> rfl
      · rfl

theorem countLabel_recount : countLabel c (loc.recount g) = (countLabel c loc).recount g := by
  unfold countLabel HttpLocal.recount
  split <;> rfl

theorem formLabel_recount : formLabel label c (loc.recount g) =
    (formLabel label c loc).map fun r => (r.1, r.2.recount g) := by
  unfold formLabel
  rw [countLabel_recount]
  dsimp only
  have hstate : ((countLabel c loc).recount g).myformLabelState =
      (countLabel c loc).myformLabelState := rfl
  rw [hstate]
  split
  · exact httpWaitLabelStr_recount
  · rfl

theorem formBegin_recount : formBegin label c (info.recount g) =
    (formBegin label c info).map (·.recount g) := by
  unfold formBegin
  have hloc : (info.recount g).loc = info.loc.recount g := rfl
  rw [hloc, formLabel_recount]
  cases formLabel label c info.loc with
  | none => rfl
  | some r =>
    obtain ⟨met, loc'⟩ := r
    cases met <;> rfl

theorem formFile_recount (text : List Byte) : formFile text (info.recount g) =
    (formFile text info).recount g := by
  unfold formFile
  split <;> rfl

theorem formArg_recount (name : List Byte) : formArg name (info.recount g) =
    (formArg name info).map fun r => (r.1.recount g, r.2) := by
  unfold formArg
  have hflag : (info.recount g).loc.formFlag = info.loc.formFlag := rfl
  have harg : (info.recount g).arg = info.arg := rfl
  rw [hflag, harg]
  split
  · dsimp only
    split
    · rfl
    · cases httpAppendArg name (httpGetEmptyArg info.arg) with
      | none => rfl
      | some arg =>
        simp only [Option.bind_eq_bind, Option.bind_some]
        cases httpAppendArg [0] (arg.onCur fun item => { item with argFlag := false }) with
        | none => rfl
        | some arg' => rfl
  · rfl

theorem formHeader_recount (name : List Byte) : formHeader c (info.recount g) name =
    (formHeader c info name).map fun r => (r.1.recount g, r.2) := by
  unfold formHeader
  have hloc : (info.recount g).loc = info.loc.recount g := rfl
  rw [hloc, httpWaitLineStr_recount]
  cases httpWaitLineStr c info.loc with
  | none => rfl
  | some r =>
    obtain ⟨text, loc'⟩ := r
    cases text with
    | none => rfl
    | some text =>
      simp only [Option.bind_eq_bind, Option.bind_some, Option.map_some]
      have hfile : formFile text { info.recount g with loc :=
          { loc'.recount g with formStatus := .body } } =
          (formFile text { info with loc := { loc' with formStatus := .body } }).recount g :=
        @formFile_recount g { info with loc := { loc' with formStatus := .body } } text
      rw [hfile, formArg_recount]
      cases formArg ((httpGetFormLableValue text (str "name=\"") 512).getD name)
        (formFile text { info with loc := { loc' with formStatus := .body } }) with
      | none => rfl
      | some r => rfl

theorem formContent_recount : formContent c (info.recount g) =
    (formContent c info).map (·.recount g) := by
  unfold formContent
  have hloc : (info.recount g).loc.formFlag = info.loc.formFlag := rfl
  have hnull : (info.recount g).loc.nullFile = info.loc.nullFile := rfl
  have hfile : (info.recount g).file = info.file := rfl
  have harg : (info.recount g).arg = info.arg := rfl
  rw [hloc, hnull, hfile, harg]
  split
  · split
    · rfl
    · split
      · rfl
      · dsimp only
        split
        · rfl
        · rw [Option.map_map]
          rfl
  · rw [Option.map_map]
    rfl

theorem formCutFile_recount (k : Nat) : formCutFile k (info.recount g) =
    (formCutFile k info).recount g := by
  unfold formCutFile
  have hnull : (info.recount g).loc.nullFile = info.loc.nullFile := rfl
  have hfile : (info.recount g).file = info.file := rfl
  rw [hnull, hfile]
  split
  · rfl
  · split <;> rfl

theorem formCutArg_recount (k : Nat) : formCutArg k (info.recount g) =
    (formCutArg k info).recount g := rfl

theorem formBody_recount : formBody label c (info.recount g) =
    (formBody label c info).map (·.recount g) := by
  unfold formBody
  have hloc : (info.recount g).loc = info.loc.recount g := rfl
  rw [hloc, formLabel_recount]
  cases formLabel label c info.loc with
  | none => rfl
  | some r =>
    obtain ⟨met, loc'⟩ := r
    simp only [Option.bind_eq_bind, Option.bind_some, Option.map_some]
    have hinfo : ({ info.recount g with loc := loc'.recount g } : Http) =
        ({ info with loc := loc' } : Http).recount g := rfl
    have hflag : (loc'.recount g).formFlag = loc'.formFlag := rfl
    have harg : (info.recount g).arg = info.arg := rfl
    rw [hinfo, hflag, harg, formCutFile_recount, formCutArg_recount, formContent_recount]
    split
    · by_cases hfile : loc'.formFlag = .file
      · rw [if_pos hfile, if_pos hfile]
        rfl
      · rw [if_neg hfile, if_neg hfile]
        by_cases hvalue : ∃ item ∈ info.arg.item, item.value.p ≠ none ∧ 0 < item.value.len
        · rw [if_pos hvalue, if_pos hvalue]
          rfl
        · rw [if_neg hvalue, if_neg hvalue]
          rfl
    · rfl

theorem formByte_recount (name : List Byte) : formByte label c (info.recount g) name =
    (formByte label c info name).map fun r => (r.1.recount g, r.2) := by
  have hstatus : (info.recount g).loc.formStatus = info.loc.formStatus := rfl
  unfold formByte
  rw [hstatus]
  cases info.loc.formStatus with
  | begin =>
    dsimp only
    rw [formBegin_recount, Option.map_map, Option.map_map]
    rfl
  | header => exact formHeader_recount name
  | body =>
    dsimp only
    rw [formBody_recount, Option.map_map, Option.map_map]
    rfl

/-- **The loop reads none of them.** -/
theorem httpParseFormLoop_recount (data : List Byte) : ∀ {info : Http} {name : List Byte},
    httpParseFormLoop label data (info.recount g) name =
      (httpParseFormLoop label data info name).map fun r => (r.1.recount g, r.2) := by
  induction data with
  | nil =>
    intro info name
    rfl
  | cons c data ih =>
    intro info name
    rw [httpParseFormLoop_cons, httpParseFormLoop_cons, formByte_recount]
    cases formByte label c info name with
    | none => rfl
    | some r =>
      obtain ⟨info', name', stop⟩ := r
      cases stop with
      | true => rfl
      | false => exact ih

/-- What follows the loop asks whether the message has ended. -/
theorem formEnd_recount (hstate : g.state info.logic.state = .none ↔ info.logic.state = .none) :
    formEnd label (info.recount g) = (formEnd label info).recount g := by
  unfold formEnd
  have hsame : (info.recount g).logic.state = .none ↔ info.logic.state = .none := hstate
  have hflag : (info.recount g).loc.formFlag = info.loc.formFlag := rfl
  have harg : (info.recount g).arg = info.arg := rfl
  simp only [hsame]
  rw [hflag, harg]
  split
  · split
    · exact formCutFile_recount _
    · split
      · exact formCutArg_recount _
      · rfl
  · rfl

theorem httpParseForm_recount (hstate : ∀ s, g.state s = .none ↔ s = .none) (data : List Byte) :
    httpParseForm data (info.recount g) = (httpParseForm data info).map (·.recount g) := by
  unfold httpParseForm
  have hlabel : formLabelText (info.recount g) = formLabelText info := rfl
  rw [hlabel]
  cases formLabelText info with
  | none => rfl
  | some label =>
    simp only [Option.bind_eq_bind, Option.bind_some]
    rw [httpParseFormLoop_recount]
    cases httpParseFormLoop label data info [] with
    | none => rfl
    | some r =>
      obtain ⟨info', stop⟩ := r
      cases stop with
      | true => rfl
      | false => exact congrArg some (formEnd_recount (hstate _))

end

end WafProxy
