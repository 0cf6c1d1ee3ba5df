import WafProxy.Http.FormSteps
import WafProxy.Http.PartsLost

/-
  The current argument of the multipart parser — `http_parse_form` of http_form.c,
  `http_append_arg` of http_arg.c

  The state is set to HTTP_FORM_BODY before the slot is taken, and stays so when
  there is none and the function returns -1. `http_append_arg` does not look at the
  item it is given.

  What is proved:
    1. `formByte_slot` — a turn of the loop that does not return keeps an argument
       for the content that is read.
    2. `outOfSlots_appends` — a segment behind that return appends its first byte to
       NULL.
    3. `currentArg_iff` — along a run no call of `http_append_arg` is given NULL
       exactly when nothing but empty segments follows that return.

  Correspondence (C ↔ Lean):
    `arg->cur` in the calls of `http_append_arg`   ↔ `formAppends`
    what `return -1` leaves                        ↔ `OutOfSlots`
-/

namespace WafProxy
open Lib

/-- The pointers that the turn of a byte gives to `http_append_arg`. -/
def formAppends (label : List Byte) (s : Http × Byte) : List (Option Nat) :=
  match s.1.loc.formStatus with
  | .begin => []
  | .header =>
    match httpWaitLineStr s.2 s.1.loc with
    | some (some text, loc) =>
      let info := formFile text { s.1 with loc := { loc with formStatus := .body } }
      let arg := httpGetEmptyArg info.arg
      -- the name, and the NUL behind it
      if info.loc.formFlag = .arg ∧ arg.cur ≠ none then [arg.cur, arg.cur] else []
    | _ => []
  | .body =>
    match formLabel label s.2 s.1.loc with
    | some (false, loc) => if loc.formFlag = .arg then [s.1.arg.cur] else []
    | _ => []

/-- Content of an argument is read, and there is no slot for it. -/
structure OutOfSlots (info : Http) : Prop where
  status : info.loc.formStatus = .body
  flag : info.loc.formFlag = .arg
  cur : info.arg.cur = none

/-- Whatever is appended while a segment is parsed is appended to an item. -/
def AppendsToItems (info : Http) (segment : List Byte) : Prop :=
  ∀ label ∈ formLabelText info, ∀ s ∈ formSteps label segment info [],
    ∀ cur ∈ formAppends label s, cur ≠ none

/-- No byte follows when the slots have run out. -/
def SlotsLeft (info : Http) (segment : List Byte) : Prop := OutOfSlots info → segment = []

/-! ## One byte -/

section
variable {label : List Byte} {c : Byte} {info r : Http} {name name' : List Byte} {stop : Bool}

/-- An argument's slot: taken, or the function returns. -/
theorem formArg_slot (h : formArg name info = some (r, stop)) (hflag : info.loc.formFlag = .arg) :
    stop = false → r.arg.cur ≠ none := by
  intro hgoes
  unfold formArg at h
  rw [if_pos hflag] at h
  dsimp only at h
  split at h
  · cases h
    cases hgoes
  · next hcur =>
    obtain ⟨arg, hname, h⟩ := Option.bind_eq_some_iff.mp h
    obtain ⟨arg', hnul, h⟩ := Option.bind_eq_some_iff.mp h
    cases h
    have h1 := (httpAppendArg_onlyCur hname).cur
    have h2 := (onlyCur_onCur arg fun item => { item with argFlag := false }).cur
    have h3 := (httpAppendArg_onlyCur hnul).cur
    have h4 := (onlyCur_onCur arg' fun item => { item with argFlag := true }).cur
    rw [h4, h3, h2, h1]
    exact hcur

/-- A turn that goes on keeps an argument for the content that is read. -/
theorem formByte_slot (hslot : ¬ OutOfSlots info) (h : formByte label c info name = some (r, name', false)) :
    ¬ OutOfSlots r := by
  intro hout
  unfold formByte at h
  cases hstatus : info.loc.formStatus with
  | begin =>
    rw [hstatus] at h
    obtain ⟨r', hbegin, hr⟩ := Option.map_eq_some_iff.mp h
    cases hr
    -- in front of the first label no content is read
    obtain ⟨⟨met, loc⟩, hlabel, rfl⟩ := Option.map_eq_some_iff.mp hbegin
    have hbody := hout.status
    cases met with
    | true => cases hbody
    | false =>
      have hloc : loc.formStatus = info.loc.formStatus := by rw [(formLabel_readerOnly hlabel).eq]
      rw [show loc.formStatus = .body from hbody, hstatus] at hloc
      cases hloc
  | header =>
    rw [hstatus] at h
    unfold formHeader at h
    obtain ⟨⟨text, loc⟩, hline, h⟩ := Option.bind_eq_some_iff.mp h
    cases text with
    | none =>
      cases h
      have hloc : loc.formStatus = info.loc.formStatus := by rw [(httpWaitLineStr_reader hline).1]
      rw [show loc.formStatus = .body from hout.status, hstatus] at hloc
      cases hloc
    | some text =>
      obtain ⟨⟨i, stop'⟩, harg, h⟩ := Option.bind_eq_some_iff.mp h
      cases h
      have hflag := hout.flag
      rw [formArg_loc harg] at hflag
      exact formArg_slot harg hflag rfl hout.cur
  | body =>
    rw [hstatus] at h
    obtain ⟨r', hbody, hr⟩ := Option.map_eq_some_iff.mp h
    cases hr
    cases hflag : info.loc.formFlag with
    | file =>
      rcases (formBody_file hflag hstatus hbody).2 with hst | ⟨-, hfile⟩
      · rw [hout.status] at hst
        cases hst
      · rw [hout.flag] at hfile
        cases hfile
    | arg =>
      rcases formBody_arg hflag hstatus hbody with ⟨happend, -⟩ | ⟨-, hst⟩
      · refine hslot ⟨hstatus, hflag, ?_⟩
        rw [← (httpAppendArg_onlyCur happend).cur]
        exact hout.cur
      · rw [hout.status] at hst
        cases hst

/-- With a slot for what is read, nothing is appended to NULL. -/
theorem formAppends_slot (hslot : ¬ OutOfSlots info) : ∀ cur ∈ formAppends label (info, c), cur ≠ none := by
  intro cur hmem
  unfold formAppends at hmem
  cases hstatus : info.loc.formStatus with
  | begin =>
    simp only [hstatus] at hmem
    cases hmem
  | header =>
    simp only [hstatus] at hmem
    split at hmem
    · split at hmem
      · next hslot =>
        rcases List.mem_cons.mp hmem with rfl | hmem
        · exact hslot.2
        · rw [List.mem_singleton.mp hmem]
          exact hslot.2
      · cases hmem
    · cases hmem
  | body =>
    simp only [hstatus] at hmem
    split at hmem
    · next loc hlabel =>
      split at hmem
      · next hflag =>
        have hflag' : info.loc.formFlag = .arg := by
          rw [(formLabel_readerOnly hlabel).eq] at hflag
          exact hflag
        rw [List.mem_singleton.mp hmem]
        exact fun hnone => hslot ⟨hstatus, hflag', hnone⟩
      · cases hmem
    · cases hmem

end

/-! ## The state that -1 leaves -/

/-- A label that is neither begun nor being read: with the next byte it is not met. -/
def LabelIdle (loc : HttpLocal) : Prop := loc.myformLabelState ≠ .begin ∧ loc.myformLabelState ≠ .run

theorem formLabel_fromIdle {label : List Byte} {c : Byte} {loc : HttpLocal} (h : LabelIdle loc) :
    ∃ loc', formLabel label c loc = some (false, loc') ∧ loc'.formFlag = loc.formFlag := by
  have hstate : (countLabel c loc).myformLabelState ≠ .run := by
    unfold countLabel
    split
    · dsimp only
      split
      · decide
      · exact h.2
    · dsimp only
      rw [if_neg (by rintro (hb | hr); exacts [h.1 hb, h.2 hr])]
      decide
  refine ⟨countLabel c loc, ?_, ?_⟩
  · unfold formLabel
    rw [if_neg hstate]
  · unfold countLabel
    split <;> rfl

/-- Where the slots have run out no label is being read. -/
def OutOfSlotsIdle (info : Http) : Prop := OutOfSlots info → LabelIdle info.loc

/-- **A byte behind that state is appended to NULL.** -/
theorem outOfSlots_appends {label : List Byte} {info : Http} (hout : OutOfSlots info) (hidle : LabelIdle info.loc)
    (c : Byte) : none ∈ formAppends label (info, c) := by
  obtain ⟨loc, hlabel, hflag⟩ := @formLabel_fromIdle label c info.loc hidle
  unfold formAppends
  simp only [hout.status, hlabel, hflag, hout.flag, if_true, hout.cur, List.mem_singleton]

/-- What the loop leaves when it returns -1: a label had just been met. -/
theorem formByte_stop {label : List Byte} {c : Byte} {info r : Http} {name name' : List Byte}
    (hidle : HeaderIdle info) (h : formByte label c info name = some (r, name', true)) :
    LabelIdle r.loc := by
  unfold formByte at h
  cases hstatus : info.loc.formStatus with
  | begin =>
    rw [hstatus] at h
    obtain ⟨r', -, hr⟩ := Option.map_eq_some_iff.mp h
    cases hr
  | body =>
    rw [hstatus] at h
    obtain ⟨r', -, hr⟩ := Option.map_eq_some_iff.mp h
    cases hr
  | header =>
    rw [hstatus] at h
    have hnull := hidle hstatus
    unfold formHeader at h
    obtain ⟨⟨text, loc⟩, hline, h⟩ := Option.bind_eq_some_iff.mp h
    have hstate : loc.myformLabelState = .null := by
      rw [(httpWaitLineStr_reader hline).1]
      exact hnull
    cases text with
    | none => cases h
    | some text =>
      obtain ⟨⟨i, stop'⟩, harg, h⟩ := Option.bind_eq_some_iff.mp h
      cases h
      have hlabel : r.loc.myformLabelState = .null := by
        rw [formArg_loc harg, (formFile_reader text _).2.2.2.1]
        exact hstate
      exact ⟨by rw [hlabel]; decide, by rw [hlabel]; decide⟩

/-- One turn leaves no window open in front of a header. -/
theorem formByte_headerIdle {label : List Byte} {c : Byte} {info r : Http} {name name' : List Byte} {stop : Bool}
    (hidle : HeaderIdle info) (h : formByte label c info name = some (r, name', stop)) : HeaderIdle r := by
  have hloop := httpParseFormLoop_cons label c [] info name
  rw [h, Option.bind_some] at hloop
  refine loop_headerIdle label [c] info r name stop hidle (hloop.trans ?_)
  cases stop with
  | true => rfl
  | false => rfl

/-! ## Calls -/

/-- What holds between two calls of `http_parse_form`. -/
structure CallState (info : Http) : Prop where
  label : formLabelText info ≠ none
  header : HeaderIdle info
  out : OutOfSlotsIdle info

theorem formLabelText_same {info r : Http} (h : r.str = info.str) : formLabelText r = formLabelText info := by
  unfold formLabelText
  rw [h]

/-- The cuts behind the loop move no pointer. -/
theorem formEnd_cur (label : List Byte) (info : Http) : (formEnd label info).arg.cur = info.arg.cur := by
  rcases finalTable_onlyCur label info false with h | h
  · exact congrArg HttpArgCtrl.cur h
  · exact (congrArg HttpArgCtrl.cur h).trans (onlyCur_onCur _ _).cur

theorem OutOfSlots.of_same {info r : Http} (hloc : r.loc = info.loc) (hcur : r.arg.cur = info.arg.cur)
    (h : OutOfSlots r) : OutOfSlots info where
  status := hloc ▸ h.status
  flag := hloc ▸ h.flag
  cur := hcur ▸ h.cur

/-- **One call**: what it appends to, and the state it leaves. -/
theorem call_step {info : Http} {segment : List Byte} (h : CallState info) (hslots : SlotsLeft info segment) :
    AppendsToItems info segment ∧ ∀ r, httpParseForm segment info = some r → CallState r := by
  cases segment with
  | nil =>
    refine ⟨fun label _ s hs => (by cases hs), fun r hr => ?_⟩
    obtain ⟨label, i, stop, hlabel, hloop, rfl⟩ := httpParseForm_some hr
    cases hloop
    rw [if_neg Bool.false_ne_true]
    have hframe := formEnd_frame label info
    have hloc := formEnd_loc label info
    refine ⟨?_, ?_, ?_⟩
    · rw [formLabelText_same hframe.str]
      exact h.label
    · unfold HeaderIdle
      rw [hloc]
      exact h.header
    · intro hout
      rw [hloc]
      exact h.out (hout.of_same hloc (formEnd_cur label info))
  | cons c data =>
    have hin : ¬ OutOfSlots info := fun hout => List.cons_ne_nil c data (hslots hout)
    -- every turn keeps a slot and a closed window, until one returns
    have hrun : ∀ label, _ := fun label =>
      @formSteps_run label (fun i => ¬ OutOfSlots i ∧ HeaderIdle i) (fun i => LabelIdle i.loc ∧ HeaderIdle i)
        (fun _ _ _ _ _ hi hbyte => ⟨formByte_slot hi.1 hbyte, formByte_headerIdle hi.2 hbyte⟩)
        (fun _ _ _ _ _ hi hbyte => ⟨formByte_stop hi.2 hbyte, formByte_headerIdle hi.2 hbyte⟩)
        (c :: data) info [] ⟨hin, h.header⟩
    refine ⟨fun label _ s hs => formAppends_slot ((hrun label).1 s hs).1, fun r hr => ?_⟩
    obtain ⟨label, i, stop, hlabel, hloop, rfl⟩ := httpParseForm_some hr
    have hi := (hrun label).2 i stop hloop
    have hstr := (httpParseFormLoop_frame _ hloop).str
    cases stop with
    | true =>
      rw [if_pos rfl] at hi ⊢
      refine ⟨?_, hi.2, fun _ => hi.1⟩
      rw [formLabelText_same hstr]
      exact h.label
    | false =>
      rw [if_neg Bool.false_ne_true] at hi ⊢
      have hloc := formEnd_loc label i
      refine ⟨?_, ?_, fun hout => absurd (hout.of_same hloc (formEnd_cur label i)) hi.1⟩
      · rw [formLabelText_same ((formEnd_frame label i).str.trans hstr)]
        exact h.label
      · unfold HeaderIdle
        rw [hloc]
        exact hi.2

/-- One segment. -/
theorem appendsToItems_iff {info : Http} (h : CallState info) (segment : List Byte) :
    AppendsToItems info segment ↔ SlotsLeft info segment := by
  refine ⟨fun happends hout => ?_, fun hslots => (call_step h hslots).1⟩
  cases segment with
  | nil => rfl
  | cons c data =>
    obtain ⟨label, hlabel⟩ := Option.ne_none_iff_exists'.mp h.label
    exact absurd rfl (happends label hlabel (info, c) List.mem_cons_self none
      (outOfSlots_appends hout (h.out hout) c))

/-- The parser in front of a body: the head has set its boundary, and no label is met yet. -/
structure BodyStart (info : Http) : Prop where
  label : formLabelText info ≠ none
  status : info.loc.formStatus = .begin

theorem BodyStart.callState {info : Http} (h : BodyStart info) : CallState info where
  label := h.label
  header := fun hheader => by
    rw [h.status] at hheader
    cases hheader
  out := fun hout => by
    have hbody := hout.status
    rw [h.status] at hbody
    cases hbody

/-- **When the multipart parser has a current argument.** In a run of `http_parse_form` on the
segments of one body, `http_append_arg` is always given an item exactly when no byte follows
the call that returned -1 for want of a slot. -/
theorem currentArg_iff {info : Http} (h : BodyStart info) (segments : List (List Byte)) :
    formMachine.Meets AppendsToItems info segments ↔ formMachine.Meets SlotsLeft info segments := by
  refine Machine.meets_congr_while (I := CallState) ?_ (fun i segment hi => appendsToItems_iff hi segment)
    h.callState
  intro i segment r happends hi hstep
  exact (call_step hi ((appendsToItems_iff hi segment).mp happends)).2 r hstep

/-- The parser behind the head of a multipart request whose query has 32 arguments. -/
def fullRequest : Http := behindHead (formHead (str "/?" ++ List.replicate 31 (ch '&')) (str "bound"))

theorem fullRequest_start : BodyStart fullRequest := ⟨by decide +kernel, by decide +kernel⟩

theorem currentArg_part : formMachine.Meets AppendsToItems (formRequest (str "bound"))
    [str "--bound" ++ partHead (str "a"), str "x"] := by
  have hstart : BodyStart (formRequest (str "bound")) := ⟨by decide +kernel, by decide +kernel⟩
  refine (currentArg_iff hstart _).mpr ⟨fun hout => ?_, fun r hr => ⟨fun hout => ?_, fun _ _ => trivial⟩⟩
  · exact absurd (hstart.status.symm.trans hout.status) (by decide)
  · have hcur : (httpParseForm (str "--bound" ++ partHead (str "a")) (formRequest (str "bound"))).map
        (·.arg.cur) = some (some 0) := by decide +kernel
    rw [show httpParseForm _ _ = some r from hr, Option.map_some, hout.cur] at hcur
    cases hcur

/-- The table is full when the part's head ends; the next segment appends to NULL. -/
theorem slot_missing : ¬ formMachine.Meets AppendsToItems fullRequest
    [str "--bound" ++ partHead (str "a"), str "x"] := by
  intro h
  have hstart := fullRequest_start
  have hout : (httpParseForm (str "--bound" ++ partHead (str "a")) fullRequest).map
      (fun r => (r.loc.formStatus, r.loc.formFlag, r.arg.cur)) = some (.body, .arg, none) := by
    decide +kernel
  obtain ⟨r, hr, heq⟩ := Option.map_eq_some_iff.mp hout
  obtain ⟨hstatus, hrest⟩ := Prod.mk.inj heq
  obtain ⟨hflag, hcur⟩ := Prod.mk.inj hrest
  have hcall : CallState r :=
    (call_step hstart.callState fun hout => absurd (hstart.status.symm.trans hout.status) (by decide)).2 r hr
  have hempty := (appendsToItems_iff hcall (str "x")).mp (h.2 r hr).1 ⟨hstatus, hflag, hcur⟩
  exact absurd hempty (by decide)

end WafProxy
