import WafProxy.Http.Multipart
import WafProxy.Lib.Machine

/-
  The bytes of a multipart body, one at a time — http_form.c

  The three branches of the loop of `http_parse_form` take one byte each, so a
  run of the loop is a list of states and bytes. What one byte keeps holds in
  all of these states (`formSteps_run`).

  Correspondence (C ↔ Lean):
    one turn of the loop                    ↔ `formByte` (`httpParseFormLoop_cons`)
    the turns of the loop                   ↔ `formSteps`
    the calls of `http_parse_form`          ↔ a run of `formMachine`
    the calls of `http_parse_body`          ↔ a run of `bodyMachine`
-/

namespace WafProxy
open Lib

/-- One turn of the loop: the state behind the byte, `name`, and whether the
function returns -1 there. -/
def formByte (label : List Byte) (c : Byte) (info : Http) (name : List Byte) :
    Option (Http × List Byte × Bool) :=
  match info.loc.formStatus with
  | .begin => (formBegin label c info).map fun r => (r, name, false)
  | .header => formHeader c info name
  | .body => (formBody label c info).map fun r => (r, name, false)

/-- The loop is its turns. -/
theorem httpParseFormLoop_cons (label : List Byte) (c : Byte) (data : List Byte) (info : Http)
    (name : List Byte) :
    httpParseFormLoop label (c :: data) info name = (formByte label c info name).bind fun out =>
      if out.2.2 then some (out.1, true) else httpParseFormLoop label data out.1 out.2.1 := by
  unfold formByte
  rw [httpParseFormLoop]
  cases info.loc.formStatus with
  | begin =>
    cases formBegin label c info with
    | none => rfl
    | some r => rfl
  | header =>
    cases formHeader c info name with
    | none => rfl
    | some r => rfl
  | body =>
    cases formBody label c info with
    | none => rfl
    | some r => rfl

/-- The states in which the loop takes a byte, with these bytes. -/
def formSteps (label : List Byte) : List Byte → Http → List Byte → List (Http × Byte)
  | [], _, _ => []
  | c :: data, info, name =>
    (info, c) :: (formByte label c info name).elim [] fun out =>
      if out.2.2 then [] else formSteps label data out.1 out.2.1

/-- **What every turn keeps holds in all the states of a run**, and behind it; `Q` is what a
turn leaves that returns. -/
theorem formSteps_run {label : List Byte} {P : Http → Prop} {Q : Http → Prop}
    (hstep : ∀ c i r name name', P i → formByte label c i name = some (r, name', false) → P r)
    (hstop : ∀ c i r name name', P i → formByte label c i name = some (r, name', true) → Q r)
    (data : List Byte) : ∀ {info : Http} {name : List Byte}, P info →
    (∀ s ∈ formSteps label data info name, P s.1) ∧
      ∀ r stop, httpParseFormLoop label data info name = some (r, stop) → if stop then Q r else P r := by
  induction data with
  | nil =>
    intro info name hP
    refine ⟨fun s hs => (by cases hs), fun r stop h => ?_⟩
    cases h
    exact hP
  | cons c data ih =>
    intro info name hP
    rw [formSteps]
    cases hbyte : formByte label c info name with
    | none =>
      refine ⟨fun s hs => ?_, fun r stop h => ?_⟩
      · rw [List.mem_singleton.mp hs]
        exact hP
      · rw [httpParseFormLoop_cons, hbyte] at h
        cases h
    | some out =>
      obtain ⟨r', name', stop'⟩ := out
      rw [httpParseFormLoop_cons, hbyte, Option.bind_some]
      cases stop' with
      | true =>
        refine ⟨fun s hs => ?_, fun r stop h => ?_⟩
        · rw [List.mem_singleton.mp hs]
          exact hP
        · cases h
          exact hstop c info _ name name' hP hbyte
      | false =>
        obtain ⟨hsteps, hend⟩ := @ih r' name' (hstep c info r' name name' hP hbyte)
        refine ⟨fun s hs => ?_, hend⟩
        rcases List.mem_cons.mp hs with rfl | hs
        · exact hP
        · exact hsteps s hs

/-! ## Calls -/

/-- `http_parse_form` on one segment after the other. -/
def formMachine : Machine Http (List Byte) where
  init := Http.zero
  step info segment := httpParseForm segment info

/-- `http_parse_body` on one segment after the other. -/
def bodyMachine : Machine Http (List Byte) where
  init := Http.zero
  step := parseBody

/-- A call of `http_parse_form` is its loop and what follows it. -/
theorem httpParseForm_some {data : List Byte} {info r : Http} (h : httpParseForm data info = some r) :
    ∃ label i stop, formLabelText info = some label ∧
      httpParseFormLoop label data info [] = some (i, stop) ∧ r = if stop then i else formEnd label i := by
  obtain ⟨label, hlabel, h⟩ := Option.bind_eq_some_iff.mp h
  obtain ⟨⟨i, stop⟩, hloop, hr⟩ := Option.bind_eq_some_iff.mp h
  exact ⟨label, i, stop, hlabel, hloop, (Option.some.inj hr).symm⟩

/-! ## `cache_buf` -/

/-- One byte does not fill the cache. -/
theorem cacheByte_le {loc loc' : HttpLocal} {c : Byte} (hle : loc.cacheBuf.length ≤ 511)
    (h : cacheByte loc c = some loc') : loc'.cacheBuf.length ≤ 511 := by
  unfold cacheByte at h
  split at h
  · cases h
    rw [List.length_append, List.length_singleton]
    omega
  · split at h
    · cases h
      exact hle
    · cases h

theorem httpWaitLineStr_cache {loc loc' : HttpLocal} {c : Byte} {text : Option (List Byte)}
    (hle : loc.cacheBuf.length ≤ 511) (h : httpWaitLineStr c loc = some (text, loc')) :
    loc'.cacheBuf.length ≤ 511 := by
  unfold httpWaitLineStr at h
  obtain ⟨loc1, hcache, h⟩ := Option.map_eq_some_iff.mp h
  have h1 := cacheByte_le hle hcache
  repeat' split at h
  all_goals
    obtain ⟨rfl, rfl⟩ := Prod.mk.inj h
    first
      | exact h1
      | exact Nat.zero_le _

theorem formLabel_cache {label : List Byte} {loc loc' : HttpLocal} {c : Byte} {met : Bool}
    (hle : loc.cacheBuf.length ≤ 511) (h : formLabel label c loc = some (met, loc')) :
    loc'.cacheBuf.length ≤ 511 := by
  obtain ⟨x, hx, hcache⟩ := formLabel_defined label c hle
  rw [h] at hx
  cases hx
  exact hcache

/-- **No turn of the loop fills the cache.** -/
theorem formByte_cache {label : List Byte} {c : Byte} {info r : Http} {name name' : List Byte} {stop : Bool}
    (hle : info.loc.cacheBuf.length ≤ 511) (h : formByte label c info name = some (r, name', stop)) :
    r.loc.cacheBuf.length ≤ 511 := by
  unfold formByte at h
  split at h
  · obtain ⟨r', hbegin, hr⟩ := Option.map_eq_some_iff.mp h
    cases hr
    obtain ⟨⟨met, loc⟩, hlabel, rfl⟩ := Option.map_eq_some_iff.mp hbegin
    have hcache := formLabel_cache hle hlabel
    dsimp only
    split
    · exact hcache
    · exact hcache
  · unfold formHeader at h
    obtain ⟨⟨text, loc⟩, hline, h⟩ := Option.bind_eq_some_iff.mp h
    have hcache := httpWaitLineStr_cache hle hline
    cases text with
    | none =>
      cases h
      exact hcache
    | some text =>
      obtain ⟨⟨i, stop'⟩, harg, h⟩ := Option.bind_eq_some_iff.mp h
      cases h
      rw [formArg_loc harg, (formFile_reader text _).2.1]
      exact hcache
  · obtain ⟨r', hbody, hr⟩ := Option.map_eq_some_iff.mp h
    cases hr
    unfold formBody at hbody
    obtain ⟨⟨met, loc⟩, hlabel, hbody⟩ := Option.bind_eq_some_iff.mp hbody
    have hcache := formLabel_cache hle hlabel
    cases met with
    | true =>
      cases hbody
      exact hcache
    | false =>
      rw [formContent_loc hbody]
      exact hcache

end WafProxy
