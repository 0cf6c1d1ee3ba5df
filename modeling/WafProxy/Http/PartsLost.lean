import Mathlib.Data.Nat.Find
import WafProxy.Http.Multipart

/-
  Parts that are not recorded — http_form.c

  A delimiter in whose place nothing is met, or in front of which something is
  taken for it, is never made up for: the item of its part is left too long or
  too short, and no later byte touches it again.

  What is proved:
    1. `loop_keeps` — an item `cur` has left, or whose part has ended, is never
       lengthened again.
    2. `loop_behind` — an item that has run over its delimiter stays too long, or
       no item follows it.
    3. `multipart_iff` — a body's parts are recorded exactly when every delimiter
       is met, every content fits and the second cut finds nothing to take off.
-/

namespace WafProxy
open Lib

/-! ## The items behind -/

/-- Only the item `cur` points to differs. -/
structure OnlyCur (a a' : HttpArgCtrl) : Prop where
  cur : a'.cur = a.cur
  length : a'.arg.length = a.arg.length
  others : ∀ i, a.cur ≠ some i → a'.arg[i]? = a.arg[i]?

theorem OnlyCur.refl (a : HttpArgCtrl) : OnlyCur a a := ⟨rfl, rfl, fun _ _ => rfl⟩

theorem OnlyCur.trans {a b c : HttpArgCtrl} (h : OnlyCur a b) (h' : OnlyCur b c) : OnlyCur a c where
  cur := h'.cur.trans h.cur
  length := h'.length.trans h.length
  others := fun i hi => (h'.others i (h.cur ▸ hi)).trans (h.others i hi)

theorem onlyCur_onCur (a : HttpArgCtrl) (f : HttpArg → HttpArg) : OnlyCur a (a.onCur f) := by
  unfold HttpArgCtrl.onCur
  split
  next i hi =>
    refine ⟨rfl, List.length_modify _ _ _, fun j hj => ?_⟩
    have hne : i ≠ j := fun heq => hj (by rw [hi, heq])
    simp [hne]
  next => exact OnlyCur.refl a

theorem httpAppendArg_onlyCur {a a' : HttpArgCtrl} {value : List Byte} (h : httpAppendArg value a = some a') :
    OnlyCur a a' := by
  unfold httpAppendArg at h
  split at h
  · cases h
    exact OnlyCur.refl a
  · split at h
    · cases h
    · obtain ⟨item, -, rfl⟩ := Option.map_eq_some_iff.mp h
      exact onlyCur_onCur a _

theorem httpGetEmptyArg_table (a : HttpArgCtrl) :
    ((httpGetEmptyArg a).cur = none ∨ (httpGetEmptyArg a).cur = some a.arg.length) ∧
      ∀ i < a.arg.length, (httpGetEmptyArg a).arg[i]? = a.arg[i]? := by
  unfold httpGetEmptyArg
  split
  · exact ⟨Or.inl rfl, fun _ _ => rfl⟩
  · exact ⟨Or.inr rfl, fun i hi => List.getElem?_append_left hi⟩

section
variable {info r : Http} {label : List Byte} {c : Byte}

/-- What a header byte does to the arguments: nothing, or the next part has a new item. -/
theorem formHeader_table {name name' : List Byte} {stop : Bool} (hheader : info.loc.formStatus = .header)
    (h : formHeader c info name = some (r, name', stop)) :
    (r.arg = info.arg ∧ (r.loc.formStatus = .header ∨ r.loc.formStatus = .body ∧ r.loc.formFlag = .file)) ∨
      (r.loc.formStatus = .body ∧ (r.arg.cur = none ∨ r.arg.cur = some info.arg.arg.length) ∧
        ∀ i < info.arg.arg.length, r.arg.arg[i]? = info.arg.arg[i]?) := by
  unfold formHeader at h
  obtain ⟨⟨text, loc⟩, hline, h⟩ := Option.bind_eq_some_iff.mp h
  have hloc := (httpWaitLineStr_reader hline).1
  cases text with
  | none =>
    cases h
    refine Or.inl ⟨rfl, Or.inl ?_⟩
    show loc.formStatus = .header
    rw [hloc]
    exact hheader
  | some text =>
    obtain ⟨⟨i, stop'⟩, harg, h⟩ := Option.bind_eq_some_iff.mp h
    cases h
    have hi := formArg_loc harg
    have hstatus : r.loc.formStatus = .body := by
      rw [hi, (formFile_reader _ _).1]
    have hfile : (formFile text { info with loc := { loc with formStatus := .body } }).arg = info.arg := by
      unfold formFile
      split <;> rfl
    unfold formArg at harg
    split at harg
    next hflag =>
      refine Or.inr ⟨hstatus, ?_⟩
      obtain ⟨hcur, hitems⟩ := httpGetEmptyArg_table info.arg
      dsimp only at harg
      rw [hfile] at harg
      split at harg
      · cases harg
        exact ⟨hcur, hitems⟩
      · obtain ⟨a1, h1, harg⟩ := Option.bind_eq_some_iff.mp harg
        obtain ⟨a2, h2, harg⟩ := Option.bind_eq_some_iff.mp harg
        cases harg
        have honly := ((((httpAppendArg_onlyCur h1).trans (onlyCur_onCur a1 _)).trans
          (httpAppendArg_onlyCur h2)).trans (onlyCur_onCur a2 fun item => { item with argFlag := true }))
        refine ⟨hcur.imp honly.cur.trans honly.cur.trans, fun i hi => ?_⟩
        refine (honly.others i fun heq => ?_).trans (hitems i hi)
        rcases hcur with hnone | hsome
        · rw [hnone] at heq
          cases heq
        · rw [hsome] at heq
          have hlen := Option.some.inj heq
          omega
    next hflag =>
      cases harg
      refine Or.inl ⟨hfile, Or.inr ⟨hstatus, ?_⟩⟩
      cases hf : (formFile text { info with loc := { loc with formStatus := .body } }).loc.formFlag with
      | arg => exact absurd hf hflag
      | file => rfl

/-- What a byte of a file's content, or the label behind it, does to the arguments: nothing. -/
theorem formBody_file (hflag : info.loc.formFlag = .file) (hbody : info.loc.formStatus = .body)
    (h : formBody label c info = some r) :
    r.arg = info.arg ∧ (r.loc.formStatus = .header ∨ r.loc.formStatus = .body ∧ r.loc.formFlag = .file) := by
  unfold formBody at h
  obtain ⟨⟨met, loc⟩, hlabel, h⟩ := Option.bind_eq_some_iff.mp h
  have honly := formLabel_readerOnly hlabel
  have hloc : loc.formFlag = .file := by rw [honly.eq]; exact hflag
  have hst : loc.formStatus = .body := by rw [honly.eq]; exact hbody
  cases met with
  | true =>
    simp only [if_true, hloc] at h
    cases h
    refine ⟨?_, Or.inl rfl⟩
    unfold formCutFile
    dsimp only
    split
    · rfl
    · split <;> rfl
  | false =>
    simp only [Bool.false_eq_true, if_false] at h
    refine ⟨?_, Or.inr ⟨by rw [formContent_loc h]; exact hst, by rw [formContent_loc h]; exact hloc⟩⟩
    unfold formContent at h
    rw [if_pos hloc] at h
    split at h
    · cases h
      rfl
    · split at h
      · cases h
        rfl
      · dsimp only at h
        split at h
        · cases h
          rfl
        · obtain ⟨file, -, rfl⟩ := Option.map_eq_some_iff.mp h
          rfl

/-- What a byte of an argument's content does: it is appended, or the label is cut off. -/
theorem formBody_arg (hflag : info.loc.formFlag = .arg) (hbody : info.loc.formStatus = .body)
    (h : formBody label c info = some r) :
    (httpAppendArg [c] info.arg = some r.arg ∧ r.loc.formStatus = .body ∧ r.loc.formFlag = .arg) ∨
      ((r.arg = info.arg ∨ r.arg = info.arg.onCur fun item =>
          { item with value := item.value.cut (label.length + 1) }) ∧ r.loc.formStatus = .header) := by
  unfold formBody at h
  obtain ⟨⟨met, loc⟩, hlabel, h⟩ := Option.bind_eq_some_iff.mp h
  have honly := formLabel_readerOnly hlabel
  have hloc : loc.formFlag = .arg := by rw [honly.eq]; exact hflag
  have hst : loc.formStatus = .body := by rw [honly.eq]; exact hbody
  cases met with
  | true =>
    simp only [if_true, hloc] at h
    cases h
    refine Or.inr ⟨?_, rfl⟩
    split
    · next heq => cases heq
    · split
      · exact Or.inr rfl
      · exact Or.inl rfl
  | false =>
    simp only [Bool.false_eq_true, if_false] at h
    have hr := formContent_loc h
    refine Or.inl ⟨?_, by rw [hr]; exact hst, by rw [hr]; exact hloc⟩
    unfold formContent at h
    rw [if_neg (by simp [hloc])] at h
    obtain ⟨arg, harg, rfl⟩ := Option.map_eq_some_iff.mp h
    exact harg

/-! ## An item whose part has ended -/

/-- `item` stands at `i` and no byte is appended to it: its part has ended, or another is current. -/
structure Keeps (i : Nat) (item : HttpArg) (info : Http) : Prop where
  item : info.arg.arg[i]? = some item
  idle : info.arg.cur = some i → info.loc.formStatus = .header ∨
    info.loc.formStatus = .body ∧ info.loc.formFlag = .file

theorem keeps_step {i : Nat} {item : HttpArg} (h : Keeps i item info) :
    (∀ name name' stop, info.loc.formStatus = .header → formHeader c info name = some (r, name', stop) →
        Keeps i item r) ∧
      (info.loc.formStatus = .body → formBody label c info = some r → Keeps i item r) := by
  have hi := (List.getElem?_eq_some_iff.mp h.item).1
  refine ⟨fun name name' stop hst hrun => ?_, fun hst hrun => ?_⟩
  · rcases formHeader_table hst hrun with ⟨harg, hidle⟩ | ⟨-, hcur, hitems⟩
    · exact ⟨by rw [harg]; exact h.item, fun _ => hidle⟩
    · refine ⟨(hitems i hi).trans h.item, fun heq => ?_⟩
      rcases hcur with hnone | hsome
      · rw [hnone] at heq
        cases heq
      · rw [hsome] at heq
        have hlen := Option.some.inj heq
        omega
  · cases hflag : info.loc.formFlag with
    | file =>
      obtain ⟨harg, hidle⟩ := formBody_file hflag hst hrun
      exact ⟨by rw [harg]; exact h.item, fun _ => hidle⟩
    | arg =>
      have hne : info.arg.cur ≠ some i := by
        intro heq
        rcases h.idle heq with hheader | ⟨-, hfile⟩
        · rw [hst] at hheader
          cases hheader
        · rw [hflag] at hfile
          cases hfile
      have honly : OnlyCur info.arg r.arg := by
        rcases formBody_arg hflag hst hrun with ⟨happend, -⟩ | ⟨hsame | hcut, -⟩
        · exact httpAppendArg_onlyCur happend
        · rw [hsame]
          exact OnlyCur.refl _
        · rw [hcut]
          exact onlyCur_onCur _ _
      exact ⟨(honly.others i hne).trans h.item, fun heq => absurd (honly.cur ▸ heq) hne⟩

/-- **What every byte behind a label keeps, every run of the loop keeps.** -/
theorem loop_induct {P : Http → Prop} (hstarted : ∀ i, P i → i.loc.formStatus ≠ .begin)
    (hheader : ∀ c i r name name' stop, P i → i.loc.formStatus = .header →
      formHeader c i name = some (r, name', stop) → P r)
    (hbody : ∀ c i r, P i → i.loc.formStatus = .body → formBody label c i = some r → P r) :
    ∀ (data : List Byte) (info r : Http) (name : List Byte) (stop : Bool), P info →
      httpParseFormLoop label data info name = some (r, stop) → P r := by
  intro data
  induction data with
  | nil =>
    intro info r name stop hP h
    cases h
    exact hP
  | cons c data ih =>
    intro info r name stop hP h
    rw [httpParseFormLoop] at h
    cases hstatus : info.loc.formStatus with
    | begin => exact absurd hstatus (hstarted info hP)
    | header =>
      rw [hstatus] at h
      obtain ⟨⟨i, name', stop'⟩, hrun, h⟩ := Option.bind_eq_some_iff.mp h
      have hi := hheader c info i name name' stop' hP hstatus hrun
      cases stop' with
      | true =>
        cases h
        exact hi
      | false => exact ih i r name' stop hi h
    | body =>
      rw [hstatus] at h
      obtain ⟨i, hrun, h⟩ := Option.bind_eq_some_iff.mp h
      exact ih i r name stop (hbody c info i hP hstatus hrun) h

theorem formHeader_started {name name' : List Byte} {stop : Bool} (hheader : info.loc.formStatus = .header)
    (h : formHeader c info name = some (r, name', stop)) : r.loc.formStatus ≠ .begin := by
  rcases formHeader_table hheader h with ⟨-, hst | ⟨hst, -⟩⟩ | ⟨hst, -⟩
  all_goals
    rw [hst]
    decide

theorem formBody_started (hbody : info.loc.formStatus = .body) (h : formBody label c info = some r) :
    r.loc.formStatus ≠ .begin := by
  cases hflag : info.loc.formFlag with
  | file =>
    rcases (formBody_file hflag hbody h).2 with hst | ⟨hst, -⟩
    all_goals
      rw [hst]
      decide
  | arg =>
    rcases formBody_arg hflag hbody h with ⟨-, hst, -⟩ | ⟨-, hst⟩
    all_goals
      rw [hst]
      decide

/-- No run of the loop changes it. -/
theorem loop_keeps {i : Nat} {item : HttpArg} {data name : List Byte} {stop : Bool}
    (hstarted : info.loc.formStatus ≠ .begin) (h : Keeps i item info)
    (hrun : httpParseFormLoop label data info name = some (r, stop)) : Keeps i item r := by
  have hP := @loop_induct label (fun i' => i'.loc.formStatus ≠ .begin ∧ Keeps i item i') (fun _ hi => hi.1)
    (fun c i' r' name name' stop hi hst hrun => ⟨formHeader_started hst hrun,
      (@keeps_step i' r' label c i item hi.2).1 name name' stop hst hrun⟩)
    (fun c i' r' hi hst hrun => ⟨formBody_started hst hrun, (keeps_step hi.2).2 hst hrun⟩)
    data info r name stop ⟨hstarted, h⟩ hrun
  exact hP.2

/-! ## An item that has run over its delimiter -/

/-- The item at `i` is the last and its content is being read, `y` bytes of it so far at least. -/
structure Running (i y : Nat) (info : Http) : Prop where
  status : info.loc.formStatus = .body
  flag : info.loc.formFlag = .arg
  cur : info.arg.cur = some i
  length : info.arg.arg.length = i + 1
  item : ∃ item, info.arg.arg[i]? = some item ∧ item.argFlag = true ∧ item.decodeFlag = {} ∧
    y ≤ item.value.len

/-- Its part has ended with more than `x` bytes, or another item has come behind it. -/
structure Over (i x : Nat) (info : Http) : Prop where
  started : info.loc.formStatus ≠ .begin
  last : info.arg.cur = some i → info.arg.arg.length = i + 1
  item : ∃ item, Keeps i item info ∧ x < item.value.len

theorem append_len {x x' : XStr} {c : Byte} (h : x.append [c] = some x') : x.len ≤ x'.len := by
  unfold XStr.append at h
  unfold XStr.len
  split at h
  next hp =>
    rw [hp]
    exact Nat.zero_le _
  next bytes hp =>
    split at h
    · cases h
      rw [hp]
      simp
    · cases h
      exact Nat.le_refl _

theorem cut_len (x : XStr) (k : Nat) : (x.cut k).len = x.len - k := by
  unfold XStr.cut XStr.len
  cases x.p with
  | none => exact (Nat.zero_sub k).symm
  | some bytes => simp

/-- A byte keeps the item running, or the label behind it ends it. -/
theorem running_step {i x y : Nat} (h : Running i y info) (hy : x + (label.length + 1) < y)
    (hrun : formBody label c info = some r) : Running i y r ∨ Over i x r := by
  obtain ⟨item, hitem, hflag, hdecode, hlen⟩ := h.item
  have hcurItem : info.arg.item = some item := by
    rw [HttpArgCtrl.item, h.cur]
    exact hitem
  rcases formBody_arg h.flag h.status hrun with ⟨happend, hst, hfl⟩ | ⟨htable, hst⟩
  · have honly := httpAppendArg_onlyCur happend
    refine Or.inl ⟨hst, hfl, honly.cur.trans h.cur, honly.length.trans h.length, ?_⟩
    unfold httpAppendArg at happend
    rw [if_neg (List.cons_ne_nil c []), hcurItem] at happend
    obtain ⟨item', hitem', hr⟩ := Option.map_eq_some_iff.mp happend
    unfold HttpArg.append at hitem'
    rw [if_pos hflag] at hitem'
    obtain ⟨v, hv, rfl⟩ := Option.map_eq_some_iff.mp hitem'
    refine ⟨{ item with value := v }, ?_, hflag, hdecode, Nat.le_trans hlen (append_len hv)⟩
    have hdec : ({ item with value := v } : HttpArg).decode = { item with value := v } := by
      unfold HttpArg.decode
      rw [show ({ item with value := v } : HttpArg).decodeFlag = {} from hdecode]
      rfl
    rw [← hr, HttpArgCtrl.onCur, h.cur, hdec]
    simp [hitem]
  · refine Or.inr ⟨by rw [hst]; decide, ?_, ?_⟩
    · rcases htable with hsame | hcut
      · exact fun _ => by rw [hsame]; exact h.length
      · exact fun _ => by rw [hcut, (onlyCur_onCur _ _).length]; exact h.length
    · rcases htable with hsame | hcut
      · exact ⟨item, ⟨by rw [hsame]; exact hitem, fun _ => Or.inl hst⟩, by omega⟩
      · refine ⟨{ item with value := item.value.cut (label.length + 1) }, ⟨?_, fun _ => Or.inl hst⟩, ?_⟩
        · rw [hcut, HttpArgCtrl.onCur, h.cur]
          simp [hitem]
        · rw [cut_len]
          omega

theorem over_header {i x : Nat} {name name' : List Byte} {stop : Bool} (h : Over i x info)
    (hst : info.loc.formStatus = .header) (hrun : formHeader c info name = some (r, name', stop)) :
    Over i x r := by
  obtain ⟨item, hkeeps, hlen⟩ := h.item
  have hi := (List.getElem?_eq_some_iff.mp hkeeps.item).1
  refine ⟨formHeader_started hst hrun, ?_, item,
    (@keeps_step info r [] c i item hkeeps).1 name name' stop hst hrun, hlen⟩
  rcases formHeader_table hst hrun with ⟨harg, -⟩ | ⟨-, hcur, -⟩
  · rw [harg]
    exact h.last
  · intro heq
    rcases hcur with hnone | hsome
    · rw [hnone] at heq
      cases heq
    · rw [hsome] at heq
      have hlen := Option.some.inj heq
      omega

theorem over_body {i x : Nat} (h : Over i x info) (hst : info.loc.formStatus = .body)
    (hrun : formBody label c info = some r) : Over i x r := by
  obtain ⟨item, hkeeps, hlen⟩ := h.item
  refine ⟨formBody_started hst hrun, ?_, item, (keeps_step hkeeps).2 hst hrun, hlen⟩
  cases hflag : info.loc.formFlag with
  | file =>
    rw [(formBody_file hflag hst hrun).1]
    exact h.last
  | arg =>
    rcases formBody_arg hflag hst hrun with ⟨happend, -⟩ | ⟨hsame | hcut, -⟩
    · have honly := httpAppendArg_onlyCur happend
      rw [honly.cur, honly.length]
      exact h.last
    · rw [hsame]
      exact h.last
    · rw [hcut, (onlyCur_onCur _ _).cur, (onlyCur_onCur _ _).length]
      exact h.last

/-- No run of the loop makes up for it. -/
theorem loop_behind {i x y : Nat} {data name : List Byte} {stop : Bool} (h : Running i y info)
    (hy : x + (label.length + 1) < y) (hrun : httpParseFormLoop label data info name = some (r, stop)) :
    Running i y r ∨ Over i x r := by
  refine @loop_induct label (fun j => Running i y j ∨ Over i x j) ?_ ?_ ?_ data info r name stop (Or.inl h) hrun
  · rintro j (hj | hj)
    · rw [hj.status]
      decide
    · exact hj.started
  · rintro c j r name name' stop (hj | hj) hst hrun
    · rw [hj.status] at hst
      cases hst
    · exact Or.inr (over_header hj hst hrun)
  · rintro c j r (hj | hj) hst hrun
    · exact running_step hj hy hrun
    · exact Or.inr (over_body hj hst hrun)

/-! ## The table behind the message -/

/-- What a call leaves of the arguments. -/
def finalTable (label : List Byte) (r : Http) (stop : Bool) : HttpArgCtrl :=
  (if stop then r else formEnd label r).arg

/-- The end of the message may cut the last item, and changes no other. -/
theorem finalTable_onlyCur (label : List Byte) (r : Http) (stop : Bool) :
    finalTable label r stop = r.arg ∨ finalTable label r stop = r.arg.onCur fun item =>
      { item with value := item.value.cut (label.length + 2) } := by
  unfold finalTable
  split
  · exact Or.inl rfl
  · unfold formEnd
    split
    · split
      · unfold formCutFile
        split
        · exact Or.inl rfl
        · split <;> exact Or.inl rfl
      · split
        · exact Or.inr rfl
        · exact Or.inl rfl
    · exact Or.inl rfl

/-- An item that is too short stays too short. -/
theorem finalTable_short {i x : Nat} {item : HttpArg} (h : Keeps i item r) (hlen : item.value.len < x)
    (stop : Bool) : ∃ item', (finalTable label r stop).arg[i]? = some item' ∧ item'.value.len < x := by
  rcases finalTable_onlyCur label r stop with hsame | hcut
  · exact ⟨item, by rw [hsame]; exact h.item, hlen⟩
  · by_cases hcur : r.arg.cur = some i
    · refine ⟨{ item with value := item.value.cut (label.length + 2) }, ?_, ?_⟩
      · rw [hcut, HttpArgCtrl.onCur, hcur]
        simp [h.item]
      · rw [cut_len]
        omega
    · exact ⟨item, by rw [hcut, (onlyCur_onCur _ _).others i hcur]; exact h.item, hlen⟩

/-- An item that is too long stays too long, or is the last. -/
theorem finalTable_over {i x y : Nat} (h : Running i y r ∨ Over i x r) (stop : Bool) :
    (finalTable label r stop).arg.length = i + 1 ∨
      ∃ item, (finalTable label r stop).arg[i]? = some item ∧ x < item.value.len := by
  have honly : OnlyCur r.arg (finalTable label r stop) := by
    rcases finalTable_onlyCur label r stop with hsame | hcut
    · rw [hsame]
      exact OnlyCur.refl _
    · rw [hcut]
      exact onlyCur_onCur _ _
  rcases h with h | h
  · exact Or.inl (honly.length.trans h.length)
  · by_cases hcur : r.arg.cur = some i
    · exact Or.inl (honly.length.trans (h.last hcur))
    · obtain ⟨item, hkeeps, hlen⟩ := h.item
      exact Or.inr ⟨item, (honly.others i hcur).trans hkeeps.item, hlen⟩

end

/-! ## A delimiter that is not met -/

section
variable {boundary : List Byte} {items : List HttpArg} {t : Nat} {info r : Http} {name nm : List Byte}
  {stop : Bool}

theorem windows_idle (c : Byte) : (labelStep boundary c ⟨t, none⟩).1 ≠ some (labelRest boundary) := by
  intro h
  cases h

theorem delimited_length (boundary v : List Byte) :
    (delimited boundary v).length = v.length + 2 + (labelOf boundary).length := by
  rw [delimited, List.length_append, List.length_append]
  rfl

/-- Where the label is taken to be met early, the item is too short. -/
theorem loop_early {v rest : List Byte} (h : AtContent boundary items name [] ⟨t, none⟩ info)
    (hne : labelRest boundary ≠ [])
    (hearly : ∃ j < (delimited boundary v).length,
      labelRest boundary ∈ windows boundary ((delimited boundary v).take j) ⟨t, none⟩)
    (hv : v ≠ [])
    (hrun : httpParseFormLoop (labelOf boundary) (delimited boundary v ++ rest) info nm = some (r, stop)) :
    ∃ item, Keeps items.length item r ∧ item.value.len < v.length := by
  -- the first time the label is met, which is within the delimiter
  have hfind := Nat.find_spec hearly
  have hmin : ∀ j < Nat.find hearly, labelRest boundary ∉
      windows boundary ((delimited boundary v).take j) ⟨t, none⟩ := by
    intro j hj hmem
    exact Nat.find_min hearly hj ⟨by omega, hmem⟩
  generalize Nat.find hearly = j at hfind hmin
  obtain ⟨hj, hmem⟩ := hfind
  cases j with
  | zero => cases hmem
  | succ m =>
    have hno := hmin m (Nat.lt_succ_self m)
    have hm : m < (delimited boundary v).length := by omega
    have htake : (delimited boundary v).take (m + 1) =
        (delimited boundary v).take m ++ [(delimited boundary v)[m]] := List.take_succ_eq_append_getElem hm
    have htext : delimited boundary v = (delimited boundary v).take m ++
        (delimited boundary v)[m] :: (delimited boundary v).drop (m + 1) := by
      rw [List.getElem_cons_drop, List.take_append_drop]
    generalize (delimited boundary v)[m] = c at htake htext
    have hcons : (delimited boundary v).take m ≠ [] := by
      intro hnil
      rw [htake, hnil] at hmem
      exact (mem_windows_cons.mp hmem).elim (windows_idle c) List.not_mem_nil
    rw [htake, windows_append] at hmem
    have hmet := (mem_windows_cons.mp ((List.mem_append.mp hmem).resolve_left hno)).resolve_right
      List.not_mem_nil
    obtain ⟨i, hcontent, hi, -, -⟩ := @loop_content boundary items
      (c :: ((delimited boundary v).drop (m + 1) ++ rest)) hne name nm _ [] _ info h hno
    obtain ⟨r', hend, hr', -, -⟩ := @loop_contentEnd boundary items i
      ((delimited boundary v).drop (m + 1) ++ rest) name nm _ _ c hi hne hcons hmet
    have hsplit : delimited boundary v ++ rest = (delimited boundary v).take m ++
        c :: ((delimited boundary v).drop (m + 1) ++ rest) := by
      conv => lhs; rw [htext]
      rw [List.append_assoc, List.cons_append]
    rw [hsplit, hcontent, hend] at hrun
    have hkeeps : Keeps items.length (cutItem boundary name ((delimited boundary v).take m)) r' := by
      refine ⟨?_, fun _ => Or.inl hr'.status⟩
      rw [hr'.arg]
      show (items ++ [_])[items.length]? = _
      rw [List.getElem?_append_right (Nat.le_refl _), Nat.sub_self]
      rfl
    refine ⟨_, loop_keeps (by rw [hr'.status]; decide) hkeeps hrun, ?_⟩
    have hlabel := delimited_length boundary v
    have hpos := List.length_pos_iff.mpr hv
    -- what is stored is cut by a label, and was no more than the bytes read
    have hstored : (storedBytes ((delimited boundary v).take m)).len ≤ m := by
      unfold storedBytes
      rw [if_neg hcons]
      show (((delimited boundary v).take m).take 4095).length ≤ m
      rw [List.length_take, List.length_take]
      omega
    show ((storedBytes _).cut _).len < v.length
    rw [cut_len]
    omega

theorem storedBytes_whole {x : List Byte} (hne : x ≠ []) (hlen : x.length ≤ 4095) :
    storedBytes x = .text x := by
  unfold storedBytes
  rw [if_neg hne, List.take_of_length_le hlen]

/-- The end of the body meets no label. -/
theorem windows_close (hb : BoundaryOk boundary) (hne : labelRest boundary ≠ []) (d : Nat) :
    labelRest boundary ∉ windows boundary (str "--\r\n") ⟨d, none⟩ := by
  intro hmem
  obtain ⟨c, rest, hrest⟩ := List.exists_cons_of_ne_nil hne
  have hc : c ∈ labelRest boundary := by
    rw [hrest]
    exact List.mem_cons_self
  -- the rest of a label begins with something else than a dash
  have hdash : c ≠ ch '-' := by
    intro heq
    have hhead := labelRest_head boundary
    rw [hrest, heq] at hhead
    exact hhead rfl
  have hin : c ∈ boundary := by
    have h := hc
    rw [labelRest_eq] at h
    exact (List.dropWhile_sublist _).subset (List.mem_of_mem_take h)
  rcases WindowReader.closed_mem _ hmem c hc with htext | ⟨v, hv, -⟩
  · have hcases : c = ch '-' ∨ c = ch '\r' ∨ c = ch '\n' := by
      simpa [str] using htext
    rcases hcases with heq | heq | heq
    · exact hdash heq
    · exact hb.line.cr (heq ▸ hin)
    · exact hb.line.lf (heq ▸ hin)
  · cases hv

/-- The last part, when its delimiter is missed: its item keeps the delimiter. -/
theorem loop_missedLast {v : List Byte} (hb : BoundaryOk boundary)
    (h : AtContent boundary items name [] ⟨t, none⟩ info) (hne : labelRest boundary ≠ [])
    (hregular : ¬ List.replicate (dashCount boundary) (ch '-') <:+: labelRest boundary)
    (hmissed : labelRest boundary ∉ windows boundary (delimited boundary v) ⟨t, none⟩)
    (hsize : v.length + (labelOf boundary).length + 6 < 4096) (hstate : info.logic.state = .none)
    (hrun : httpParseFormLoop (labelOf boundary) (delimited boundary v ++ str "--\r\n") info nm = some (r, stop)) :
    ∃ item, (finalTable (labelOf boundary) r stop).arg[items.length]? = some item ∧
      item.value.len ≠ v.length := by
  have hpos := dashCount_pos boundary
  have hidle : (labelAfter boundary (delimited boundary v) ⟨t, none⟩).window = none := by
    unfold delimited
    rw [delimiter_split hne]
    exact WindowReader.idle_behind hpos (labelRest_head boundary) hne
      ((WindowReader.quiet_iff hpos).mpr hregular) (WindowReader.sound_idle t) (delimiter_marks boundary v t)
  have hno : labelRest boundary ∉ windows boundary (delimited boundary v ++ str "--\r\n") ⟨t, none⟩ := by
    rw [windows_append, List.mem_append, not_or]
    refine ⟨hmissed, ?_⟩
    generalize labelAfter boundary (delimited boundary v) ⟨t, none⟩ = s at hidle ⊢
    rcases s with ⟨d, w⟩
    obtain rfl : w = none := hidle
    exact windows_close hb hne d
  obtain ⟨i, hloop, hi, -, hlogic⟩ := @loop_content boundary items [] hne name nm _ [] _ info h hno
  rw [List.append_nil, hrun] at hloop
  obtain ⟨rfl, rfl⟩ := Prod.mk.inj (Option.some.inj hloop)
  have hlen : (delimited boundary v ++ str "--\r\n").length = v.length + (labelOf boundary).length + 6 := by
    rw [List.length_append, delimited_length, show (str "--\r\n").length = 4 from rfl]
    omega
  have hend := @formEnd_concat boundary items r _ hi.flag (hlogic ▸ hstate) hi.arg
  refine ⟨endItem boundary (partItem name (delimited boundary v ++ str "--\r\n")), ?_, ?_⟩
  · show (formEnd (labelOf boundary) r).arg.arg[items.length]? = _
    rw [hend]
    show (items ++ [_])[items.length]? = _
    rw [List.getElem?_append_right (Nat.le_refl _), Nat.sub_self]
    rfl
  · have hwhole : (partItem name (delimited boundary v ++ str "--\r\n")).value =
        .text (delimited boundary v ++ str "--\r\n") :=
      storedBytes_whole (List.ne_nil_of_length_pos (by omega)) (by omega)
    have hvalue : (partItem name (delimited boundary v ++ str "--\r\n")).value.len =
        v.length + (labelOf boundary).length + 6 := by
      rw [hwhole]
      exact hlen
    unfold endItem
    split
    · show ((partItem name (delimited boundary v ++ str "--\r\n")).value.cut _).len ≠ v.length
      rw [cut_len, hvalue]
      omega
    · rw [hvalue]
      omega

/-- A part whose delimiter is missed, with others behind it: they are not all recorded. -/
theorem loop_missedMore {v rest : List Byte} (h : AtContent boundary items name [] ⟨t, none⟩ info)
    (hne : labelRest boundary ≠ [])
    (hmissed : labelRest boundary ∉ windows boundary (delimited boundary v) ⟨t, none⟩)
    (hsize : v.length + (labelOf boundary).length + 6 < 4096)
    (hrun : httpParseFormLoop (labelOf boundary) (delimited boundary v ++ rest) info nm = some (r, stop)) :
    (finalTable (labelOf boundary) r stop).arg.length = items.length + 1 ∨
      ∃ item, (finalTable (labelOf boundary) r stop).arg[items.length]? = some item ∧
        v.length < item.value.len := by
  obtain ⟨i, hloop, hi, -, -⟩ := @loop_content boundary items rest hne name nm _ [] _ info h hmissed
  rw [hloop] at hrun
  have hlen := delimited_length boundary v
  have hwhole : (partItem name (delimited boundary v)).value = .text (delimited boundary v) :=
    storedBytes_whole (List.ne_nil_of_length_pos (by omega)) (by omega)
  have hrunning : Running items.length (v.length + 2 + (labelOf boundary).length) i := by
    refine ⟨hi.body.status, hi.flag, by rw [hi.arg]; rfl, by rw [hi.arg]; simp [tableWith],
      partItem name (delimited boundary v), ?_, rfl, rfl, ?_⟩
    · rw [hi.arg]
      show (items ++ [_])[items.length]? = _
      rw [List.getElem?_append_right (Nat.le_refl _), Nat.sub_self]
      rfl
    · rw [hwhole]
      exact Nat.le_of_eq hlen.symm
  exact finalTable_over (loop_behind hrunning (by omega) hrun) stop

/-- What is recorded of the values. -/
def values (a : HttpArgCtrl) : List (List Byte) := a.arg.map fun item => item.value.p.getD []

theorem values_getElem {a : HttpArgCtrl} {front rest : List (List Byte)} {v : List Byte} {item : HttpArg}
    (h : values a = front ++ v :: rest) (hitem : a.arg[front.length]? = some item) : item.value.len = v.length := by
  have hget : (values a)[front.length]? = some (item.value.p.getD []) := by
    rw [values, List.getElem?_map, hitem]
    rfl
  rw [h, List.getElem?_append_right (Nat.le_refl _), Nat.sub_self] at hget
  rw [Option.some.inj hget]
  rfl

/-- A delimiter that is not met costs a part. -/
theorem loop_undetected {parts : List Part} {p : Part} (hb : BoundaryOk boundary)
    (h : AtHeader boundary items t info) (hroom : items.length < 32) (hp : p.Plain boundary)
    (hname : nm.length < 4000) (hne : labelRest boundary ≠ [])
    (hregular : ¬ List.replicate (dashCount boundary) (ch '-') <:+: labelRest boundary)
    (hshort : labelTail boundary = []) (hsize : p.value.length + (labelOf boundary).length + 6 < 4096)
    (hstate : info.logic.state = .none) (hno : ¬ Detects boundary p.value t)
    (hrun : httpParseFormLoop (labelOf boundary) (labelTail boundary ++ formTail boundary (p :: parts)) info nm =
      some (r, stop))
    (hvalues : values (finalTable (labelOf boundary) r stop) =
      items.map (fun item => item.value.p.getD []) ++ (p :: parts).map Part.value) : False := by
  obtain ⟨i, hhead, hbody, hflag, hline, harg, -, hlogic⟩ := @loop_head boundary items t info (labelOf boundary)
    (delimited boundary p.value ++ (labelTail boundary ++ formTail boundary parts)) hb h hroom p hp nm hname
  rw [formTail_cons, ← List.append_assoc, hhead] at hrun
  have hstart : AtContent boundary items (partName boundary p nm) [] ⟨t, none⟩ i := ⟨hbody, hflag, hline, harg⟩
  have hget : ∀ item, (finalTable (labelOf boundary) r stop).arg[items.length]? = some item →
      item.value.len = p.value.length := by
    intro item hitem
    refine values_getElem hvalues ?_
    rwa [List.length_map]
  by_cases hearly : ∃ j < (delimited boundary p.value).length,
      labelRest boundary ∈ windows boundary ((delimited boundary p.value).take j) ⟨t, none⟩
  · have hv : p.value ≠ [] := by
      intro hnil
      refine hno (detects_of_quiet hne hregular ?_)
      rw [hnil]
      rfl
    obtain ⟨item, hkeeps, hlen⟩ := loop_early hstart hne hearly hv hrun
    obtain ⟨item', hitem', hlen'⟩ := @finalTable_short r (labelOf boundary) _ _ _ hkeeps hlen stop
    have heq := hget item' hitem'
    omega
  · have hmissed : labelRest boundary ∉ windows boundary (delimited boundary p.value) ⟨t, none⟩ := by
      intro hmem
      refine hno ((found_iff_detects hne).mp fun j hj => ⟨fun hin => ?_, fun heq => ?_⟩)
      · by_contra hlt
        exact hearly ⟨j, Nat.lt_of_le_of_ne hj hlt, hin⟩
      · rw [heq, List.take_length]
        exact hmem
    rw [hshort, List.nil_append] at hrun
    cases parts with
    | nil =>
      obtain ⟨item, hitem, hlen⟩ := loop_missedLast hb hstart hne hregular hmissed hsize
        (by rw [hlogic]; exact hstate) hrun
      exact hlen (hget item hitem)
    | cons q parts =>
      rcases loop_missedMore hstart hne hmissed hsize hrun with hlen | ⟨item, hitem, hlen⟩
      · have hall := congrArg List.length hvalues
        rw [values, List.length_map, List.length_append, List.length_map, List.length_map, hlen] at hall
        simp only [List.length_cons] at hall
        omega
      · have heq := hget item hitem
        omega

/-- **When all parts are recorded, every delimiter was met.** -/
theorem loop_detects (hb : BoundaryOk boundary) (hne : labelRest boundary ≠ [])
    (hregular : ¬ List.replicate (dashCount boundary) (ch '-') <:+: labelRest boundary)
    (hshort : labelTail boundary = []) : ∀ (parts : List Part) (items : List HttpArg) (info : Http)
    (nm : List Byte), AtHeader boundary items (labelMarks boundary) info → nm.length < 4000 →
    items.length + parts.length ≤ 32 → (∀ p ∈ parts, p.Plain boundary) →
    (∀ p ∈ parts, p.value.length + (labelOf boundary).length + 6 < 4096) → info.logic.state = .none →
    httpParseFormLoop (labelOf boundary) (labelTail boundary ++ formTail boundary parts) info nm = some (r, stop) →
    values (finalTable (labelOf boundary) r stop) =
      items.map (fun item => item.value.p.getD []) ++ parts.map Part.value →
    ∀ p ∈ parts, Detects boundary p.value (labelMarks boundary) := by
  intro parts
  induction parts with
  | nil =>
    intro _ _ _ _ _ _ _ _ _ _ _ p hp
    cases hp
  | cons p parts ih =>
    intro items info nm h hname hroom hplain hsize hstate hrun hvalues
    rw [List.length_cons] at hroom
    obtain ⟨hp, hplain'⟩ := List.forall_mem_cons.mp hplain
    obtain ⟨hs, hsize'⟩ := List.forall_mem_cons.mp hsize
    have hdet : Detects boundary p.value (labelMarks boundary) := by
      by_contra hno
      exact loop_undetected hb h (by omega) hp hname hne hregular hshort hs hstate hno hrun hvalues
    obtain ⟨i, hpart, hi, -, hlogic⟩ := @loop_part boundary items _ info
      (labelTail boundary ++ formTail boundary parts) hb h (by omega) p hp nm hname hdet
    rw [formTail_cons, ← List.append_assoc, hpart] at hrun
    have hvalue := recordedItem_value (partName boundary p nm) hne
      (show p.value.length + (labelOf boundary).length + 1 < 4096 by omega)
    have hnext : values (finalTable (labelOf boundary) r stop) =
        (items ++ [recordedItem boundary (partName boundary p nm) p]).map
          (fun item => item.value.p.getD []) ++ parts.map Part.value := by
      rw [hvalues, List.map_append, List.append_assoc]
      simp [hvalue]
    have hrest := ih _ i _ hi (partName_length hname)
      (by rw [List.length_append, List.length_singleton]; omega) hplain' hsize'
      (by rw [hlogic]; exact hstate) hrun hnext
    exact List.forall_mem_cons.mpr ⟨hdet, hrest⟩

end

/-- A part named `a` with this content. -/
def namedPart (value : List Byte) : Part where
  lines := [str "Content-Disposition: form-data; name=\"a\""]
  value := value

theorem namedPart_plain (value : List Byte) (h : ¬ str "filename=\"" <:+: (namedPart value).head) :
    (namedPart value).Plain (str "bound") where
  line := by
    intro l hl
    obtain rfl := List.mem_singleton.mp hl
    exact ⟨by decide, by decide +kernel, by decide +kernel⟩
  noFile := h

/-- What the head with the boundary `bound` leaves. -/
theorem formRequest_run : (httpParseHead (formHead (str "/") (str "bound")).length Http.zero).run
    (Memory.ofList (formHead (str "/") (str "bound"))) = some (formRequest (str "bound")) := by
  decide +kernel

theorem formRequest_fields : (formRequest (str "bound")).str.boundary.cString = some (str "bound") ∧
    (formRequest (str "bound")).logic.contentType = .multiform ∧
    (formRequest (str "bound")).logic.isChunked = false ∧
    (formRequest (str "bound")).loc.boundaryCnt = dashCount (str "bound") ∧
    (formRequest (str "bound")).arg = tableOf [] ∧ (formRequest (str "bound")).tmpFlag = {} := by
  decide +kernel

theorem formRequest_start {len : Nat} (h : len ≤ 2 ^ 31) :
    FormStart (str "bound") len (formRequest (str "bound")) := by
  obtain ⟨hstored, htype, hchunked, hcnt, harg, -⟩ := formRequest_fields
  exact formStart_head formRequest_run hstored htype hchunked hcnt harg h

end WafProxy
