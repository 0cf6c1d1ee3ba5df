import WafProxy.Http.Slots
import WafProxy.Http.UrlArgs

/-
  What an argument leaves in its entry — http_arg.c

  `_http_parse_args` appends the name of an argument when it meets the first `=`,
  then a NUL, and the value when it meets the `&` behind it or the end; behind the
  last argument comes another NUL. Every time `http_append_arg` appends, it decodes
  the name and the value again, with the flags that the bytes of the argument read
  so far have set.

  What is proved:
    1. What one append leaves in the name and in the value (`append_holds`); where
       nothing is to be decoded, the name with a NUL and the value (`argEntry_plain`).
    2. `Reading` says where the parser stands behind some bytes of an argument;
       every byte but `&` keeps it (`byte_reading`), at an `&` the entry of the
       argument is complete (`byte_amp_reading`), and so it is at the end
       (`end_reading`).
    3. `httpParseArgs_records` — by induction on the bytes: whatever a text holds,
       the table gets the entries of its arguments, in their order, as far as it
       has room.
-/

namespace WafProxy
open Lib

/-! ## The entry of an argument -/

/-- The name and the value that stand in an entry. -/
def HttpArg.texts (item : HttpArg) : List Byte × List Byte := (item.name.p.getD [], item.value.p.getD [])

/-- The flags that the bytes of an argument set. -/
def argFlags (p : List Byte) : DecodeFlag where
  url := decide (ch '%' ∈ p ∨ ch '+' ∈ p)
  escape := decide (ch '\\' ∈ p)

/-- A stored text that has been decoded: the decoder's text replaces it when something is
encoded in it. -/
def keptText (flag : DecodeFlag) (text : List Byte) : List Byte :=
  if shrinks flag text then httpDecodeString DECODE_BUF text flag else text

/-- A text with a NUL behind it, where there is room for one. -/
def nulText (text : List Byte) : List Byte := if text.length + 1 < APPEND_MAX then text ++ [0] else text

/-- The name of an argument that has an `=`. -/
def nameText (p : List Byte) : List Byte :=
  keptText (argFlags (pieceName p)) (nulText (keptText (argFlags (pieceName p)) (pieceName p)))

/-- The entry of the argument `p` when its last byte is read; `v` is what is read for its value. -/
def stretchTexts (p v : List Byte) : List Byte × List Byte :=
  if ch '=' ∈ p then
    if v = [] then (nameText p, []) else (keptText (argFlags p) (nameText p), keptText (argFlags p) v)
  else (keptText (argFlags p) p, [])

/-- The entry behind which a NUL is appended. -/
def closeTexts (p : List Byte) (e : List Byte × List Byte) : List Byte × List Byte :=
  if ch '=' ∈ p then (keptText (argFlags p) e.1, keptText (argFlags p) (nulText e.2))
  else (keptText (argFlags p) (nulText e.1), [])

/-- The entry of the argument `p` with `rest` behind it; `none` when its value is read beyond that. -/
def argEntry (p rest : List Byte) (closed : Bool) : Option (List Byte × List Byte) :=
  (storedValue p rest).map fun v => if closed then closeTexts p (stretchTexts p v) else stretchTexts p v

/-- The entries of the arguments `ps`, with `rest` behind the last of them. -/
def argEntries (rest : List Byte) (closed : Bool) : List (List Byte) → List (Option (List Byte × List Byte))
  | [] => []
  | [p] => [argEntry p rest closed]
  | p :: q :: ps => argEntry p (behind (q :: ps) ++ rest) false :: argEntries rest closed (q :: ps)

/-- Of an argument with nothing to be decoded in it the entry holds the name, with a NUL, and the
value. -/
theorem argEntry_plain {p rest : List Byte} (hord : ∀ c ∈ p, Ordinary c) (heq : ch '=' ∈ p)
    (hvalue : (pieceValue p).head? ≠ some (ch '=')) (hshort : p.length < 4000) :
    argEntry p rest false = some (pieceName p ++ [0], pieceValue p) := by
  have hmax : APPEND_MAX = 4096 := rfl
  have hnone : ∀ l : List Byte, (∀ c ∈ l, Ordinary c) → argFlags l = {} := by
    intro l hl
    have h1 : ch '%' ∉ l := fun hmem => (hl _ hmem).percent rfl
    have h2 : ch '+' ∉ l := fun hmem => (hl _ hmem).plus rfl
    have h3 : ch '\\' ∉ l := fun hmem => (hl _ hmem).backslash rfl
    simp [argFlags, h1, h2, h3]
  have hkept : ∀ text, keptText {} text = text := fun text => by
    rw [keptText, shrinks_of_not_needDecode rfl]
    exact if_neg Bool.false_ne_true
  obtain ⟨hp, -⟩ := piece_split heq
  have hname : ∀ c ∈ pieceName p, Ordinary c := fun c hc => hord c (hp ▸ List.mem_append_left _ hc)
  have hlens := congrArg List.length hp
  rw [List.length_append, List.length_cons] at hlens
  have htext : nameText p = pieceName p ++ [0] := by
    rw [nameText, hnone _ hname, hkept, hkept, nulText, if_pos (by omega)]
  rw [argEntry, (storedValue_iff p rest).mpr hvalue, Option.map_some, if_neg Bool.false_ne_true, stretchTexts,
    if_pos heq, hnone p hord, hkept, hkept, htext]
  split
  · next hnil => rw [hnil]
  · rfl

/-! ## Appending -/

theorem keptText_length {flag : DecodeFlag} {text : List Byte} (h : text.length < DECODE_BUF) :
    (keptText flag text).length ≤ text.length := by
  unfold keptText
  split
  · have hle := (httpDecodeString_shortens flag h).length_le
    rw [plain_length] at hle
    exact hle
  · exact Nat.le_refl _

/-- Decoding changes the text and nothing else. -/
theorem decode_text (flag : DecodeFlag) {x : XStr} (h : ∀ t ∈ x.p, t.length < DECODE_BUF) :
    (x.decode flag).p = x.p.map (keptText flag) := by
  obtain ⟨p, nul⟩ := x
  cases p with
  | none =>
    unfold XStr.decode
    rw [if_neg fun hif => absurd hif.2 (Nat.not_lt_zero _)]
    rfl
  | some raw =>
    have hraw := h raw rfl
    -- where the NUL stands makes no difference
    have hstored := decode_stored flag hraw
    have hsame : (XStr.decode flag { p := some raw, nul := nul }).p =
        (XStr.decode flag { p := some raw, nul := raw.length }).p := by
      unfold XStr.decode XStr.len
      simp only
      split <;> rfl
    rw [hsame, hstored]
    rfl

theorem decode_end (flag : DecodeFlag) {x : XStr} (h : x.nul = x.len) :
    (x.decode flag).nul = (x.decode flag).len := by
  unfold XStr.decode
  dsimp only
  split
  · rfl
  · exact h

/-- What a text is after an append. -/
def joinText (x : Option (List Byte)) (l : List Byte) : List Byte :=
  match x with
  | none => l
  | some t => if t.length + l.length < APPEND_MAX then t ++ l else t

theorem joinText_nul (x : Option (List Byte)) : joinText x [0] = nulText (x.getD []) := by
  cases x with
  | none => rfl
  | some t => rfl

theorem append_joins {x y : XStr} {l : List Byte} (h : x.append l = some y)
    (hshort : ∀ t ∈ x.p, t.length ≤ APPEND_MAX) (hend : x.nul = x.len) :
    y.p = some (joinText x.p l) ∧ (joinText x.p l).length ≤ APPEND_MAX ∧ y.nul = y.len := by
  unfold XStr.append at h
  split at h
  · next hp =>
    have hjoin : joinText x.p l = l := by
      rw [hp, joinText]
    rw [hjoin]
    split at h
    · cases h
    · next hle =>
      cases h
      exact ⟨rfl, Nat.not_lt.mp hle, rfl⟩
  · next t hp =>
    have hjoin : joinText x.p l = if t.length + l.length < APPEND_MAX then t ++ l else t := by
      rw [hp, joinText]
    rw [hjoin]
    have ht := hshort t hp
    split at h
    · next hroom =>
      cases h
      rw [if_pos hroom, List.length_append]
      exact ⟨rfl, Nat.le_of_lt hroom, (List.length_append ..).symm⟩
    · next hfull =>
      cases h
      rw [if_neg hfull]
      exact ⟨hp, ht, hend⟩

/-- The NULs stand behind the texts, and the argument is not complete. -/
structure HttpArg.Ended (item : HttpArg) : Prop where
  name : item.name.nul = item.name.len
  value : item.value.nul = item.value.len
  unfinished : item.completeFlag = false

/-- What an item holds, and what the parser has noted in it. -/
structure HoldsTexts (item : HttpArg) (f : DecodeFlag) (b : Bool) (n v : Option (List Byte)) : Prop where
  flag : item.decodeFlag = f
  toValue : item.argFlag = b
  name : item.name.p = n
  value : item.value.p = v
  nameShort : ∀ t ∈ n, t.length ≤ APPEND_MAX
  valueShort : ∀ t ∈ v, t.length ≤ APPEND_MAX
  ended : item.Ended

/-- A new item. -/
theorem emptyItem_holds : HoldsTexts {} {} false none none :=
  ⟨rfl, rfl, rfl, rfl, fun t ht => (by cases ht), fun t ht => (by cases ht), ⟨rfl, rfl, rfl⟩⟩

/-- Nothing else stands in an item. -/
theorem HoldsTexts.eq {a a' : HttpArg} {f : DecodeFlag} {b : Bool} {n v : Option (List Byte)}
    (h : HoldsTexts a f b n v) (h' : HoldsTexts a' f b n v) : a = a' := by
  have hstr : ∀ {x y : XStr}, x.nul = x.len → y.nul = y.len → x.p = y.p → x = y := by
    intro x y hx hy hp
    unfold XStr.len at hx hy
    obtain ⟨p, nul⟩ := x
    obtain ⟨q, nul'⟩ := y
    obtain rfl : p = q := hp
    rw [XStr.mk.injEq]
    exact ⟨rfl, hx.trans hy.symm⟩
  have hname := hstr h.ended.name h'.ended.name (h.name.trans h'.name.symm)
  have hvalue := hstr h.ended.value h'.ended.value (h.value.trans h'.value.symm)
  have hdone := h.ended.unfinished.trans h'.ended.unfinished.symm
  have hto := h.toValue.trans h'.toValue.symm
  have hflag := h.flag.trans h'.flag.symm
  cases a
  cases a'
  cases hname
  cases hvalue
  cases hdone
  cases hto
  cases hflag
  rfl

section
variable {item : HttpArg} {flag : DecodeFlag} {b : Bool} {name value : Option (List Byte)}

theorem kept_short {x : Option (List Byte)} (h : ∀ t ∈ x, t.length ≤ APPEND_MAX) :
    ∀ t ∈ x.map (keptText flag), t.length ≤ APPEND_MAX := by
  intro t ht
  obtain ⟨t0, ht0, rfl⟩ := Option.map_eq_some_iff.mp ht
  have hle := h t0 ht0
  have hbuf : APPEND_MAX < DECODE_BUF := by decide
  exact Nat.le_trans (keptText_length (by omega)) hle

/-- `http_decode_arg` decodes both texts. -/
theorem HoldsTexts.decode (h : HoldsTexts item flag b name value) :
    HoldsTexts item.decode flag b (name.map (keptText flag)) (value.map (keptText flag)) := by
  have hbuf : APPEND_MAX < DECODE_BUF := by decide
  have hn : ∀ t ∈ item.name.p, t.length < DECODE_BUF := fun t ht =>
    Nat.lt_of_le_of_lt (h.nameShort t (h.name ▸ ht)) hbuf
  have hv : ∀ t ∈ item.value.p, t.length < DECODE_BUF := fun t ht =>
    Nat.lt_of_le_of_lt (h.valueShort t (h.value ▸ ht)) hbuf
  cases hneed : item.decodeFlag.needDecode with
  | true =>
    rw [HttpArg.decode, if_pos hneed]
    refine ⟨h.flag, h.toValue, ?_, ?_, kept_short h.nameShort, kept_short h.valueShort,
      ⟨decode_end _ h.ended.name, decode_end _ h.ended.value, h.ended.unfinished⟩⟩
    · show (item.name.decode item.decodeFlag).p = _
      rw [decode_text _ hn, h.flag, h.name]
    · show (item.value.decode item.decodeFlag).p = _
      rw [decode_text _ hv, h.flag, h.value]
  | false =>
    have hsame : keptText flag = id := by
      funext t
      rw [h.flag] at hneed
      rw [keptText, shrinks_of_not_needDecode hneed]
      exact if_neg Bool.false_ne_true
    rw [HttpArg.decode, hneed, if_neg Bool.false_ne_true, hsame, Option.map_id]
    exact h

/-- **An append lengthens one text and decodes both.** -/
theorem append_holds {done : List HttpArg} {l : List Byte} {arg : HttpArgCtrl}
    (h : HoldsTexts item flag b name value) (hne : l ≠ [])
    (hrun : httpAppendArg l (tableWith done item) = some arg) :
    ∃ item', arg = tableWith done item' ∧ HoldsTexts item' flag b
      (if b then name.map (keptText flag) else some (keptText flag (joinText name l)))
      (if b then some (keptText flag (joinText value l)) else value.map (keptText flag)) := by
  rw [httpAppendArg, if_neg hne, tableWith_item] at hrun
  obtain ⟨item1, happend, rfl⟩ := Option.map_eq_some_iff.mp hrun
  refine ⟨item1.decode, tableWith_onCur done item _, ?_⟩
  unfold HttpArg.append at happend
  cases b with
  | true =>
    rw [if_pos h.toValue] at happend
    rw [if_pos rfl, if_pos rfl]
    obtain ⟨y, hy, rfl⟩ := Option.map_eq_some_iff.mp happend
    obtain ⟨hp, hshort, hend⟩ := append_joins hy (h.value ▸ h.valueShort) h.ended.value
    rw [h.value] at hp hshort
    have hitem : HoldsTexts { item with value := y } flag true name (some (joinText value l)) :=
      ⟨h.flag, h.toValue, h.name, hp, h.nameShort, fun t ht => by
        cases ht
        exact hshort, ⟨h.ended.name, hend, h.ended.unfinished⟩⟩
    exact hitem.decode
  | false =>
    have hname : ¬ item.argFlag = true := by
      rw [h.toValue]
      exact Bool.false_ne_true
    rw [if_neg hname] at happend
    rw [if_neg Bool.false_ne_true, if_neg Bool.false_ne_true]
    obtain ⟨y, hy, rfl⟩ := Option.map_eq_some_iff.mp happend
    obtain ⟨hp, hshort, hend⟩ := append_joins hy (h.name ▸ h.nameShort) h.ended.name
    rw [h.name] at hp hshort
    have hitem : HoldsTexts { item with name := y } flag false (some (joinText name l)) value :=
      ⟨h.flag, h.toValue, hp, h.value, fun t ht => by
        cases ht
        exact hshort, h.valueShort, ⟨hend, h.ended.value, h.ended.unfinished⟩⟩
    exact hitem.decode

end

/-! ## Inside an argument -/

/-- The bytes `pre` of an argument that starts at `start` have been read. -/
structure Reading (done : List HttpArg) (start : Int) (pre : List Byte) (s : ArgScan) (item : HttpArg) :
    Prop where
  arg : s.arg = tableWith done item
  texts : HoldsTexts item (argFlags pre) (decide (ch '=' ∈ pre))
    (if ch '=' ∈ pre then some (nameText pre) else none) none
  tmpData : s.tmpData = if ch '=' ∈ pre then valueStart (pieceValue pre) (start + (pieceName pre).length + 1)
    else if pre = [] then none else some start
  tmpLen : s.tmpLen = if ch '=' ∈ pre then (pieceValue pre).length else pre.length

/-- More bytes go to the value. -/
theorem piece_append {pre : List Byte} (h : ch '=' ∈ pre) (l : List Byte) :
    pieceName (pre ++ l) = pieceName pre ∧ pieceValue (pre ++ l) = pieceValue pre ++ l := by
  obtain ⟨hp, hname⟩ := piece_split h
  have hparts := @piece_parts _ (pieceValue pre ++ l) hname
  rw [← List.cons_append, ← List.append_assoc, ← hp] at hparts
  exact hparts

theorem valueStart_append (v : List Byte) (c : Byte) : ∀ begin : Int, valueStart (v ++ [c]) begin =
    (valueStart v begin).or (if c = ch '=' then none else some (begin + v.length)) := by
  induction v with
  | nil =>
    intro begin
    by_cases hc : c = ch '='
    · rw [hc, if_pos rfl]
      rfl
    · rw [if_neg hc, List.nil_append, valueStart_other hc]
      simp [valueStart]
  | cons b v ih =>
    intro begin
    rw [List.cons_append]
    by_cases hb : b = ch '='
    · rw [hb, valueStart_eq, valueStart_eq, ih, List.length_cons]
      have haddr : begin + 1 + (v.length : Int) = begin + ((v.length + 1 : Nat) : Int) := by omega
      rw [haddr]
    · rw [valueStart_other hb, valueStart_other hb]
      rfl

theorem argFlags_other {c : Byte} (h : Ordinary c) (pre : List Byte) : argFlags (pre ++ [c]) = argFlags pre := by
  have h1 : ch '%' ∉ [c] := fun hmem => h.percent (List.mem_singleton.mp hmem).symm
  have h2 : ch '+' ∉ [c] := fun hmem => h.plus (List.mem_singleton.mp hmem).symm
  have h3 : ch '\\' ∉ [c] := fun hmem => h.backslash (List.mem_singleton.mp hmem).symm
  simp [argFlags, List.mem_append, h1, h2, h3]

theorem argFlags_url {c : Byte} (h : c = ch '%' ∨ c = ch '+') (pre : List Byte) :
    argFlags (pre ++ [c]) = { argFlags pre with url := true } := by
  have hset : ch '%' ∈ pre ++ [c] ∨ ch '+' ∈ pre ++ [c] := by
    rcases h with rfl | rfl
    · exact Or.inl (List.mem_append_right _ (List.mem_singleton.mpr rfl))
    · exact Or.inr (List.mem_append_right _ (List.mem_singleton.mpr rfl))
  have hne : ch '\\' ≠ c := by
    rcases h with rfl | rfl <;> decide
  have hother : ch '\\' ∈ pre ++ [c] ↔ ch '\\' ∈ pre := by
    simp [hne]
  simp only [argFlags, decide_eq_true hset, decide_eq_decide.mpr hother]

theorem argFlags_escape (pre : List Byte) :
    argFlags (pre ++ [ch '\\']) = { argFlags pre with escape := true } := by
  have hset : ch '\\' ∈ pre ++ [ch '\\'] := List.mem_append_right _ (List.mem_singleton.mpr rfl)
  have h1 : ch '%' ≠ ch '\\' := by decide
  have h2 : ch '+' ≠ ch '\\' := by decide
  have hother : (ch '%' ∈ pre ++ [ch '\\'] ∨ ch '+' ∈ pre ++ [ch '\\']) ↔ (ch '%' ∈ pre ∨ ch '+' ∈ pre) := by
    simp [h1, h2]
  simp only [argFlags, decide_eq_true hset, decide_eq_decide.mpr hother]

theorem equals_ordinary : Ordinary (ch '=') := ⟨by decide, by decide, by decide, by decide⟩

section
variable {done : List HttpArg} {start : Int} {pre : List Byte} {s s' : ArgScan} {item : HttpArg}

/-- A byte of the stretch. -/
theorem Reading.extend {c : Byte} (h : Reading done start pre s item) (hc : c ≠ ch '=') (inUrl : Bool)
    {item' : HttpArg} (hitem : item' = { item with decodeFlag := argFlags (pre ++ [c]) }) :
    Reading done start (pre ++ [c])
      ({ s with arg := tableWith done item' }.extend inUrl (start + pre.length)) item' := by
  have hmem : ch '=' ∈ pre ++ [c] ↔ ch '=' ∈ pre := by
    simp [Ne.symm hc]
  have htexts := h.texts
  by_cases heq : ch '=' ∈ pre
  · obtain ⟨hname, hvalue⟩ := piece_append heq [c]
    have hdata := h.tmpData
    have hlen := h.tmpLen
    rw [if_pos heq] at hdata hlen
    have hsame : nameText (pre ++ [c]) = nameText pre := by
      rw [nameText, hname]
      rfl
    refine ⟨rfl, ?_, ?_, ?_⟩
    · rw [if_pos (hmem.mpr heq), hsame, decide_eq_true (hmem.mpr heq)]
      rw [if_pos heq, decide_eq_true heq] at htexts
      rw [hitem]
      exact ⟨rfl, htexts.toValue, htexts.name, htexts.value, htexts.nameShort, htexts.valueShort,
        ⟨htexts.ended.name, htexts.ended.value, htexts.ended.unfinished⟩⟩
    · rw [if_pos (hmem.mpr heq), hname, hvalue, valueStart_append, if_neg hc, ← hdata]
      obtain ⟨hp, -⟩ := piece_split heq
      have hlens := congrArg List.length hp
      rw [List.length_append, List.length_cons] at hlens
      have haddr : start + (pieceName pre).length + 1 + ((pieceValue pre).length : Int) = start + pre.length := by
        omega
      rw [haddr]
      show some (s.tmpData.getD _) = _
      cases s.tmpData <;> rfl
    · rw [if_pos (hmem.mpr heq), hvalue, List.length_append]
      show s.tmpLen + 1 = _
      rw [hlen]
      rfl
  · have hdata := h.tmpData
    have hlen := h.tmpLen
    rw [if_neg heq] at hdata hlen
    have hno := fun hin => heq (hmem.mp hin)
    refine ⟨rfl, ?_, ?_, ?_⟩
    · rw [if_neg hno, decide_eq_false hno]
      rw [if_neg heq, decide_eq_false heq] at htexts
      rw [hitem]
      exact ⟨rfl, htexts.toValue, htexts.name, htexts.value, htexts.nameShort, htexts.valueShort,
        ⟨htexts.ended.name, htexts.ended.value, htexts.ended.unfinished⟩⟩
    · rw [if_neg hno, if_neg (List.append_ne_nil_of_right_ne_nil _ (List.cons_ne_nil _ _))]
      show some (s.tmpData.getD _) = _
      rw [hdata]
      split
      · next hnil =>
        rw [hnil]
        simp
      · rfl
    · rw [if_neg hno, List.length_append]
      show s.tmpLen + 1 = _
      rw [hlen]
      rfl

/-- A stretch of the name is appended. -/
theorem appendTmp_inName {front rest : List Byte} (h : Reading done front.length pre s item)
    (heq : ch '=' ∉ pre) (hrun : s.appendTmp.run (Memory.ofList (front ++ (pre ++ rest))) = some s') :
    ∃ item', s' = { s with arg := tableWith done item' } ∧ HoldsTexts item' (argFlags pre) false
      (if pre = [] then none else some (keptText (argFlags pre) pre)) none := by
  have hdata := h.tmpData
  have hlen := h.tmpLen
  have htexts := h.texts
  rw [if_neg heq] at hdata hlen
  rw [if_neg heq, decide_eq_false heq] at htexts
  by_cases hnil : pre = []
  · rw [if_pos hnil] at hdata ⊢
    rw [appendTmp_none hdata] at hrun
    cases hrun
    exact ⟨item, by rw [← h.arg], htexts⟩
  · rw [if_neg hnil] at hdata ⊢
    have hslice : (Access.slice (front.length : Int) s.tmpLen).run
        (Memory.ofList (front ++ (pre ++ rest))) = some pre := by
      rw [hlen]
      exact slice_at front pre rest
    unfold ArgScan.appendTmp at hrun
    simp only [hdata, Access.run_bind, hslice, Option.bind_some] at hrun
    obtain ⟨arg, harg, hrun⟩ := Option.bind_eq_some_iff.mp hrun
    cases hrun
    rw [Access.run_ofOption, h.arg] at harg
    obtain ⟨item', rfl, hitem⟩ := append_holds htexts hnil harg
    rw [if_neg Bool.false_ne_true, if_neg Bool.false_ne_true] at hitem
    exact ⟨item', by rw [hdata], hitem⟩

/-- What is read for the value, at the place where it starts. -/
theorem slice_inValue (front rest : List Byte) {pre : List Byte} (heq : ch '=' ∈ pre)
    (hw : (pieceValue pre).dropWhile (· = ch '=') ≠ []) :
    (Access.slice ((front.length : Int) + (pieceName pre).length + 1 +
        ((pieceValue pre).takeWhile (· = ch '=')).length) (pieceValue pre).length).run
      (Memory.ofList (front ++ (pre ++ rest))) = storedValue pre rest := by
  obtain ⟨hp, -⟩ := piece_split heq
  have hread := slice_value (front ++ (pieceName pre ++ [ch '='])) (pieceValue pre) rest
  have hmem : front ++ (pieceName pre ++ [ch '=']) ++ (pieceValue pre ++ rest) = front ++ (pre ++ rest) := by
    have happ : pieceName pre ++ [ch '='] ++ pieceValue pre = pre := by
      rw [List.append_assoc]
      exact hp.symm
    rw [List.append_assoc, ← List.append_assoc _ (pieceValue pre), happ]
  have haddr : ((front ++ (pieceName pre ++ [ch '='])).length : Int) =
      (front.length : Int) + (pieceName pre).length + 1 := by
    simp only [List.length_append, List.length_singleton]
    omega
  rw [hmem, haddr] at hread
  rw [hread, storedValue]
  simp only [if_neg hw]

/-- A value that is read is not empty. -/
theorem storedValue_ne {p rest v : List Byte} (hw : (pieceValue p).dropWhile (· = ch '=') ≠ [])
    (h : storedValue p rest = some v) : v ≠ [] := by
  unfold storedValue at h
  simp only [if_neg hw] at h
  split at h
  · cases h
    intro hnil
    rcases List.take_eq_nil_iff.mp hnil with hzero | happ
    · rw [List.length_eq_zero_iff.mp hzero] at hw
      exact hw rfl
    · exact hw (List.append_eq_nil_iff.mp happ).1
  · cases h

/-- A stretch of the value is appended. -/
theorem appendTmp_inValue {front rest : List Byte} (h : Reading done front.length pre s item)
    (heq : ch '=' ∈ pre) (hrun : s.appendTmp.run (Memory.ofList (front ++ (pre ++ rest))) = some s') :
    ∃ item' v, storedValue pre rest = some v ∧ s' = { s with arg := tableWith done item' } ∧
      HoldsTexts item' (argFlags pre) true (some (stretchTexts pre v).1)
        (if v = [] then none else some (stretchTexts pre v).2) := by
  have hdata := h.tmpData
  have hlen := h.tmpLen
  have htexts := h.texts
  rw [if_pos heq] at hdata hlen
  rw [if_pos heq, decide_eq_true heq] at htexts
  unfold valueStart at hdata
  by_cases hw : (pieceValue pre).dropWhile (· = ch '=') = []
  · rw [if_pos hw] at hdata
    rw [appendTmp_none hdata] at hrun
    cases hrun
    refine ⟨item, [], ?_, ?_, ?_⟩
    · simp only [storedValue, if_pos hw]
    · rw [← h.arg]
    · rw [stretchTexts, if_pos heq, if_pos rfl, if_pos rfl]
      exact htexts
  · rw [if_neg hw] at hdata
    have hread := slice_inValue front rest heq hw
    rw [← hlen] at hread
    unfold ArgScan.appendTmp at hrun
    simp only [hdata, Access.run_bind, hread] at hrun
    obtain ⟨v, hv, hrun⟩ := Option.bind_eq_some_iff.mp hrun
    obtain ⟨arg, harg, hrun⟩ := Option.bind_eq_some_iff.mp hrun
    cases hrun
    have hne := storedValue_ne hw hv
    rw [Access.run_ofOption, h.arg] at harg
    obtain ⟨item', rfl, hitem⟩ := append_holds htexts hne harg
    rw [if_pos rfl, if_pos rfl] at hitem
    refine ⟨item', v, hv, by rw [hdata], ?_⟩
    rw [stretchTexts, if_pos heq, if_neg hne, if_neg hne]
    exact hitem

theorem keptText_nil (flag : DecodeFlag) : keptText flag [] = [] := by
  have hle := @keptText_length flag [] (by decide)
  exact List.length_eq_zero_iff.mp (Nat.le_zero.mp hle)

/-- **What stands in the entry once the stretch is appended.** -/
theorem appendTmp_reading {front rest : List Byte} (h : Reading done front.length pre s item)
    (hrun : s.appendTmp.run (Memory.ofList (front ++ (pre ++ rest))) = some s') :
    ∃ item' v n w, storedValue pre rest = some v ∧ s' = { s with arg := tableWith done item' } ∧
      HoldsTexts item' (argFlags pre) (decide (ch '=' ∈ pre)) n w ∧
      (n.getD [], w.getD []) = stretchTexts pre v := by
  by_cases heq : ch '=' ∈ pre
  · obtain ⟨item', v, hv, hs, hitem⟩ := appendTmp_inValue h heq hrun
    rw [← decide_eq_true heq] at hitem
    refine ⟨item', v, _, _, hv, hs, hitem, ?_⟩
    by_cases hnil : v = []
    · rw [if_pos hnil, stretchTexts, if_pos heq, if_pos hnil]
      rfl
    · rw [if_neg hnil]
      rfl
  · obtain ⟨item', hs, hitem⟩ := appendTmp_inName h heq hrun
    obtain ⟨-, hvalue⟩ := piece_whole heq
    rw [← decide_eq_false heq] at hitem
    refine ⟨item', [], _, none, ?_, hs, hitem, ?_⟩
    · rw [storedValue, hvalue]
      rfl
    · rw [stretchTexts, if_neg heq]
      split
      · next hnil =>
        rw [hnil, keptText_nil]
        rfl
      · rfl

/-! ## The bytes -/

/-- A NUL is appended to the value, or to the name where there is none. -/
theorem appendNul_holds {flag : DecodeFlag} {b : Bool} {n w : Option (List Byte)}
    (harg : s.arg = tableWith done item) (h : HoldsTexts item flag b n w) {m : Memory Byte}
    (hrun : s.appendNul.run m = some s') :
    ∃ item', s' = { s with arg := tableWith done item' } ∧ HoldsTexts item' flag b
      (if b then n.map (keptText flag) else some (keptText flag (nulText (n.getD []))))
      (if b then some (keptText flag (nulText (w.getD []))) else w.map (keptText flag)) := by
  obtain ⟨arg, hnul, hrun⟩ := Option.bind_eq_some_iff.mp hrun
  cases hrun
  rw [Access.run_ofOption, harg] at hnul
  obtain ⟨item', rfl, hitem⟩ := append_holds h (List.cons_ne_nil _ _) hnul
  rw [joinText_nul, joinText_nul] at hitem
  exact ⟨item', rfl, hitem⟩

/-- The `=` behind the name: the name is complete, and the value begins. -/
theorem firstEq_reading {front rest : List Byte} {s1 s2 : ArgScan} (h : Reading done front.length pre s item)
    (heq : ch '=' ∉ pre) (h1 : s.appendTmp.run (Memory.ofList (front ++ (pre ++ rest))) = some s1)
    (h2 : (ArgScan.appendNul { s1 with tmpData := none, tmpLen := 0 }).run
      (Memory.ofList (front ++ (pre ++ rest))) = some s2) :
    ∃ item', Reading done front.length (pre ++ [ch '=']) (s2.onCur fun i => { i with argFlag := true }) item' := by
  obtain ⟨item1, rfl, hitem1⟩ := appendTmp_inName h heq h1
  obtain ⟨item2, rfl, hitem2⟩ := appendNul_holds rfl hitem1 h2
  rw [if_neg Bool.false_ne_true, if_neg Bool.false_ne_true] at hitem2
  have hmem : ch '=' ∈ pre ++ [ch '='] := List.mem_append_right _ (List.mem_singleton.mpr rfl)
  obtain ⟨hname, hvalue⟩ := @piece_parts _ [] heq
  have hflags := argFlags_other equals_ordinary pre
  have htext : some (keptText (argFlags pre)
      (nulText ((if pre = [] then none else some (keptText (argFlags pre) pre)).getD []))) =
      some (nameText (pre ++ [ch '='])) := by
    rw [nameText, hname]
    split
    · next hnil =>
      rw [hnil, keptText_nil]
      rfl
    · rfl
  rw [htext] at hitem2
  refine ⟨{ item2 with argFlag := true }, ?_, ?_, ?_, ?_⟩
  · show (tableWith done item2).onCur _ = _
    exact tableWith_onCur done item2 _
  · rw [if_pos hmem, decide_eq_true hmem, hflags]
    exact ⟨hitem2.flag, rfl, hitem2.name, hitem2.value, hitem2.nameShort, hitem2.valueShort,
      ⟨hitem2.ended.name, hitem2.ended.value, hitem2.ended.unfinished⟩⟩
  · rw [if_pos hmem, hvalue]
    rfl
  · rw [if_pos hmem, hvalue]
    rfl

/-- Every other `=`: the stretch gets longer and starts nowhere. -/
theorem nextEq_reading (h : Reading done start pre s item) (heq : ch '=' ∈ pre) :
    Reading done start (pre ++ [ch '=']) { s with tmpLen := s.tmpLen + 1 } item := by
  have hmem : ch '=' ∈ pre ++ [ch '='] := List.mem_append_left _ heq
  obtain ⟨hname, hvalue⟩ := piece_append heq [ch '=']
  have hdata := h.tmpData
  have hlen := h.tmpLen
  have htexts := h.texts
  rw [if_pos heq] at hdata hlen htexts
  rw [decide_eq_true heq] at htexts
  refine ⟨h.arg, ?_, ?_, ?_⟩
  · rw [if_pos hmem, decide_eq_true hmem, argFlags_other equals_ordinary, nameText, hname]
    exact htexts
  · rw [if_pos hmem, hname, hvalue, valueStart_append, if_pos rfl, Option.or_none]
    exact hdata
  · rw [if_pos hmem, hvalue, List.length_append]
    show s.tmpLen + 1 = _
    rw [hlen]
    rfl

/-- A byte that sets a flag, or none. -/
theorem flag_reading {c : Byte} {inUrl : Bool} (h : Reading done start pre s item) (hc : c ≠ ch '=')
    (f : HttpArg → HttpArg) (hf : f item = { item with decodeFlag := argFlags (pre ++ [c]) }) :
    ∃ item', Reading done start (pre ++ [c]) ((s.onCur f).extend inUrl (start + pre.length)) item' := by
  have hcur : s.onCur f = { s with arg := tableWith done (f item) } := by
    rw [ArgScan.onCur, h.arg, tableWith_onCur]
  rw [hcur]
  exact ⟨f item, h.extend hc inUrl hf⟩

/-- **Every byte but `&` belongs to the argument.** -/
theorem byte_reading {front rest : List Byte} {c : Byte} {inUrl : Bool}
    (h : Reading done front.length pre s item) (hamp : c ≠ ch '&')
    (hrun : (httpParseArgsByte inUrl ((front.length : Int) + pre.length) c s).run
      (Memory.ofList (front ++ (pre ++ rest))) = some s') :
    ∃ item', Reading done front.length (pre ++ [c]) s' item' := by
  have hflags : item.decodeFlag = argFlags pre := h.texts.flag
  unfold httpParseArgsByte at hrun
  -- the branches of the `switch`
  split at hrun
  · next hc =>
    cases hrun
    apply flag_reading h
    · rcases hc with rfl | rfl <;> decide
    · rw [argFlags_url hc, ← hflags]
  · next hpercent =>
    split at hrun
    · next hc =>
      cases hrun
      apply flag_reading h
      · rw [hc]
        decide
      · rw [hc, argFlags_escape, ← hflags]
    · next hback =>
      have hord : Ordinary c := ⟨fun hc => hpercent (Or.inl hc), fun hc => hpercent (Or.inr hc), hback, hamp⟩
      split at hrun
      · next hc =>
        subst hc
        split at hrun
        · next hfirst =>
          obtain ⟨s1, h1, hrun⟩ := Option.bind_eq_some_iff.mp hrun
          obtain ⟨s2, h2, hrun⟩ := Option.bind_eq_some_iff.mp hrun
          cases hrun
          have heq : ch '=' ∉ pre := by
            intro heq
            apply hfirst
            rw [h.arg, tableWith_item, Option.map_some, h.texts.toValue, decide_eq_true heq]
          exact firstEq_reading h heq h1 h2
        · next hnext =>
          cases hrun
          have heq : ch '=' ∈ pre := by
            rw [h.arg, tableWith_item, Option.map_some, h.texts.toValue] at hnext
            simpa using hnext
          exact ⟨item, nextEq_reading h heq⟩
      · next hc =>
        cases hrun
        have hitem : item = { item with decodeFlag := argFlags (pre ++ [c]) } := by
          rw [argFlags_other hord, ← hflags]
        have hsame := h.extend hc inUrl hitem
        rw [← h.arg] at hsame
        exact ⟨item, hsame⟩

/-- **At an `&` the entry of the argument is complete.** -/
theorem byte_amp_reading {front rest : List Byte} {inUrl : Bool} (h : Reading done front.length pre s item)
    (hrun : (httpParseArgsByte inUrl ((front.length : Int) + pre.length) (ch '&') s).run
      (Memory.ofList (front ++ (pre ++ rest))) = some s') :
    ∃ last, argEntry pre rest false = some last.texts ∧
      (done.length + 1 < 32 → ∃ item', Reading (done ++ [last]) (front ++ (pre ++ [ch '&'])).length [] s' item') ∧
      (32 ≤ done.length + 1 → s'.arg.cur = none ∧ s'.arg.arg = done ++ [last]) := by
  unfold httpParseArgsByte at hrun
  rw [if_neg (by decide), if_neg (by decide), if_pos rfl] at hrun
  obtain ⟨s1, h1, hrun⟩ := Option.bind_eq_some_iff.mp hrun
  obtain ⟨item1, v, n, w, hv, rfl, hitem, htexts⟩ := appendTmp_reading h h1
  cases hrun
  have hlast : ({ item1 with completeFlag := true } : HttpArg).texts = stretchTexts pre v := by
    rw [← htexts, ← hitem.name, ← hitem.value]
    rfl
  refine ⟨{ item1 with completeFlag := true }, ?_, ?_, ?_⟩
  · rw [argEntry, hv, Option.map_some, if_neg Bool.false_ne_true, hlast]
  · intro hroom
    refine ⟨{}, ?_, emptyItem_holds, rfl, rfl⟩
    show (httpGetEmptyArg ((tableWith done item1).onCur _)).onCur _ = _
    rw [tableWith_onCur, tableWith_empty _ hroom, tableWith_onCur]
  · intro hfull
    show ((httpGetEmptyArg ((tableWith done item1).onCur _)).onCur _).cur = none ∧
      ((httpGetEmptyArg ((tableWith done item1).onCur _)).onCur _).arg = _
    have hnone : httpGetEmptyArg (tableWith done { item1 with completeFlag := true }) =
        { tableWith done { item1 with completeFlag := true } with cur := none } := by
      have hlen : 32 ≤ (done ++ [({ item1 with completeFlag := true } : HttpArg)]).length := by
        rw [List.length_append]
        exact hfull
      unfold httpGetEmptyArg
      exact if_pos hlen
    rw [tableWith_onCur, hnone]
    exact ⟨rfl, rfl⟩

theorem kept_getD (flag : DecodeFlag) (x : Option (List Byte)) :
    (x.map (keptText flag)).getD [] = keptText flag (x.getD []) := by
  cases x with
  | none => exact (keptText_nil flag).symm
  | some t => rfl

/-- The NUL behind the last argument. -/
theorem appendNul_closes {v : List Byte} {n w : Option (List Byte)} {m : Memory Byte}
    (harg : s.arg = tableWith done item)
    (hitem : HoldsTexts item (argFlags pre) (decide (ch '=' ∈ pre)) n w)
    (htexts : (n.getD [], w.getD []) = stretchTexts pre v) (hrun : s.appendNul.run m = some s') :
    ∃ last, closeTexts pre (stretchTexts pre v) = last.texts ∧ s'.arg = tableWith done last := by
  obtain ⟨last, rfl, hlast⟩ := appendNul_holds harg hitem hrun
  refine ⟨last, ?_, rfl⟩
  rw [HttpArg.texts, hlast.name, hlast.value, closeTexts, ← htexts]
  by_cases heq : ch '=' ∈ pre
  · rw [if_pos heq, if_pos (decide_eq_true heq), if_pos (decide_eq_true heq), kept_getD]
    rfl
  · have hnone : ¬ decide (ch '=' ∈ pre) = true := by
      rw [decide_eq_false heq]
      exact Bool.false_ne_true
    have hvalue : w.getD [] = [] := by
      rw [stretchTexts, if_neg heq] at htexts
      exact (Prod.mk.inj htexts).2
    rw [if_neg heq, if_neg hnone, if_neg hnone, kept_getD, hvalue, keptText_nil]
    rfl

/-- **So it is at the end**, with a NUL behind it when no more is to come. -/
theorem end_reading {front rest : List Byte} {inUrl : Bool} {state : HttpState}
    (h : Reading done front.length pre s item)
    (hrun : (httpParseArgsEnd inUrl state s).run (Memory.ofList (front ++ (pre ++ rest))) = some s') :
    ∃ last, argEntry pre rest (inUrl || decide (state = .none)) = some last.texts ∧
      s'.arg.arg = done ++ [last] := by
  unfold httpParseArgsEnd at hrun
  rw [Access.run_bind] at hrun
  obtain ⟨s1, h1, hrun⟩ := Option.bind_eq_some_iff.mp hrun
  obtain ⟨item1, v, n, w, hv, rfl, hitem, htexts⟩ := appendTmp_reading h h1
  dsimp only at hrun
  have hdone : ∀ last : HttpArg, (tableWith done last).onCur (fun i => { i with completeFlag := true }) =
      tableWith done { last with completeFlag := true } := fun last => tableWith_onCur done last _
  rw [argEntry, hv, Option.map_some]
  cases inUrl with
  | true =>
    rw [if_pos rfl] at hrun
    obtain ⟨s2, h2, hrun⟩ := Option.bind_eq_some_iff.mp hrun
    cases hrun
    obtain ⟨last, hclose, harg⟩ := appendNul_closes rfl hitem htexts h2
    refine ⟨{ last with completeFlag := true }, congrArg some hclose, ?_⟩
    show (s2.arg.onCur _).arg = _
    rw [harg, hdone]
    rfl
  | false =>
    rw [if_neg Bool.false_ne_true] at hrun
    rw [Bool.false_or]
    split at hrun
    · next hnone =>
      obtain ⟨s2, h2, hrun⟩ := Option.bind_eq_some_iff.mp hrun
      cases hrun
      obtain ⟨last, hclose, harg⟩ := appendNul_closes rfl hitem htexts h2
      rw [if_pos (decide_eq_true hnone)]
      refine ⟨{ last with completeFlag := true }, congrArg some hclose, ?_⟩
      show (s2.arg.onCur _).arg = _
      rw [harg, hdone]
      rfl
    · next hmore =>
      cases hrun
      rw [decide_eq_false hmore, if_neg Bool.false_ne_true]
      refine ⟨item1, ?_, rfl⟩
      rw [← htexts, ← hitem.name, ← hitem.value]
      rfl

/-! ## The whole text -/

/-- The entries of a table. -/
def HttpArgCtrl.entries (a : HttpArgCtrl) : List (Option (List Byte × List Byte)) :=
  a.arg.map fun item => some item.texts

/-- The loop of `_http_parse_args`, and what follows it. -/
def scanArgs (inUrl : Bool) (state : HttpState) (data : List Byte) (begin : Int) (s : ArgScan) :
    Packet.Read ArgScan := do
  let s ← httpParseArgsLoop inUrl data begin s
  if s.arg.cur = none then pure s else httpParseArgsEnd inUrl state s

section
variable {inUrl : Bool} {state : HttpState} {m : Memory Byte} {begin : Int} {s : ArgScan}

theorem scanArgs_nil (hcur : s.arg.cur ≠ none) :
    (scanArgs inUrl state [] begin s).run m = (httpParseArgsEnd inUrl state s).run m := by
  unfold scanArgs httpParseArgsLoop
  rw [Access.run_bind, Access.run_pure, Option.bind_some, if_neg hcur]

theorem scanArgs_cons (c : Byte) (data : List Byte) :
    (scanArgs inUrl state (c :: data) begin s).run m =
      ((httpParseArgsByte inUrl begin c s).run m).bind fun s1 =>
        if s1.arg.cur = none then some s1 else (scanArgs inUrl state data (begin + 1) s1).run m := by
  unfold scanArgs
  rw [Access.run_bind, httpParseArgsLoop, Access.run_bind]
  cases (httpParseArgsByte inUrl begin c s).run m with
  | none => rfl
  | some s1 =>
    rw [Option.bind_some, Option.bind_some]
    by_cases hcur : s1.arg.cur = none
    · rw [if_pos hcur, if_pos hcur, Access.run_pure, Option.bind_some, if_pos hcur]
      rfl
    · rw [if_neg hcur, if_neg hcur, Access.run_bind]

end

/-- The first argument of a text. -/
theorem pieces_amp {pre : List Byte} (h : ch '&' ∉ pre) (data : List Byte) :
    pieces (pre ++ ch '&' :: data) = pre :: pieces data := by
  unfold pieces
  induction pre with
  | nil =>
    rw [List.nil_append, List.splitOn_cons_eq_if_modifyHead]
    simp
  | cons c pre ih =>
    have hc : (c == ch '&') = false := by
      simpa using fun heq : c = ch '&' => h (heq ▸ List.mem_cons_self)
    rw [List.cons_append, List.splitOn_cons_eq_if_modifyHead, ih fun hmem => h (List.mem_cons_of_mem _ hmem), hc]
    rfl

theorem pieces_one {pre : List Byte} (h : ch '&' ∉ pre) : pieces pre = [pre] := by
  obtain ⟨p, ps, hp, hd⟩ := pieces_spec pre
  cases ps with
  | nil =>
    rw [behind, List.flatMap_nil, List.append_nil] at hd
    rw [hp, ← hd]
  | cons q ps =>
    exact absurd (hd ▸ List.mem_append_right _ List.mem_cons_self) h

/-- **What a text leaves in the table**, from some byte of an argument on. -/
theorem scan_records {inUrl : Bool} {state : HttpState} {after : List Byte} : ∀ (data : List Byte)
    {front pre : List Byte} {done : List HttpArg} {s s' : ArgScan} {item : HttpArg},
    Reading done front.length pre s item → ch '&' ∉ pre → done.length < 32 →
    (scanArgs inUrl state data ((front.length : Int) + pre.length) s).run
      (Memory.ofList (front ++ (pre ++ (data ++ after)))) = some s' →
    s'.arg.entries = (done.map fun item => some item.texts) ++
      (argEntries after (inUrl || decide (state = .none)) (pieces (pre ++ data))).take (32 - done.length) := by
  intro data
  induction data with
  | nil =>
    intro front pre done s s' item h hamp hroom hrun
    have hcur : s.arg.cur ≠ none := by
      rw [h.arg]
      exact Option.some_ne_none _
    rw [scanArgs_nil hcur] at hrun
    obtain ⟨last, hentry, harg⟩ := end_reading h hrun
    rw [List.nil_append] at hentry
    rw [List.append_nil, pieces_one hamp, argEntries, hentry, List.take_of_length_le (by simp; omega),
      HttpArgCtrl.entries, harg, List.map_append]
    rfl
  | cons c data ih =>
    intro front pre done s s' item h hamp hroom hrun
    have hbegin : (front.length : Int) + pre.length + 1 = front.length + ((pre ++ [c]).length : Nat) := by
      rw [List.length_append, List.length_singleton]
      omega
    rw [scanArgs_cons] at hrun
    obtain ⟨s1, hbyte, hrest⟩ := Option.bind_eq_some_iff.mp hrun
    -- the rest of the run, where the byte leaves a current item
    have hgo : s1.arg.cur ≠ none →
        (scanArgs inUrl state data ((front.length : Int) + pre.length + 1) s1).run
          (Memory.ofList (front ++ (pre ++ (c :: data ++ after)))) = some s' := by
      intro hcur
      rw [if_neg hcur] at hrest
      exact hrest
    by_cases hc : c = ch '&'
    · subst hc
      obtain ⟨p, ps, hpieces, hdata⟩ := pieces_spec data
      obtain ⟨last, hentry, hnext, hfull⟩ := byte_amp_reading h hbyte
      have hbehind : ch '&' :: data ++ after = behind (p :: ps) ++ after := by
        rw [hdata]
        rfl
      rw [hbehind] at hentry
      rw [pieces_amp hamp, hpieces, argEntries, hentry]
      by_cases hlast : done.length + 1 < 32
      · obtain ⟨item', hreading⟩ := hnext hlast
        have hcur : s1.arg.cur ≠ none := by
          rw [hreading.arg]
          exact Option.some_ne_none _
        have hrun' := hgo hcur
        have hmem : front ++ (pre ++ (ch '&' :: data ++ after)) =
            (front ++ (pre ++ [ch '&'])) ++ ([] ++ (data ++ after)) := by simp
        have haddr : (front.length : Int) + pre.length + 1 =
            ((front ++ (pre ++ [ch '&'])).length : Nat) + (([] : List Byte).length : Nat) := by
          simp only [List.length_append, List.length_singleton, List.length_nil]
          omega
        rw [hmem, haddr] at hrun'
        have hroom' : (done ++ [last]).length < 32 := by
          rw [List.length_append]
          exact hlast
        have hind := ih hreading List.not_mem_nil hroom' hrun'
        have htake : 32 - done.length = 32 - (done ++ [last]).length + 1 := by
          rw [List.length_append, List.length_singleton]
          omega
        rw [hind, List.nil_append, hpieces, htake, List.take_succ_cons, List.map_append, List.append_assoc]
        rfl
      · obtain ⟨hnone, harg⟩ := hfull (Nat.not_lt.mp hlast)
        rw [if_pos hnone] at hrest
        cases hrest
        have htake : 32 - done.length = 0 + 1 := by omega
        rw [htake, List.take_succ_cons, List.take_zero, HttpArgCtrl.entries, harg, List.map_append]
        rfl
    · obtain ⟨item', hreading⟩ := byte_reading h hc hbyte
      have hcur : s1.arg.cur ≠ none := by
        rw [hreading.arg]
        exact Option.some_ne_none _
      have hrun' := hgo hcur
      have hmem : front ++ (pre ++ (c :: data ++ after)) = front ++ ((pre ++ [c]) ++ (data ++ after)) := by simp
      have hno : ch '&' ∉ pre ++ [c] := by
        intro hin
        rcases List.mem_append.mp hin with hin | hin
        · exact hamp hin
        · exact hc (List.mem_singleton.mp hin).symm
      rw [hmem, hbegin] at hrun'
      have hind := ih hreading hno hroom hrun'
      rw [hind, List.append_assoc]
      rfl

/-- A new item stands behind the others. -/
theorem emptyArg_room {a : HttpArgCtrl} (hmax : a.maxNum = 32) (hroom : a.arg.length < 32) :
    httpGetEmptyArg a = tableWith a.arg {} := by
  unfold httpGetEmptyArg
  rw [if_neg (by omega)]
  unfold tableWith
  rw [← hmax]

/-- The function is its loop and its end, when there is a slot. -/
theorem httpParseArgs_scan {info : Http} {arg : HttpArgCtrl} {text rest : List Byte} {inUrl : Bool}
    (harg : (if info.arg.cur = none then httpGetEmptyArg info.arg else info.arg) = arg) (hcur : arg.cur ≠ none) :
    (httpParseArgs info text.length inUrl).run (Memory.ofList (text ++ rest)) =
      ((scanArgs inUrl info.logic.state text 0 { arg := arg, httpInt := info.httpInt }).run
        (Memory.ofList (text ++ rest))).map fun s => { info with arg := s.arg, httpInt := s.httpInt } := by
  have hslice : (Access.slice 0 text.length).run (Memory.ofList (text ++ rest)) = some text :=
    slice_at [] text rest
  unfold httpParseArgs scanArgs
  rw [harg]
  dsimp only
  rw [if_neg hcur, Access.run_bind, Int.toNat_natCast, hslice, Option.bind_some, Access.run_bind, Access.run_bind]
  cases (httpParseArgsLoop inUrl text 0 { arg := arg, httpInt := info.httpInt }).run
      (Memory.ofList (text ++ rest)) with
  | none => rfl
  | some s =>
    rw [Option.bind_some, Option.bind_some]
    split
    · rfl
    · rw [Access.run_bind]
      cases (httpParseArgsEnd inUrl info.logic.state s).run (Memory.ofList (text ++ rest)) with
      | none => rfl
      | some s' => rfl

/-- **Whatever a text holds, the table gets the entries of its arguments**, in their order, as far
as it has room. -/
theorem httpParseArgs_records {info r : Http} {dataLen : Int} {inUrl : Bool} {text after : List Byte}
    (hcur : info.arg.cur = none) (hmax : info.arg.maxNum = 32) (hle : info.arg.arg.length ≤ 32)
    (hlen : dataLen.toNat = text.length)
    (h : (httpParseArgs info dataLen inUrl).run (Memory.ofList (text ++ after)) = some r) :
    r.arg.entries = info.arg.entries ++
      (argEntries after (inUrl || decide (info.logic.state = .none)) (pieces text)).take
        (32 - info.arg.arg.length) ∧
    r.arg.maxNum = 32 := by
  have hslice : (Access.slice 0 dataLen.toNat).run (Memory.ofList (text ++ after)) = some text := by
    rw [hlen]
    exact slice_at [] text after
  refine ⟨?_, (httpParseArgs_slots hcur (by rw [hmax]; exact hle) hslice h).maxNum.trans hmax⟩
  by_cases hfull : info.arg.arg.length = 32
  · have hnone : httpGetEmptyArg info.arg = { info.arg with cur := none } := by
      unfold httpGetEmptyArg
      rw [if_pos (by omega)]
    unfold httpParseArgs at h
    dsimp only at h
    rw [if_pos hcur, hnone, if_pos rfl] at h
    cases h
    rw [hfull, Nat.sub_self, List.take_zero, List.append_nil]
    rfl
  · have hempty := emptyArg_room hmax (Nat.lt_of_le_of_ne hle hfull)
    have hstart : Reading info.arg.arg (([] : List Byte).length : Nat) []
        { arg := tableWith info.arg.arg {}, httpInt := info.httpInt } {} :=
      ⟨rfl, emptyItem_holds, rfl, rfl⟩
    have htext : httpParseArgs info dataLen inUrl = httpParseArgs info text.length inUrl := by
      unfold httpParseArgs
      rw [hlen, Int.toNat_natCast]
    rw [htext, httpParseArgs_scan (by rw [if_pos hcur, hempty]) (Option.some_ne_none _)] at h
    obtain ⟨s, hrun, rfl⟩ := Option.map_eq_some_iff.mp h
    exact scan_records text hstart List.not_mem_nil (by omega) hrun

end

end WafProxy
