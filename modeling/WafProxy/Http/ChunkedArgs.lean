import WafProxy.Http.Arguments
import WafProxy.Http.Chunked

/-
  Chunk lines in the arguments — http_parse_body on a chunked body

  `recv_chunk` looks for the end of a chunked body, but `http_parse_body` hands
  the segment it came in to the argument parser as it is, size lines and all.
  This file

   1. says what the parser's steps keep of a table (`TableInv`,
      `httpParseArgs_inv`);
   2. follows the first byte of the first size line: it is a digit no decoder
      touches, so it begins the name of the first argument and stays there
      (`parseSegments_starts`);
   3. concludes that the framing of a body can be seen in its arguments whenever
      there is a slot left to record one in (`chunked_transparent`).
-/

namespace WafProxy
open Lib

/-! ## What the steps of the argument parser keep -/

/-- A property of a table that the argument parser's steps keep: a text is
appended, a slot is taken, flags are set. -/
structure TableInv (P : HttpArgCtrl → Prop) : Prop where
  append : ∀ {value : List Byte} {a b : HttpArgCtrl}, P a → httpAppendArg value a = some b → P b
  empty : ∀ {a : HttpArgCtrl}, P a → P (httpGetEmptyArg a)
  flags : ∀ {a : HttpArgCtrl} {f : HttpArg → HttpArg},
    (∀ i, (f i).name = i.name ∧ (f i).value = i.value) → P a → P (a.onCur f)

variable {P : HttpArgCtrl → Prop}

theorem TableInv.appendTmp (h : TableInv P) {s : ArgScan} (hs : P s.arg) :
    s.appendTmp.Ensures fun r => P r.arg := by
  unfold ArgScan.appendTmp
  split
  · exact Access.ensures_pure hs
  · apply Access.ensures_then
    intro value
    refine Access.Ensures.bind (Access.ensures_ofOption fun a ha => h.append hs ha) ?_
    intro arg harg
    exact Access.ensures_pure harg

theorem TableInv.appendNul (h : TableInv P) {s : ArgScan} (hs : P s.arg) :
    s.appendNul.Ensures fun r => P r.arg := by
  unfold ArgScan.appendNul
  refine Access.Ensures.bind (Access.ensures_ofOption fun a ha => h.append hs ha) ?_
  intro arg harg
  exact Access.ensures_pure harg

theorem TableInv.byte (h : TableInv P) {inUrl : Bool} {begin : Int} {c : Byte} {s : ArgScan}
    (hs : P s.arg) : (httpParseArgsByte inUrl begin c s).Ensures fun r => P r.arg := by
  unfold httpParseArgsByte
  split
  · exact Access.ensures_pure (h.flags (fun i => ⟨rfl, rfl⟩) hs)
  · split
    · exact Access.ensures_pure (h.flags (fun i => ⟨rfl, rfl⟩) hs)
    · split
      · refine (h.appendTmp hs).bind ?_
        intro s' hs'
        apply Access.ensures_pure
        exact h.flags (fun i => ⟨rfl, rfl⟩) (h.empty (h.flags (fun i => ⟨rfl, rfl⟩) hs'))
      · split
        · split
          · refine (h.appendTmp hs).bind ?_
            intro s' hs'
            refine (@TableInv.appendNul _ h { s' with tmpData := none, tmpLen := 0 } hs').bind ?_
            intro s'' hs''
            exact Access.ensures_pure (h.flags (fun i => ⟨rfl, rfl⟩) hs'')
          · exact Access.ensures_pure hs
        · exact Access.ensures_pure hs

theorem TableInv.loop (h : TableInv P) {inUrl : Bool} (data : List Byte) :
    ∀ {begin : Int} {s : ArgScan}, P s.arg →
      (httpParseArgsLoop inUrl data begin s).Ensures fun r => P r.arg := by
  induction data with
  | nil =>
    intro begin s hs
    exact Access.ensures_pure hs
  | cons c data ih =>
    intro begin s hs
    refine (h.byte hs).bind ?_
    intro s' hs'
    split
    · exact Access.ensures_pure hs'
    · exact ih hs'

theorem TableInv.stop (h : TableInv P) {inUrl : Bool} {state : HttpState} {s : ArgScan}
    (hs : P s.arg) : (httpParseArgsEnd inUrl state s).Ensures fun r => P r.arg := by
  refine (h.appendTmp hs).bind ?_
  intro s' hs'
  split
  · refine (h.appendNul hs').bind ?_
    intro s'' hs''
    exact Access.ensures_pure (h.flags (fun i => ⟨rfl, rfl⟩) hs'')
  · split
    · refine (h.appendNul hs').bind ?_
      intro s'' hs''
      exact Access.ensures_pure (h.flags (fun i => ⟨rfl, rfl⟩) hs'')
    · exact Access.ensures_pure hs'

/-- **What the steps keep, a call of `_http_parse_args` keeps.** -/
theorem httpParseArgs_inv (h : TableInv P) {info : Http} {dataLen : Int} {inUrl : Bool}
    (hinfo : P info.arg) : (httpParseArgs info dataLen inUrl).Ensures fun r => P r.arg := by
  have hstart : P (if info.arg.cur = none then httpGetEmptyArg info.arg else info.arg) := by
    split
    · exact h.empty hinfo
    · exact hinfo
  unfold httpParseArgs
  dsimp only
  generalize (if info.arg.cur = none then httpGetEmptyArg info.arg else info.arg) = arg at hstart ⊢
  split
  · exact Access.ensures_pure hstart
  · apply Access.ensures_then
    intro data
    refine (@TableInv.loop _ h inUrl data 0 { arg := arg, httpInt := info.httpInt } hstart).bind ?_
    intro s hs
    split
    · exact Access.ensures_pure hs
    · refine (h.stop hs).bind ?_
      intro s' hs'
      exact Access.ensures_pure hs'

/-! ## A digit is not decoded -/

/-- What a digit of a size is not. -/
theorem isxdigit_ordinary {d : Byte} (h : isxdigit d = true) :
    d ≠ ch '%' ∧ d ≠ ch '+' ∧ d ≠ ch '\\' ∧ d ≠ ch '&' ∧ d ≠ ch '=' := by
  revert d
  apply forall_byte
  decide +kernel

/-- The text starts with the byte. -/
def BeginsWith (d : Byte) (l : List Byte) : Prop := ∃ t, l = d :: t

theorem BeginsWith.take {d : Byte} {l : List Byte} (h : BeginsWith d l) {k : Nat} (hk : 0 < k) :
    BeginsWith d (l.take k) := by
  obtain ⟨t, rfl⟩ := h
  obtain ⟨k, rfl⟩ := Nat.exists_eq_succ_of_ne_zero (Nat.ne_of_gt hk)
  exact ⟨t.take k, rfl⟩

theorem BeginsWith.append {d : Byte} {l : List Byte} (h : BeginsWith d l) (r : List Byte) :
    BeginsWith d (l ++ r) := by
  obtain ⟨t, rfl⟩ := h
  exact ⟨t ++ r, rfl⟩

section Decoders
variable {d : Byte} (hd : isxdigit d = true) {l : List Byte}
include hd

theorem httpHtmlEntitiesDecode_begins (h : BeginsWith d l) :
    BeginsWith d (httpHtmlEntitiesDecode l) := by
  obtain ⟨t, rfl⟩ := h
  unfold httpHtmlEntitiesDecode
  rw [List.length_cons, httpHtmlEntitiesLoop, if_neg fun hc => (isxdigit_ordinary hd).2.2.2.1 hc.1]
  exact ⟨_, rfl⟩

theorem httpEscapeDecode_begins (h : BeginsWith d l) : BeginsWith d (httpEscapeDecode l) := by
  obtain ⟨t, rfl⟩ := h
  cases t with
  | nil => exact ⟨[], rfl⟩
  | cons c t =>
    unfold httpEscapeDecode
    rw [List.length_cons, List.length_cons]
    simp only [httpEscapeLoop, (isxdigit_ordinary hd).2.2.1, ne_eq, not_false_eq_true, if_true]
    exact ⟨_, rfl⟩

theorem httpStringDecode_begins (h : BeginsWith d l) : BeginsWith d (httpStringDecode l false) := by
  obtain ⟨t, rfl⟩ := h
  unfold httpStringDecode
  rw [List.foldr_cons]
  generalize t.foldr (httpStringDecodeStep false) ([], 0) = s
  obtain ⟨out, tmpLen⟩ := s
  rw [httpStringDecodeStep, if_neg (isxdigit_ordinary hd).1, if_neg (isxdigit_ordinary hd).2.1]
  exact ⟨_, rfl⟩

theorem httpDecodeRound_begins (h : BeginsWith d l) {flag : DecodeFlag} {k n : Nat} (hk : 1 < k) :
    BeginsWith d (httpDecodeRound flag k n l).1 := by
  have h1 : BeginsWith d (if flag.html then httpHtmlEntitiesDecode l else l) := by
    split
    · exact httpHtmlEntitiesDecode_begins hd h
    · exact h
  have h2 : BeginsWith d (if flag.escape then
      httpEscapeDecode (if flag.html then httpHtmlEntitiesDecode l else l)
      else if flag.html then httpHtmlEntitiesDecode l else l) := by
    split
    · exact httpEscapeDecode_begins hd h1
    · exact h1
  unfold httpDecodeRound
  dsimp only
  split
  · apply BeginsWith.take _ (by decide)
    split
    · exact httpStringDecode_begins hd h2
    · exact h2.take (by omega)
  · exact h2

theorem httpDecodeLoop_begins {flag : DecodeFlag} {k n : Nat} (hk : 1 < k) (cnt : Nat) :
    ∀ {l : List Byte}, BeginsWith d l → BeginsWith d (httpDecodeLoop flag k n cnt l) := by
  induction cnt with
  | zero =>
    intro l h
    exact h
  | succ cnt ih =>
    intro l h
    have hround := @httpDecodeRound_begins d hd l h flag k n hk
    unfold httpDecodeLoop
    split
    · next tmp' heq =>
      rw [heq] at hround
      exact ih hround
    · next tmp' heq =>
      rw [heq] at hround
      exact hround

/-- A decoded name starts as the name does. -/
theorem decode_begins {flag : DecodeFlag} {x : XStr} (h : ∀ l, x.p = some l → BeginsWith d l)
    (hp : x.p ≠ none) : ∃ l, (x.decode flag).p = some l ∧ BeginsWith d l := by
  obtain ⟨l, hl⟩ := Option.ne_none_iff_exists'.mp hp
  unfold XStr.decode
  rw [hl]
  dsimp only [Option.getD_some]
  split
  · next hlen =>
    refine ⟨_, rfl, ?_⟩
    unfold httpDecodeString at hlen ⊢
    split
    · next hbig =>
      rw [if_pos hbig] at hlen
      exact absurd hlen.1 (Nat.lt_irrefl 0)
    · exact (httpDecodeLoop_begins hd (by decide) _ (h l hl)).take (by decide)
  · exact ⟨l, hl, h l hl⟩

end Decoders

/-! ## The first byte of a name -/

/-- The name in slot `n` starts with the byte. -/
def NameBegins (n : Nat) (d : Byte) (a : HttpArgCtrl) : Prop :=
  ∃ item l, a.arg[n]? = some item ∧ item.name.p = some l ∧ BeginsWith d l

/-- What the other slots hold does not matter, nor what this one has besides. -/
theorem NameBegins.onCur {n : Nat} {d : Byte} {a : HttpArgCtrl} (h : NameBegins n d a)
    {f : HttpArg → HttpArg} (hf : ∀ item l, a.arg[n]? = some item → item.name.p = some l →
      BeginsWith d l → ∃ l', (f item).name.p = some l' ∧ BeginsWith d l') :
    NameBegins n d (a.onCur f) := by
  obtain ⟨item, l, hitem, hname, hl⟩ := h
  unfold HttpArgCtrl.onCur
  split
  · next i _ =>
    by_cases hi : i = n
    · obtain ⟨l', hname', hl'⟩ := hf item l hitem hname hl
      refine ⟨f item, l', ?_, hname', hl'⟩
      simp [hi, hitem]
    · refine ⟨item, l, ?_, hname, hl⟩
      simp [hi, hitem]
  · exact ⟨item, l, hitem, hname, hl⟩

theorem append_begins {d : Byte} {x y : XStr} {l value : List Byte} (hl : x.p = some l)
    (hd : BeginsWith d l) (h : x.append value = some y) : ∃ l', y.p = some l' ∧ BeginsWith d l' := by
  unfold XStr.append at h
  rw [hl] at h
  dsimp only at h
  split at h
  · cases h
    exact ⟨_, rfl, hd.append value⟩
  · cases h
    exact ⟨l, hl, hd⟩

theorem itemDecode_begins {d : Byte} (hd : isxdigit d = true) {item : HttpArg} {l : List Byte}
    (hl : item.name.p = some l) (h : BeginsWith d l) :
    ∃ l', item.decode.name.p = some l' ∧ BeginsWith d l' := by
  unfold HttpArg.decode
  split
  · apply decode_begins hd
    · intro l' hl'
      rw [hl] at hl'
      cases hl'
      exact h
    · rw [hl]
      exact Option.some_ne_none l
  · exact ⟨l, hl, h⟩

theorem itemAppend_begins {d : Byte} {item item' : HttpArg} {l value : List Byte}
    (hl : item.name.p = some l) (hd : BeginsWith d l) (h : item.append value = some item') :
    ∃ l', item'.name.p = some l' ∧ BeginsWith d l' := by
  unfold HttpArg.append at h
  split at h
  · obtain ⟨v, -, rfl⟩ := Option.map_eq_some_iff.mp h
    exact ⟨l, hl, hd⟩
  · obtain ⟨x, hx, rfl⟩ := Option.map_eq_some_iff.mp h
    exact append_begins hl hd hx

/-- **A digit that begins a name stays there.** -/
theorem nameBegins_inv {n : Nat} {d : Byte} (hd : isxdigit d = true) : TableInv (NameBegins n d) where
  append := by
    intro value a b ha h
    unfold httpAppendArg at h
    split at h
    · cases h
      exact ha
    · split at h
      · cases h
      · next item hcur =>
        obtain ⟨item', hitem', rfl⟩ := Option.map_eq_some_iff.mp h
        -- the item that is changed is the one in slot `n`, or the slot keeps its own
        obtain ⟨i, hi, hslot⟩ := Option.bind_eq_some_iff.mp hcur
        by_cases hin : i = n
        · apply ha.onCur
          intro old l hold hl hbegins
          rw [← hin, hslot] at hold
          cases hold
          obtain ⟨l', hl', hbegins'⟩ := itemAppend_begins hl hbegins hitem'
          exact itemDecode_begins hd hl' hbegins'
        · obtain ⟨old, l, hold, hl, hbegins⟩ := ha
          refine ⟨old, l, ?_, hl, hbegins⟩
          simp [HttpArgCtrl.onCur, hi, hin, hold]
  empty := by
    intro a ha
    unfold httpGetEmptyArg
    split
    · exact ha
    · obtain ⟨item, l, hitem, hl, hbegins⟩ := ha
      refine ⟨item, l, ?_, hl, hbegins⟩
      show (a.arg ++ [({} : HttpArg)])[n]? = some item
      rw [List.getElem?_append_left (List.getElem?_eq_some_iff.mp hitem).1]
      exact hitem
  flags := by
    intro a f hf ha
    apply ha.onCur
    intro item l _ hl hbegins
    rw [(hf item).1]
    exact ⟨l, hl, hbegins⟩

/-! ## The first argument of a body -/

/-- The stretch of the first name has begun at the pointer, in slot `n`. -/
structure Pending (n : Nat) (s : ArgScan) : Prop where
  data : s.tmpData = some 0
  len : 0 < s.tmpLen
  cur : s.arg.cur = some n
  item : ∃ item, s.arg.arg[n]? = some item ∧ item.name.p = none ∧ item.argFlag = false

/-- The stretch that starts with the byte becomes the name. -/
theorem Pending.appendTmp {n : Nat} {d : Byte} (hd : isxdigit d = true) {s r : ArgScan}
    (h : Pending n s) {m : Memory Byte} (hm : m 0 = some d) (hrun : s.appendTmp.run m = some r) :
    NameBegins n d r.arg := by
  obtain ⟨item, hitem, hname, hflag⟩ := h.item
  have hcur : s.arg.item = some item := by
    unfold HttpArgCtrl.item
    rw [h.cur]
    exact hitem
  unfold ArgScan.appendTmp at hrun
  rw [h.data] at hrun
  obtain ⟨value, hvalue, hrun⟩ := Option.bind_eq_some_iff.mp hrun
  obtain ⟨arg, harg, hrun⟩ := Option.bind_eq_some_iff.mp hrun
  cases hrun
  rw [Access.run_ofOption] at harg
  have hbegins : BeginsWith d value := by
    obtain ⟨k, hk⟩ := Nat.exists_eq_succ_of_ne_zero (Nat.ne_of_gt h.len)
    rw [hk] at hvalue
    obtain ⟨b, hb, hvalue⟩ := Option.bind_eq_some_iff.mp hvalue
    obtain ⟨t, -, hvalue⟩ := Option.bind_eq_some_iff.mp hvalue
    cases hvalue
    rw [Access.run_read, hm] at hb
    cases hb
    exact ⟨t, rfl⟩
  have hne : value ≠ [] := by
    obtain ⟨t, rfl⟩ := hbegins
    exact List.cons_ne_nil d t
  unfold httpAppendArg at harg
  rw [if_neg hne, hcur] at harg
  obtain ⟨item', hitem', rfl⟩ := Option.map_eq_some_iff.mp harg
  have hname' : item'.name.p = some value := by
    unfold HttpArg.append at hitem'
    rw [if_neg (by rw [hflag]; decide)] at hitem'
    obtain ⟨x, hx, rfl⟩ := Option.map_eq_some_iff.mp hitem'
    unfold XStr.append at hx
    rw [hname] at hx
    dsimp only at hx
    split at hx
    · cases hx
    · cases hx
      rfl
  obtain ⟨l', hl', hbegins'⟩ := itemDecode_begins hd hname' hbegins
  refine ⟨item'.decode, l', ?_, hl', hbegins'⟩
  simp [HttpArgCtrl.onCur, h.cur, hitem]

theorem Pending.flags {n : Nat} {s : ArgScan} (h : Pending n s) {f : HttpArg → HttpArg}
    (hf : ∀ i, (f i).name = i.name ∧ (f i).argFlag = i.argFlag) : Pending n (s.onCur f) where
  data := h.data
  len := h.len
  cur := by
    show (s.arg.onCur f).cur = some n
    rw [(sameSlots_onCur s.arg f).cur]
    exact h.cur
  item := by
    obtain ⟨item, hitem, hname, hflag⟩ := h.item
    refine ⟨f item, ?_, ?_, ?_⟩
    · show (s.arg.onCur f).arg[n]? = some (f item)
      simp [HttpArgCtrl.onCur, h.cur, hitem]
    · rw [(hf item).1]
      exact hname
    · rw [(hf item).2]
      exact hflag

theorem Pending.extend {n : Nat} {s : ArgScan} (h : Pending n s) (inUrl : Bool) (begin : Int) :
    Pending n (s.extend inUrl begin) where
  data := by
    show some (s.tmpData.getD begin) = some 0
    rw [h.data]
    rfl
  len := Nat.succ_pos _
  cur := h.cur
  item := h.item

/-- The name is being read, or it is in the table. -/
def Begun (n : Nat) (d : Byte) (s : ArgScan) : Prop := Pending n s ∨ NameBegins n d s.arg

section FirstSegment
variable {n : Nat} {d : Byte} (hd : isxdigit d = true) {m : Memory Byte} (hm : m 0 = some d)
include hd hm

theorem Begun.byte {s r : ArgScan} (h : Begun n d s) {begin : Int} {c : Byte}
    (hrun : (httpParseArgsByte false begin c s).run m = some r) : Begun n d r := by
  rcases h with hpend | hname
  · obtain ⟨item, hitem, -, hflag⟩ := hpend.item
    have hcur : s.arg.item = some item := by
      unfold HttpArgCtrl.item
      rw [hpend.cur]
      exact hitem
    unfold httpParseArgsByte at hrun
    split at hrun
    · cases hrun
      apply Or.inl
      apply Pending.extend
      exact hpend.flags fun i => ⟨rfl, rfl⟩
    · split at hrun
      · cases hrun
        apply Or.inl
        apply Pending.extend
        exact hpend.flags fun i => ⟨rfl, rfl⟩
      · split at hrun
        · obtain ⟨s', hs', hrun⟩ := Option.bind_eq_some_iff.mp hrun
          cases hrun
          have h1 := hpend.appendTmp hd hm hs'
          have hinv := @nameBegins_inv n d hd
          exact Or.inr (hinv.flags (fun i => ⟨rfl, rfl⟩) (hinv.empty (hinv.flags (fun i => ⟨rfl, rfl⟩) h1)))
        · split at hrun
          · rw [if_pos (by rw [hcur, Option.map_some, hflag]; decide)] at hrun
            obtain ⟨s', hs', hrun⟩ := Option.bind_eq_some_iff.mp hrun
            obtain ⟨s'', hs'', hrun⟩ := Option.bind_eq_some_iff.mp hrun
            cases hrun
            have h1 := hpend.appendTmp hd hm hs'
            have hinv := @nameBegins_inv n d hd
            have h2 := @TableInv.appendNul _ hinv { s' with tmpData := none, tmpLen := 0 } h1 m s'' hs''
            exact Or.inr (hinv.flags (fun i => ⟨rfl, rfl⟩) h2)
          · cases hrun
            exact Or.inl (hpend.extend _ _)
  · exact Or.inr ((nameBegins_inv hd).byte hname m r hrun)

theorem Begun.loop (data : List Byte) : ∀ {begin : Int} {s r : ArgScan}, Begun n d s →
    (httpParseArgsLoop false data begin s).run m = some r → Begun n d r := by
  induction data with
  | nil =>
    intro begin s r h hrun
    cases hrun
    exact h
  | cons c data ih =>
    intro begin s r h hrun
    obtain ⟨s', hs', hrun⟩ := Option.bind_eq_some_iff.mp hrun
    have h' := Begun.byte hd hm h hs'
    dsimp only at hrun
    split at hrun
    · cases hrun
      exact h'
    · exact ih h' hrun

/-- What is still being read when the segment ends is appended there. -/
theorem Begun.stop {s r : ArgScan} (h : Begun n d s) {state : HttpState}
    (hrun : (httpParseArgsEnd false state s).run m = some r) : NameBegins n d r.arg := by
  have hinv := @nameBegins_inv n d hd
  rcases h with hpend | hname
  · obtain ⟨s', hs', hrun⟩ := Option.bind_eq_some_iff.mp hrun
    have h1 := hpend.appendTmp hd hm hs'
    dsimp only at hrun
    rw [if_neg (by decide)] at hrun
    split at hrun
    · obtain ⟨s'', hs'', hrun⟩ := Option.bind_eq_some_iff.mp hrun
      cases hrun
      exact hinv.flags (fun i => ⟨rfl, rfl⟩) (hinv.appendNul h1 m s'' hs'')
    · cases hrun
      exact h1
  · exact hinv.stop hname m r hrun

end FirstSegment

/-! ## A body in segments -/

/-- `http_parse_body` on one segment after the other. -/
def parseSegments : Http → List (List Byte) → Option Http
  | info, [] => some info
  | info, segment :: segments => (parseBody info segment).bind fun r => parseSegments r segments

theorem parseBody_argBody {segment : List Byte} {info r : Http} (hne : segment ≠ [])
    (h : ArgBody info) (hrun : parseBody info segment = some r) : ArgBody r := by
  unfold ArgBody
  rw [(parseBody_frame hne hrun).logic, (httpBodyCount_arg segment info).2]
  exact h

/-- The first segment begins the first name, in the first free slot. -/
theorem parseBody_begins {d : Byte} (hd : isxdigit d = true) {t : List Byte} {info r : Http}
    (h : ArgBody info) (hcur : info.arg.cur = none) (hroom : info.arg.arg.length < info.arg.maxNum)
    (hrun : parseBody info (d :: t) = some r) : NameBegins info.arg.arg.length d r.arg := by
  have harg := (httpBodyCount_arg (d :: t) info).1
  have hm : Memory.ofList (d :: t) 0 = some d := rfl
  rw [parseBody_args (List.cons_ne_nil d t) h] at hrun
  generalize hcount : httpBodyCount (d :: t) info = counted at hrun harg
  have hempty : httpGetEmptyArg counted.arg = { info.arg with
      cur := some info.arg.arg.length, arg := info.arg.arg ++ [({} : HttpArg)] } := by
    rw [harg, httpGetEmptyArg, if_neg (by omega)]
  unfold httpParseArgs at hrun
  dsimp only at hrun
  rw [harg, if_pos hcur, ← harg, hempty] at hrun
  rw [if_neg (by simp), Access.run_bind, Int.toNat_natCast, slice_whole, Option.bind_some] at hrun
  obtain ⟨s, hs, hrun⟩ := Option.bind_eq_some_iff.mp hrun
  -- the digit starts the stretch of the name
  obtain ⟨s1, hs1, hs⟩ := Option.bind_eq_some_iff.mp hs
  have hpend : Pending info.arg.arg.length s1 := by
    obtain ⟨h1, h2, h3, h4, h5⟩ := isxdigit_ordinary hd
    unfold httpParseArgsByte at hs1
    rw [if_neg (by simp [h1, h2]), if_neg h3, if_neg h4, if_neg h5] at hs1
    cases hs1
    exact ⟨rfl, Nat.succ_pos _, rfl, {}, by simp [ArgScan.extend], rfl, rfl⟩
  have hbegun : Begun info.arg.arg.length d s := by
    dsimp only at hs
    rw [if_neg (by rw [hpend.cur]; simp)] at hs
    exact Begun.loop hd hm t (Or.inl hpend) hs
  dsimp only at hrun
  split at hrun
  · next hnone =>
    cases hrun
    rcases hbegun with hp | hname
    · rw [hp.cur] at hnone
      cases hnone
    · exact hname
  · obtain ⟨s', hs', hrun⟩ := Option.bind_eq_some_iff.mp hrun
    cases hrun
    exact hbegun.stop hd hm hs'

theorem parseSegments_keeps {n : Nat} {d : Byte} (hd : isxdigit d = true)
    (segments : List (List Byte)) : ∀ {info r : Http}, (∀ s ∈ segments, s ≠ []) → ArgBody info →
    NameBegins n d info.arg → parseSegments info segments = some r → NameBegins n d r.arg := by
  induction segments with
  | nil =>
    intro info r _ _ h hrun
    cases hrun
    exact h
  | cons segment segments ih =>
    intro info r hne hargs h hrun
    obtain ⟨r', hr', hrun⟩ := Option.bind_eq_some_iff.mp hrun
    have hseg := hne segment List.mem_cons_self
    have hr'args := parseBody_argBody hseg hargs hr'
    rw [parseBody_args hseg hargs] at hr'
    rw [← (httpBodyCount_arg segment info).1] at h
    have h' := httpParseArgs_inv (nameBegins_inv hd) h _ r' hr'
    exact ih (fun s hs => hne s (List.mem_cons_of_mem _ hs)) hr'args h' hrun

/-- **The first byte of the stream begins the first name**, however the stream
is cut. -/
theorem parseSegments_begins {d : Byte} (hd : isxdigit d = true) {t : List Byte}
    {segments : List (List Byte)} {info r : Http} (hne : ∀ s ∈ segments, s ≠ [])
    (hflat : segments.flatten = d :: t) (h : ArgBody info) (hcur : info.arg.cur = none)
    (hroom : info.arg.arg.length < info.arg.maxNum) (hrun : parseSegments info segments = some r) :
    NameBegins info.arg.arg.length d r.arg := by
  cases segments with
  | nil => cases hflat
  | cons segment segments =>
    have hseg := hne segment List.mem_cons_self
    obtain ⟨c, l, rfl⟩ := List.exists_cons_of_ne_nil hseg
    rw [List.flatten_cons, List.cons_append] at hflat
    obtain ⟨rfl, -⟩ := List.cons.inj hflat
    obtain ⟨r', hr', hrun⟩ := Option.bind_eq_some_iff.mp hrun
    exact parseSegments_keeps hd segments (fun s hs => hne s (List.mem_cons_of_mem _ hs))
      (parseBody_argBody hseg h hr') (parseBody_begins hd h hcur hroom hr') hrun

/-! ## Transparency -/

/-- A parser behind the head of a chunked request that is no form. -/
structure ChunkedStart (info : Http) : Prop where
  chunked : info.logic.isChunked = true
  idle : Idle info.loc
  argBody : ArgBody info
  cur : info.arg.cur = none

/-- The same, were the request not chunked. -/
def unchunked (info : Http) : Http := { info with logic := { info.logic with isChunked := false } }

/-- The names and values in the table. -/
def recorded (info : Http) : List (Option (List Byte) × Option (List Byte)) :=
  info.arg.arg.map fun item => (item.name.p, item.value.p)

/-- Whatever chunks the body is divided into, whatever their size lines are and
wherever the stream is cut, the arguments are those of the plain body. -/
def Transparent (info : Http) (b : List Byte) (plain : Http) : Prop :=
  ∀ (chunks : List Chunk) (segments : List (List Byte)), chunks.flatMap Chunk.data = b →
    (∀ s ∈ segments, s ≠ []) → segments.flatten = chunkStream chunks →
    ∃ r, parseSegments info segments = some r ∧ recorded r = recorded plain

/-- A stream starts with a digit. -/
theorem chunkStream_digit (chunks : List Chunk) :
    ∃ d t, chunkStream chunks = d :: t ∧ isxdigit d = true := by
  cases chunks with
  | nil => exact ⟨ch '0', str "\r\n\r\n", by decide, by decide⟩
  | cons c chunks =>
    obtain ⟨d, size, hsize⟩ := List.exists_cons_of_ne_nil c.size_ne
    refine ⟨d, size ++ c.ext ++ str "\r\n" ++ (c.data ++ str "\r\n") ++ chunkStream chunks, ?_, ?_⟩
    · simp [chunkStream, Chunk.text, Chunk.line, hsize]
    · apply c.size_hex
      rw [hsize]
      exact List.mem_cons_self

theorem parseSegments_full (segments : List (List Byte)) : ∀ {info : Http},
    (∀ s ∈ segments, s ≠ []) → ArgBody info → info.arg.cur = none →
    info.arg.maxNum ≤ info.arg.arg.length →
    ∃ r, parseSegments info segments = some r ∧ r.arg = info.arg := by
  induction segments with
  | nil =>
    intro info _ _ _ _
    exact ⟨info, rfl, rfl⟩
  | cons segment segments ih =>
    intro info hne h hcur hfull
    have hseg := hne segment List.mem_cons_self
    obtain ⟨r, hr, harg⟩ := parseBody_full hseg h hcur hfull
    obtain ⟨r', hr', harg'⟩ := @ih r (fun s hs => hne s (List.mem_cons_of_mem _ hs))
      (parseBody_argBody hseg h hr) (harg ▸ hcur) (harg ▸ hfull)
    refine ⟨r', ?_, harg'.trans harg⟩
    rw [parseSegments, hr]
    exact hr'

/-- A chunk of one byte. -/
def byteChunk (size : List Byte) (h : size = str "1" ∨ size = str "01") (c : Byte) : Chunk where
  size := size
  ext := []
  data := [c]
  size_ne := by rcases h with rfl | rfl <;> decide
  size_hex := by rcases h with rfl | rfl <;> decide +kernel
  ext_start := by simp
  ext_line := by decide
  line_length := by rcases h with rfl | rfl <;> decide
  data_ne := by simp
  data_size := by
    show digits 16 0 size = 1
    rcases h with rfl | rfl <;> decide
  data_length := by simp

/-- **Chunked coding is transparent only where nothing can be recorded.** With a
slot left, the first byte of the first size line begins the first name. -/
theorem chunked_transparent {info plain : Http} {b : List Byte} (h : ChunkedStart info)
    (hplain : parseBody (unchunked info) b = some plain) :
    (Transparent info b plain ↔ info.arg.maxNum ≤ info.arg.arg.length) ∧
    (info.arg.arg.length < info.arg.maxNum → ∀ (chunks : List Chunk) (segments : List (List Byte))
      (r : Http), chunks.flatMap Chunk.data = b → (∀ s ∈ segments, s ≠ []) →
      segments.flatten = chunkStream chunks → parseSegments info segments = some r →
      ∃ d, (chunkStream chunks).head? = some d ∧ NameBegins info.arg.arg.length d r.arg) := by
  have hbegins : info.arg.arg.length < info.arg.maxNum → ∀ (chunks : List Chunk)
      (segments : List (List Byte)) (r : Http), (∀ s ∈ segments, s ≠ []) →
      segments.flatten = chunkStream chunks → parseSegments info segments = some r →
      ∃ d, (chunkStream chunks).head? = some d ∧ NameBegins info.arg.arg.length d r.arg := by
    intro hroom chunks segments r hne hflat hrun
    obtain ⟨d, t, hstream, hd⟩ := chunkStream_digit chunks
    rw [hstream] at hflat ⊢
    exact ⟨d, rfl, parseSegments_begins hd hne hflat h.argBody h.cur hroom hrun⟩
  refine ⟨⟨?_, ?_⟩, fun hroom chunks segments r _ => hbegins hroom chunks segments r⟩
  · intro htrans
    apply Nat.le_of_not_lt
    intro hroom
    -- the stream in one segment
    have hone : ∀ chunks : List Chunk, chunks.flatMap Chunk.data = b →
        ∃ r d, recorded r = recorded plain ∧ (chunkStream chunks).head? = some d ∧
          NameBegins info.arg.arg.length d r.arg := by
      intro chunks hb
      obtain ⟨d, t, hstream, -⟩ := chunkStream_digit chunks
      have hne : ∀ s ∈ [chunkStream chunks], s ≠ [] := by
        intro s hs
        rw [List.mem_singleton.mp hs, hstream]
        exact List.cons_ne_nil d t
      have hflat : [chunkStream chunks].flatten = chunkStream chunks := by simp
      obtain ⟨r, hrun, hrec⟩ := htrans chunks [chunkStream chunks] hb hne hflat
      obtain ⟨d', hhead, hname⟩ := hbegins hroom chunks _ r hne hflat hrun
      exact ⟨r, d', hrec, hhead, hname⟩
    have hslot : ∀ {r : Http} {d : Byte}, recorded r = recorded plain →
        NameBegins info.arg.arg.length d r.arg →
        ∃ l v, (recorded plain)[info.arg.arg.length]? = some (some l, v) ∧ BeginsWith d l := by
      intro r d hrec hname
      obtain ⟨item, l, hitem, hl, hd⟩ := hname
      refine ⟨l, item.value.p, ?_, hd⟩
      rw [← hrec, recorded, List.getElem?_map, hitem, Option.map_some, hl]
    cases b with
    | nil =>
      -- an empty body records nothing
      obtain ⟨r, d, hrec, -, hname⟩ := hone [] rfl
      obtain ⟨l, v, hget, -⟩ := hslot hrec hname
      cases hplain
      have hlt := (List.getElem?_eq_some_iff.mp hget).1
      simp [recorded, unchunked] at hlt
    | cons c t =>
      -- two ways to write the size 1
      have hdata : ∀ size hsize, (byteChunk size hsize c ::
          t.map (byteChunk (str "1") (Or.inl rfl))).flatMap Chunk.data = c :: t := by
        intro size hsize
        have hrest : (t.map (byteChunk (str "1") (Or.inl rfl))).flatMap Chunk.data = t := by
          rw [List.flatMap_map]
          exact List.flatMap_singleton' t
        rw [List.flatMap_cons, hrest]
        rfl
      obtain ⟨r1, d1, hrec1, hhead1, hname1⟩ := hone _ (hdata (str "1") (Or.inl rfl))
      obtain ⟨r0, d0, hrec0, hhead0, hname0⟩ := hone _ (hdata (str "01") (Or.inr rfl))
      obtain ⟨l1, v1, hget1, t1, rfl⟩ := hslot hrec1 hname1
      obtain ⟨l0, v0, hget0, t0, rfl⟩ := hslot hrec0 hname0
      rw [hget1] at hget0
      have hd1 : d1 = ch '1' := by
        rw [show (chunkStream _).head? = some (ch '1') from rfl] at hhead1
        exact (Option.some.inj hhead1).symm
      have hd0 : d0 = ch '0' := by
        rw [show (chunkStream _).head? = some (ch '0') from rfl] at hhead0
        exact (Option.some.inj hhead0).symm
      rw [hd1, hd0] at hget0
      cases hget0
  · intro hfull chunks segments _ hne _
    obtain ⟨r, hrun, harg⟩ := parseSegments_full segments hne h.argBody h.cur hfull
    refine ⟨r, hrun, ?_⟩
    have hsame : plain.arg = info.arg := by
      by_cases hb : b = []
      · subst hb
        cases hplain
        rfl
      · obtain ⟨r', hr', harg'⟩ := @parseBody_full b (unchunked info) hb h.argBody h.cur hfull
        rw [hplain] at hr'
        cases hr'
        exact harg'
    rw [recorded, recorded, harg, hsame]

/-! ## One argument -/

def chunkedHead : List Byte :=
  str "POST / HTTP/1.1\r\nTransfer-Encoding: chunked\r\n" ++
    str "Content-Type: application/x-www-form-urlencoded\r\n\r\n"

/-- What the head leaves. -/
def chunkedInfo : Http :=
  ((httpParseHead chunkedHead.length Http.zero).run (Memory.ofList chunkedHead)).getD {}

/-- The head, read through. -/
theorem chunkedInfo_eq : chunkedInfo =
    { logic := { state := .head, method := .post, contentType := .formenc, isChunked := true }
      httpInt := { headerLen := 96, maxHeaderLineLen := 47, headerLineNum := 3 }
      str :=
        { rawUrl := { p := some (str "/"), nul := 1 }
          url := { p := some (str "/"), nul := 1 }
          urlAndArg := { p := some (str "/"), nul := 1 }
          contentType := { p := some (str "application/x-www-form-urlencoded"), nul := 33 } }
      arg := { maxNum := 32 } } := by
  decide +kernel

theorem chunkedInfo_start : ChunkedStart chunkedInfo := by
  rw [chunkedInfo_eq]
  exact
    { chunked := rfl
      idle := ⟨rfl, rfl, rfl⟩
      argBody := ⟨by decide, by decide⟩
      cur := rfl }

/-- What the body `a=1` leaves. -/
def plainOne : Http := (parseBody (unchunked chunkedInfo) (str "a=1")).getD {}

theorem plainOne_run : parseBody (unchunked chunkedInfo) (str "a=1") = some plainOne := by
  have h : (parseBody (unchunked chunkedInfo) (str "a=1")).isSome = true := by
    rw [chunkedInfo_eq]
    decide +kernel
  obtain ⟨r, hr⟩ := Option.isSome_iff_exists.mp h
  rw [plainOne, hr]
  rfl

theorem chunked_transparent_one : ¬ Transparent chunkedInfo (str "a=1") plainOne := by
  intro h
  have hfull := (chunked_transparent chunkedInfo_start plainOne_run).1.mp h
  rw [chunkedInfo_eq] at hfull
  exact absurd hfull (by decide)

theorem noExt_start : ∀ c ∈ ([] : List Byte).head?, c = ch ';' ∨ c = ch ' ' ∨ c = ch '\t' := by
  decide +kernel

theorem noExt_line : ¬ str "\r\n" <:+: [] := by decide

theorem one_ne : str "a=1" ≠ [] := by decide

/-- A chunk of the three bytes `a=1`. -/
def oneChunk : Chunk where
  size := str "3"
  ext := []
  data := str "a=1"
  size_ne := three_ne
  size_hex := three_hex
  ext_start := noExt_start
  ext_line := noExt_line
  line_length := by decide
  data_ne := one_ne
  data_size := by decide
  data_length := by decide

/-- Sent in one chunk, `a=1` is recorded with its size line and the last one. -/
theorem size_line_recorded :
    recorded plainOne = [(some (str "a\x00"), some (str "1\x00"))] ∧
    (parseSegments chunkedInfo [chunkStream [oneChunk]]).map recorded =
      some [(some (str "3\r\na\x00"), some (str "1\r\n0\r\n\r\n\x00"))] ∧
    ¬ Transparent chunkedInfo (str "a=1") plainOne := by
  have hplain : recorded plainOne = [(some (str "a\x00"), some (str "1\x00"))] := by
    rw [plainOne, chunkedInfo_eq]
    decide +kernel
  have hchunked : (parseSegments chunkedInfo [chunkStream [oneChunk]]).map recorded =
      some [(some (str "3\r\na\x00"), some (str "1\r\n0\r\n\r\n\x00"))] := by
    rw [chunkedInfo_eq]
    decide +kernel
  refine ⟨hplain, hchunked, ?_⟩
  intro h
  obtain ⟨r, hr, hrec⟩ := h [oneChunk] [chunkStream [oneChunk]] (by decide) (by decide) (by decide)
  rw [hr, Option.map_some, hrec, hplain] at hchunked
  exact absurd hchunked (by decide)

end WafProxy
