import WafProxy.Http.Arguments
import WafProxy.Http.ChunkedArgs
import WafProxy.Http.MethodLine
import WafProxy.Http.Nested
import WafProxy.Http.UrlArgs

/-
  Encoded arguments — from a packet to the argument table

  A client may send the value of an argument as it is, or percent-encode it and
  then its percent signs, again and again. The parser marks an argument that has a
  percent sign in it, and `http_append_arg` decodes a marked argument every time
  it appends to it: a value that has been decoded is decoded again when the NUL
  behind the last argument follows it.

  What is proved:
    1. `decode_nested` — up to sixteen levels of encoding are undone where the value
       is stored; `decode_plain` — without a percent sign nothing changes.
    2. `loop_arg` — what one argument leaves in the table; from it, by induction on
       the arguments behind it, what a whole query leaves (`parsePieces_args`).
    3. `pieces_body` — the scan of a whole body is the one of a query that counts
       nothing; `httpParseArgs_args` — either puts its arguments behind the table.
    4. `parsePacket_args` — after a request in one packet the table holds the
       arguments of the query and behind them those of the body.
    5. `encoded_args_recorded` — they are recorded by their names and their decoded
       values, however each of them was sent.

  Correspondence (C ↔ Lean):
    `http_decode_arg`, `http_append_arg`   ↔ `HttpArg.decode`, `httpAppendArg`
    `_http_parse_args`                     ↔ `httpParseArgs`
    `http_parse_test`, one packet          ↔ `parsePacket`
-/

namespace WafProxy
open Lib

/-! ## Arguments as they are sent -/

theorem ordinary_iff {c : Byte} : Ordinary c ↔ c ≠ ch '%' ∧ c ≠ ch '+' ∧ c ≠ ch '\\' ∧ c ≠ ch '&' :=
  ⟨fun h => ⟨h.percent, h.plus, h.backslash, h.amp⟩, fun h => ⟨h.1, h.2.1, h.2.2.1, h.2.2.2⟩⟩

instance (c : Byte) : Decidable (Ordinary c) := decidable_of_iff _ ordinary_iff.symm

/-- How a value is sent: as it is, or percent-encoded up to sixteen times over. -/
inductive Sent (s : List Byte) : List Byte → Prop
  | plain (hplain : ∀ c ∈ s, Ordinary c) (hhead : s.head? ≠ some (ch '=')) : Sent s s
  | encoded {e : List Byte} (k : Nat) (hk : k < 16) (he : Encoded s e) (hne : s ≠ [])
      (hfree : ∀ c ∈ s, c ≠ ch '%' ∧ c ≠ ch '+') : Sent s (nested k e)

/-- An argument, with the text that its value is sent as. -/
structure EncodedArg where
  name : List Byte
  value : List Byte
  sent : List Byte
  name_plain : ∀ c ∈ name, Ordinary c ∧ c ≠ ch '=' ∧ c ≠ 0
  value_plain : 0 ∉ value
  sent_value : Sent value sent
  short : name.length + sent.length < 3999

namespace EncodedArg

def text (d : EncodedArg) : List Byte := d.name ++ ch '=' :: d.sent

/-- The flags the parser sets. -/
def flag (d : EncodedArg) : DecodeFlag := { url := decide (ch '%' ∈ d.sent) }

/-- The argument once a percent sign of its value has been read. -/
def marked (d : EncodedArg) : HttpArg where
  name := .text (d.name ++ [0])
  argFlag := true
  decodeFlag := { url := true }

/-- The argument as it is recorded in front of an `&`. -/
def item (d : EncodedArg) : HttpArg where
  name := .text (d.name ++ [0])
  value := if d.value = [] then {} else .text d.value
  argFlag := true
  decodeFlag := d.flag

/-- As it is recorded behind the last `&`. -/
def lastItem (d : EncodedArg) : HttpArg := { d.item with value := .text (d.value ++ [0]), completeFlag := true }

end EncodedArg

/-- What a query leaves in the table. -/
def itemsOf : EncodedArg → List EncodedArg → List HttpArg
  | d, [] => [d.lastItem]
  | d, d' :: ds => { d.item with completeFlag := true } :: itemsOf d' ds

/-- A query with these arguments. -/
def queryOf (d : EncodedArg) (ds : List EncodedArg) : List Byte := d.text ++ behind (ds.map EncodedArg.text)

/-! ## Decoding -/

/-- Without a percent sign the URL decoder finds nothing. -/
theorem shrinks_plain {text : List Byte} (h : ch '%' ∉ text) : shrinks { url := true } text = false := by
  have hnone : ∀ l : List Byte, ch '%' ∉ l → encoded { url := true } l = false := by
    intro l hl
    have hbyte : ∀ c ∈ l, ∀ t, isPercent (c :: t) = false := by
      intro c hc t
      have hne : c ≠ ch '%' := fun heq => hl (heq ▸ hc)
      rw [isPercent, decide_eq_false hne, Bool.false_and]
    have hoccurs := @occurs_append_of_not isPercent l [] hbyte
    rw [List.append_nil] at hoccurs
    simp [encoded, hoccurs, occurs]
  have hplain : ch '%' ∉ plain { url := true } text := by
    unfold plain
    split
    · intro hmem
      obtain ⟨c, hc, heq⟩ := List.mem_map.mp hmem
      split at heq
      · exact absurd heq (by decide)
      · exact h (heq ▸ hc)
    · exact h
  rw [shrinks, hnone _ h, hnone _ hplain]
  rfl

theorem decode_plain {flag : DecodeFlag} {text : List Byte} (hlen : text.length < DECODE_BUF)
    (h : shrinks flag text = false) : XStr.decode flag (.text text) = .text text := by
  have hout := (httpDecodeString_shortens flag hlen).unchanged h
  show (if 0 < (httpDecodeString DECODE_BUF text flag).length ∧
    (httpDecodeString DECODE_BUF text flag).length < text.length then _ else _) = _
  rw [hout, plain_length]
  exact if_neg fun hlt => absurd hlt.2 (Nat.lt_irrefl _)

/-- A marked argument is decoded, its name and its value. -/
theorem decode_marked {item : HttpArg} (h : item.decodeFlag = { url := true }) : item.decode =
    { item with
      name := item.name.decode { url := true }
      value := item.value.decode { url := true } } := by
  have hneed : item.decodeFlag.needDecode = true := by
    rw [h]
    rfl
  rw [HttpArg.decode, if_pos hneed, h]

theorem decode_done {item : HttpArg} {b : Bool} (hflag : item.decodeFlag = { url := b })
    (hname : item.name.decode { url := true } = item.name)
    (hvalue : item.value.decode { url := true } = item.value) : item.decode = item := by
  cases b with
  | true => rw [decode_marked hflag, hname, hvalue]
  | false =>
    rw [HttpArg.decode, hflag]
    exact if_neg Bool.false_ne_true

theorem nested_length (e : List Byte) : ∀ k, e.length ≤ (nested k e).length := by
  intro k
  induction k with
  | zero => exact Nat.le_refl _
  | succ k ih => exact Nat.le_trans ih (nest_length _)

/-- **A stored value is decoded**, from up to sixteen levels of encoding. -/
theorem decode_nested {s e : List Byte} (he : Encoded s e) (hne : s ≠ [])
    (hfree : ∀ c ∈ s, c ≠ 0 ∧ c ≠ ch '%' ∧ c ≠ ch '+') {k : Nat} (hk : k < 16)
    (hlen : (nested k e).length < DECODE_BUF) : XStr.decode { url := true } (.text (nested k e)) = .text s := by
  have hbuf : DECODE_BUF = 8192 ∧ MAX_DECODE_LEN = 16384 := ⟨rfl, rfl⟩
  have hpos := List.length_pos_iff.mpr hne
  have hthree := he.length
  have hle := nested_length e k
  have hloop := httpDecodeLoop_level he hfree DECODE_BUF (show 2 < (nested k e).length by omega) (by omega) 16
    (k + 1) (Nat.le_refl (nested k e).length)
  have hdone : k + 1 - 16 = 0 := by omega
  rw [hdone] at hloop
  have hdecoded : httpDecodeString DECODE_BUF (nested k e) { url := true } = s := by
    rw [httpDecodeString, if_neg (by omega)]
    show List.take _ (httpDecodeLoop _ _ _ 16 (level s e (k + 1))) = s
    rw [hloop]
    exact List.take_of_length_le (by show s.length ≤ _; omega)
  show (if 0 < (httpDecodeString DECODE_BUF (nested k e) { url := true }).length ∧
    (httpDecodeString DECODE_BUF (nested k e) { url := true }).length < (nested k e).length then
      ({ p := some (httpDecodeString DECODE_BUF (nested k e) { url := true })
         nul := (httpDecodeString DECODE_BUF (nested k e) { url := true }).length } : XStr) else _) = _
  rw [hdecoded, if_pos ⟨hpos, by omega⟩]
  rfl

/-! ## The bytes of a value -/

theorem nested_bytes {s e : List Byte} (he : Encoded s e) :
    ∀ k, ∀ c ∈ nested k e, c = ch '%' ∨ isxdigit c = true := by
  intro k
  induction k with
  | zero =>
    show ∀ c ∈ e, _
    induction he with
    | nil => exact fun c hc => (by cases hc)
    | cons b h k hh hk _ _ ih =>
      intro c hc
      rcases List.mem_cons.mp hc with rfl | hc
      · exact Or.inl rfl
      rcases List.mem_cons.mp hc with rfl | hc
      · exact Or.inr hh
      rcases List.mem_cons.mp hc with rfl | hc
      · exact Or.inr hk
      · exact ih c hc
  | succ k ih =>
    intro c hc
    obtain ⟨b, hb, hin⟩ := List.mem_flatMap.mp hc
    split at hin
    · have htwo : str "%25" = [ch '%', ch '2', ch '5'] := rfl
      rw [htwo] at hin
      simp only [List.mem_cons, List.not_mem_nil, or_false] at hin
      rcases hin with rfl | rfl | rfl
      · exact Or.inl rfl
      · exact Or.inr (by decide)
      · exact Or.inr (by decide)
    · rw [List.mem_singleton.mp hin]
      exact ih b hb

/-- An encoded value starts with a percent sign. -/
theorem nested_head {s e : List Byte} (he : Encoded s e) (hne : s ≠ []) : ∀ k, ∃ t, nested k e = ch '%' :: t := by
  intro k
  induction k with
  | zero =>
    cases he with
    | nil => exact absurd rfl hne
    | cons b h k hh hk hb hs => exact ⟨_, rfl⟩
  | succ k ih =>
    obtain ⟨t, ht⟩ := ih
    refine ⟨ch '2' :: ch '5' :: nest t, ?_⟩
    show nest (nested k e) = _
    rw [ht, nest_cons, if_pos rfl]
    rfl

section
variable {begin : Int} {s : ArgScan} {done : List HttpArg} {item : HttpArg}

/-- A percent sign marks the argument and belongs to the stretch. -/
theorem byte_percent (m : Memory Byte) (harg : s.arg = tableWith done item) :
    (httpParseArgsByte true begin (ch '%') s).run m =
      some ({ s with
        arg := tableWith done { item with decodeFlag := { item.decodeFlag with url := true } } }.extend
          true begin) := by
  unfold httpParseArgsByte
  rw [if_pos (Or.inl rfl), Access.run_pure, ArgScan.onCur, harg, tableWith_onCur]

/-- Another one changes nothing but the stretch. -/
theorem byte_coded {c : Byte} (m : Memory Byte) (hc : c = ch '%' ∨ isxdigit c = true)
    (harg : s.arg = tableWith done item) (hmark : item.decodeFlag.url = true) :
    (httpParseArgsByte true begin c s).run m = some (s.extend true begin) := by
  rcases hc with rfl | hc
  · have hsame : ({ item with decodeFlag := { item.decodeFlag with url := true } } : HttpArg) = item := by
      rw [← hmark]
    rw [byte_percent m harg, hsame, ← harg]
  · obtain ⟨h1, h2, h3, h4, h5⟩ := isxdigit_ordinary hc
    exact byte_ordinary ⟨h1, h2, h3, h4⟩ h5

/-- The bytes of an encoded value, once the argument is marked. -/
theorem loop_coded (m : Memory Byte) (data : List Byte) (hmark : item.decodeFlag.url = true) :
    ∀ (v : List Byte) (begin : Int) (s : ArgScan), (∀ c ∈ v, c = ch '%' ∨ isxdigit c = true) →
    s.arg = tableWith done item → s.tmpData ≠ none →
    ∃ s', (httpParseArgsLoop true (v ++ data) begin s).run m =
        (httpParseArgsLoop true data (begin + v.length) s').run m ∧
      s'.arg = s.arg ∧ s'.httpInt.urlArgCnt = s.httpInt.urlArgCnt ∧ s'.tmpData = s.tmpData ∧
      s'.tmpLen = s.tmpLen + v.length := by
  intro v
  induction v with
  | nil =>
    intro begin s _ _ _
    exact ⟨s, by simp, rfl, rfl, rfl, rfl⟩
  | cons c v ih =>
    intro begin s hbytes harg htmp
    obtain ⟨hc, hv⟩ := List.forall_mem_cons.mp hbytes
    have hcur : s.arg.cur ≠ none := by
      rw [harg]
      exact Option.some_ne_none _
    have hstart : (s.extend true begin).tmpData = s.tmpData := by
      obtain ⟨a, ha⟩ := Option.ne_none_iff_exists'.mp htmp
      rw [ArgScan.extend, ha]
      rfl
    obtain ⟨s', hrest, harg', hcnt, hdata, hlen⟩ := ih (begin + 1) (s.extend true begin) hv harg
      (hstart ▸ htmp)
    refine ⟨s', ?_, harg', hcnt, hdata.trans hstart, ?_⟩
    · have hbegin : begin + 1 + (v.length : Int) = begin + ((c :: v).length : Int) := by
        rw [List.length_cons]
        omega
      rw [List.cons_append, loop_cons (byte_coded m hc harg hmark) hcur, hrest, hbegin]
    · rw [hlen, List.length_cons]
      show s.tmpLen + 1 + v.length = s.tmpLen + (v.length + 1)
      omega

/-- What is appended to an item is decoded with it. -/
theorem tableWith_decoded {item' : HttpArg} {value : List Byte} (happend : item.append value = some item')
    (hne : value ≠ []) : httpAppendArg value (tableWith done item) = some (tableWith done item'.decode) := by
  rw [httpAppendArg, if_neg hne, tableWith_item]
  simp only [happend, Option.map_some, tableWith_onCur]

end

/-! ## One argument -/

theorem text_room {l : List Byte} (h : l.length < 4000) : (l ++ [0]).length < DECODE_BUF := by
  have hbuf : DECODE_BUF = 8192 := rfl
  rw [List.length_append, List.length_singleton]
  omega

theorem text_nul {l : List Byte} (h : ch '%' ∉ l) : ch '%' ∉ l ++ [0] := by
  intro hmem
  rcases List.mem_append.mp hmem with hmem | hmem
  · exact h hmem
  · exact absurd hmem (by decide)

namespace EncodedArg
variable (d : EncodedArg)

theorem name_eq : ch '=' ∉ d.name := fun hmem => (d.name_plain _ hmem).2.1 rfl

theorem text_length : d.text.length = d.name.length + 1 + d.sent.length := by
  rw [text, List.length_append, List.length_cons]
  omega

theorem text_short : d.text.length < 4000 := by
  have hshort := d.short
  rw [text_length]
  omega

/-- There is nothing to be decoded in the name. -/
theorem name_done : XStr.decode { url := true } (.text (d.name ++ [0])) = .text (d.name ++ [0]) := by
  have hshort := d.short
  apply decode_plain
  · apply text_room
    omega
  · apply shrinks_plain
    exact text_nul fun hmem => (d.name_plain _ hmem).1.percent rfl

theorem value_percent : ch '%' ∉ d.value := by
  intro hmem
  have hsent := d.sent_value
  generalize d.sent = sent at hsent
  cases hsent with
  | plain hplain _ => exact (hplain _ hmem).percent rfl
  | encoded k hk he hne hfree => exact (hfree _ hmem).1 rfl

theorem value_length : d.value.length ≤ d.sent.length := by
  have hsent := d.sent_value
  generalize d.sent = sent at hsent
  cases hsent with
  | plain _ _ => exact Nat.le_refl _
  | encoded k hk he hne hfree =>
    have hthree := he.length
    exact Nat.le_trans (by omega) (nested_length _ k)

/-- Nor in a value that has been decoded. -/
theorem value_done : XStr.decode { url := true } (.text (d.value ++ [0])) = .text (d.value ++ [0]) := by
  have hshort := d.short
  have hle := d.value_length
  apply decode_plain
  · apply text_room
    omega
  · apply shrinks_plain
    exact text_nul d.value_percent

/-- The NUL behind the last argument. -/
theorem append_nul : d.item.append [0] = some { d.item with value := .text (d.value ++ [0]) } := by
  have hmax : APPEND_MAX = 4096 := rfl
  have hshort := d.short
  have hle := d.value_length
  have hvalue : d.item.value.append [0] = some (.text (d.value ++ [0])) := by
    show (if d.value = [] then ({} : XStr) else .text d.value).append [0] = _
    by_cases hnil : d.value = []
    · rw [if_pos hnil, hnil]
      rfl
    · rw [if_neg hnil]
      apply text_append
      rw [List.length_singleton]
      omega
  rw [HttpArg.append, if_pos (show d.item.argFlag = true from rfl), hvalue, Option.map_some]

/-- It changes nothing but that it is there. -/
theorem last_decoded : HttpArg.decode { d.item with value := .text (d.value ++ [0]) } =
    { d.item with value := .text (d.value ++ [0]) } :=
  decode_done rfl d.name_done d.value_done

end EncodedArg

section
variable {d : EncodedArg} {done : List HttpArg} {s : ArgScan}

/-- What the loop does with an argument, and what its last stretch is then appended as. -/
def LeavesItem (front rest data : List Byte) (d : EncodedArg) (done : List HttpArg) (s : ArgScan) : Prop :=
  ∃ s1, (httpParseArgsLoop true (d.text ++ data) front.length s).run
        (Memory.ofList (front ++ (d.text ++ rest))) =
      (httpParseArgsLoop true data (front.length + d.text.length) s1).run
        (Memory.ofList (front ++ (d.text ++ rest))) ∧
    s1.arg.cur ≠ none ∧ s1.httpInt.urlArgCnt = s.httpInt.urlArgCnt ∧
    s1.appendTmp.run (Memory.ofList (front ++ (d.text ++ rest))) =
      some { s1 with arg := tableWith done d.item }

/-- A value that is sent as it is. -/
theorem loop_plain (front rest data : List Byte) (hplain : ∀ c ∈ d.value, Ordinary c)
    (hhead : d.value.head? ≠ some (ch '=')) (hsent : d.sent = d.value) (harg : s.arg = tableWith done {})
    (htmp : s.tmpData = none) (htmpLen : s.tmpLen = 0) : LeavesItem front rest data d done s := by
  obtain ⟨hname, hvalue⟩ := @piece_parts d.name d.sent d.name_eq
  have hord : ∀ c ∈ d.text, Ordinary c := by
    intro c hc
    rcases List.mem_append.mp hc with hc | hc
    · exact (d.name_plain c hc).1
    rcases List.mem_cons.mp hc with rfl | hc
    · exact ⟨by decide, by decide, by decide, by decide⟩
    · exact hplain c (hsent ▸ hc)
  have hstored : storedValue d.text rest = some d.value := by
    have hval : pieceValue d.text = d.value := hvalue.trans hsent
    rw [← hval]
    apply (storedValue_iff d.text rest).mpr
    rw [hval]
    exact hhead
  have hpercent : ch '%' ∉ d.sent := fun hmem => (hplain _ (hsent ▸ hmem)).percent rfl
  have hitem : pieceItem d.text d.value = d.item := by
    have heq : ch '=' ∈ d.text := List.mem_append_right _ List.mem_cons_self
    rw [pieceItem, if_pos heq, EncodedArg.text, hname, EncodedArg.item, EncodedArg.flag, decide_eq_false hpercent]
  obtain ⟨s1, hloop, hcur, hcnt, happend⟩ := loop_piece front d.text rest data hord d.text_short harg htmp htmpLen
  rw [hstored, Option.map_some, hitem] at happend
  exact ⟨s1, hloop, hcur, hcnt, happend⟩

/-- The name and the value are decoded together; the name has no percent sign. -/
theorem item_decoded {e : List Byte} {k : Nat} (hk : k < 16) (he : Encoded d.value e) (hne : d.value ≠ [])
    (hfree : ∀ c ∈ d.value, c ≠ ch '%' ∧ c ≠ ch '+') (hsent : d.sent = nested k e) :
    HttpArg.decode { d.marked with value := .text d.sent } = d.item := by
  have hbuf : DECODE_BUF = 8192 := rfl
  have hshort := d.short
  have hvalue : XStr.decode { url := true } (.text d.sent) = .text d.value := by
    rw [hsent] at hshort ⊢
    exact decode_nested he hne (fun c hc => ⟨fun h0 => d.value_plain (h0 ▸ hc), hfree c hc⟩) hk (by omega)
  have hpercent : ch '%' ∈ d.sent := by
    obtain ⟨t, ht⟩ := nested_head he hne k
    rw [hsent, ht]
    exact List.mem_cons_self
  rw [decode_marked rfl]
  show ({ name := XStr.decode _ (.text (d.name ++ [0])), value := XStr.decode _ (.text d.sent), argFlag := true,
          decodeFlag := { url := true } } : HttpArg) = _
  rw [d.name_done, hvalue, EncodedArg.item, EncodedArg.flag, if_neg hne, decide_eq_true hpercent]

/-- A value that is encoded. -/
theorem loop_encoded (front rest data : List Byte) {e : List Byte} {k : Nat} (hk : k < 16)
    (he : Encoded d.value e) (hne : d.value ≠ []) (hfree : ∀ c ∈ d.value, c ≠ ch '%' ∧ c ≠ ch '+')
    (hsent : d.sent = nested k e) (harg : s.arg = tableWith done {}) (htmp : s.tmpData = none)
    (htmpLen : s.tmpLen = 0) : LeavesItem front rest data d done s := by
  have hmax : APPEND_MAX = 4096 := rfl
  have hshort := d.short
  obtain ⟨t, ht⟩ := nested_head he hne k
  have hbytes := nested_bytes he k
  rw [← hsent] at ht hbytes
  have hlen := congrArg List.length ht
  rw [List.length_cons] at hlen
  have hmem : front ++ (d.name ++ (ch '=' :: d.sent ++ rest)) = front ++ (d.text ++ rest) := by
    simp [EncodedArg.text]
  have hmem' : front ++ (d.name ++ [ch '=']) ++ (d.sent ++ rest) = front ++ (d.text ++ rest) := by
    simp [EncodedArg.text]
  have hdata : d.name ++ ch '=' :: (d.sent ++ data) = d.text ++ data := by simp [EncodedArg.text]
  have haddr : ((front ++ (d.name ++ [ch '='])).length : Int) = (front.length : Int) + d.name.length + 1 := by
    simp only [List.length_append, List.length_singleton]
    omega
  have htext := d.text_length
  -- the name, the `=` and the first percent sign, which marks the argument
  obtain ⟨s1, hname, harg1, htmp1, htmpLen1, hcnt1⟩ := loop_firstEq front d.name (ch '=' :: d.sent ++ rest)
    (d.sent ++ data) (fun c hc => (d.name_plain c hc).1) d.name_eq (by omega) harg htmp htmpLen
  rw [hmem, hdata, ht, List.cons_append, loop_cons (byte_percent _ harg1) (Option.some_ne_none _)] at hname
  -- the rest of the value
  obtain ⟨s2, hrest, harg2, hcnt2, htmp2, htmpLen2⟩ := @loop_coded done d.marked
    (Memory.ofList (front ++ (d.text ++ rest))) data rfl t ((front.length : Int) + d.name.length + 1 + 1)
    ({ s1 with arg := tableWith done d.marked }.extend true ((front.length : Int) + d.name.length + 1))
    (fun c hc => hbytes c (ht ▸ List.mem_cons_of_mem _ hc)) rfl (Option.some_ne_none _)
  have hend : (front.length : Int) + d.name.length + 1 + 1 + t.length = front.length + d.text.length := by omega
  rw [hend] at hrest
  refine ⟨s2, ?_, ?_, hcnt2.trans hcnt1, ?_⟩
  · rw [hname]
    exact hrest
  · rw [harg2]
    exact Option.some_ne_none _
  have hslice : (Access.slice ((front.length : Int) + d.name.length + 1) s2.tmpLen).run
      (Memory.ofList (front ++ (d.text ++ rest))) = some d.sent := by
    have hs := slice_at (front ++ (d.name ++ [ch '='])) d.sent rest
    rw [hmem', haddr] at hs
    have hn : s2.tmpLen = d.sent.length := by
      rw [htmpLen2]
      show s1.tmpLen + 1 + t.length = _
      omega
    rw [hn]
    exact hs
  have hstart : s2.tmpData = some ((front.length : Int) + d.name.length + 1) := by
    rw [htmp2]
    show some (s1.tmpData.getD _) = _
    rw [htmp1]
    rfl
  apply appendTmp_some hstart hslice
  rw [harg2]
  show httpAppendArg d.sent (tableWith done _) = _
  rw [tableWith_decoded (value_append rfl rfl (by omega)) (by rw [ht]; exact List.cons_ne_nil _ _),
    item_decoded hk he hne hfree hsent]

/-- **What one argument leaves**, however its value is sent. -/
theorem loop_arg (front rest data : List Byte) (d : EncodedArg) (harg : s.arg = tableWith done {})
    (htmp : s.tmpData = none) (htmpLen : s.tmpLen = 0) : LeavesItem front rest data d done s := by
  have hsent := d.sent_value
  generalize hs : d.sent = sent at hsent
  cases hsent with
  | plain hplain hhead => exact loop_plain front rest data hplain hhead hs harg htmp htmpLen
  | encoded k hk he hne hfree => exact loop_encoded front rest data hk he hne hfree hs harg htmp htmpLen

end

/-! ## The arguments of a query -/

theorem queryOf_cons (d d' : EncodedArg) (ds : List EncodedArg) :
    queryOf d (d' :: ds) = d.text ++ ch '&' :: queryOf d' ds := rfl

/-- Behind the last argument. -/
theorem finish_arg (state : HttpState) (d : EncodedArg) (front rest : List Byte) {done : List HttpArg}
    {s : ArgScan} (harg : s.arg = tableWith done {}) (htmp : s.tmpData = none) (htmpLen : s.tmpLen = 0) :
    ∃ s', (parsePieces state (queryOf d []) front.length s).run
        (Memory.ofList (front ++ (queryOf d [] ++ rest))) = some s' ∧
      s'.arg.arg = done ++ itemsOf d [] ∧ s'.httpInt.urlArgCnt = s.httpInt.urlArgCnt + 1 := by
  obtain ⟨s1, hloop, hcur, hcnt, happend⟩ := loop_arg front rest [] d harg htmp htmpLen
  have hquery : queryOf d [] = d.text := List.append_nil _
  rw [List.append_nil] at hloop
  have hnul : httpAppendArg [0] (tableWith done d.item) =
      some (tableWith done { d.item with value := .text (d.value ++ [0]) }) := by
    rw [tableWith_decoded d.append_nul (List.cons_ne_nil _ _), d.last_decoded]
  rw [hquery, parsePieces, Access.run_bind, hloop, httpParseArgsLoop, Access.run_pure, Option.bind_some,
    if_neg hcur, httpParseArgsEnd, Access.run_bind, happend, Option.bind_some, if_pos rfl, Access.run_bind,
    appendNul_some hnul, Option.bind_some, Access.run_pure]
  refine ⟨_, rfl, ?_, congrArg (· + 1) hcnt⟩
  rw [ArgScan.onCur, tableWith_onCur]
  rfl

/-- **What a query leaves in the table**: the recorded items of its arguments. -/
theorem parsePieces_args (state : HttpState) (rest : List Byte) : ∀ (ds : List EncodedArg) (d : EncodedArg)
    (front : List Byte) (done : List HttpArg) (s : ArgScan), done.length + ds.length + 1 ≤ 32 →
    s.arg = tableWith done {} → s.tmpData = none → s.tmpLen = 0 →
    ∃ s', (parsePieces state (queryOf d ds) front.length s).run
        (Memory.ofList (front ++ (queryOf d ds ++ rest))) = some s' ∧
      s'.arg.arg = done ++ itemsOf d ds ∧ s'.httpInt.urlArgCnt = s.httpInt.urlArgCnt + (ds.length + 1 : Nat) := by
  intro ds
  -- on the arguments behind the first one, which the loop has still to read
  induction ds with
  | nil => exact fun d front done s _ harg htmp htmpLen => finish_arg state d front rest harg htmp htmpLen
  | cons d' ds ih =>
    intro d front done s hroom harg htmp htmpLen
    rw [List.length_cons] at hroom
    obtain ⟨s1, hloop, hcur, hcnt, happend⟩ := loop_arg front (ch '&' :: queryOf d' ds ++ rest)
      (ch '&' :: queryOf d' ds) d harg htmp htmpLen
    obtain ⟨s2, hbyte, harg2, htmp2, htmpLen2, hcnt2⟩ := @byte_amp _ ((front.length : Int) + d.text.length)
      _ _ _ _ happend rfl (by omega)
    have hcur2 : s2.arg.cur ≠ none := by
      rw [harg2]
      exact Option.some_ne_none _
    have hmem : front ++ (d.text ++ (ch '&' :: queryOf d' ds ++ rest)) =
        (front ++ (d.text ++ [ch '&'])) ++ (queryOf d' ds ++ rest) := by
      simp
    have haddr : (front.length : Int) + d.text.length + 1 = ((front ++ (d.text ++ [ch '&'])).length : Int) := by
      simp only [List.length_append, List.length_singleton]
      omega
    obtain ⟨s', hrun, hitems, hcount⟩ := ih d' (front ++ (d.text ++ [ch '&']))
      (done ++ [{ d.item with completeFlag := true }]) s2
      (by rw [List.length_append, List.length_singleton]; omega) harg2 htmp2 htmpLen2
    refine ⟨s', ?_, ?_, ?_⟩
    · rw [queryOf_cons, List.append_assoc, parsePieces, Access.run_bind, hloop, loop_cons hbyte hcur2, hmem, haddr,
        ← hrun, parsePieces, Access.run_bind]
    · rw [hitems, List.append_assoc]
      rfl
    · rw [hcount, hcnt2, hcnt, List.length_cons]
      omega

/-! ## A body -/

/-- The scan with other counters. -/
def ArgScan.withInt (i : HttpInt) (s : ArgScan) : ArgScan := { s with httpInt := i }

section
variable (i : HttpInt) (s : ArgScan)

theorem appendTmp_body : Access.Maps (ArgScan.withInt i) s.appendTmp (s.withInt i).appendTmp := by
  obtain ⟨tmpData, tmpLen, arg, httpInt⟩ := s
  cases tmpData with
  | none => exact Access.maps_pure _
  | some data =>
    apply Access.maps_then
    intro value
    apply Access.maps_then
    exact fun arg => Access.maps_pure _

theorem appendNul_body : Access.Maps (ArgScan.withInt i) s.appendNul (s.withInt i).appendNul := by
  apply Access.maps_then
  exact fun arg => Access.maps_pure _

/-- In a body a byte does what it does in a URL, and counts nothing. -/
theorem byte_body (begin : Int) (c : Byte) :
    Access.Maps (ArgScan.withInt i) (httpParseArgsByte true begin c s)
      (httpParseArgsByte false begin c (s.withInt i)) := by
  unfold httpParseArgsByte
  apply Access.Maps.ite
  · exact Access.maps_pure _
  apply Access.Maps.ite
  · exact Access.maps_pure _
  apply Access.Maps.ite
  · exact (appendTmp_body i s).bind fun s' => Access.maps_pure _
  apply Access.Maps.ite
  · apply Access.Maps.ite
    · apply (appendTmp_body i s).bind
      intro s'
      exact (appendNul_body i { s' with tmpData := none, tmpLen := 0 }).bind fun s'' => Access.maps_pure _
    · exact Access.maps_pure _
  · exact Access.maps_pure _

theorem loop_body (data : List Byte) : ∀ (begin : Int) (s : ArgScan),
    Access.Maps (ArgScan.withInt i) (httpParseArgsLoop true data begin s)
      (httpParseArgsLoop false data begin (s.withInt i)) := by
  induction data with
  | nil => exact fun _ s => Access.maps_pure s
  | cons c data ih =>
    intro begin s
    apply (byte_body i s begin c).bind
    intro s'
    exact Access.Maps.ite (Access.maps_pure s') (ih _ s')

/-- Behind a whole body the last argument is finished as behind a query. -/
theorem end_body : Access.Maps (ArgScan.withInt i) (httpParseArgsEnd true .none s)
    (httpParseArgsEnd false .none (s.withInt i)) := by
  apply (appendTmp_body i s).bind
  intro s'
  rw [if_pos rfl, if_neg (by decide), if_pos rfl]
  exact (appendNul_body i s').bind fun s'' => Access.maps_pure _

/-- What a body leaves in the table. -/
theorem pieces_body (data : List Byte) (begin : Int) :
    Access.Maps (ArgScan.withInt i) (parsePieces .none data begin s)
      (httpParseArgsLoop false data begin (s.withInt i) >>= fun s =>
        if s.arg.cur = none then pure s else httpParseArgsEnd false .none s) := by
  apply (loop_body i data begin s).bind
  intro s'
  exact Access.Maps.ite (Access.maps_pure s') (end_body i s')

end

/-! ## `_http_parse_args` -/

/-- What arguments leave in the table. -/
def recordsOf : List EncodedArg → List HttpArg
  | [] => []
  | d :: ds => itemsOf d ds

/-- The text of arguments; `none` when there are none. -/
def textOf : List EncodedArg → Option (List Byte)
  | [] => none
  | d :: ds => some (queryOf d ds)

theorem itemsOf_length : ∀ (ds : List EncodedArg) (d : EncodedArg), (itemsOf d ds).length = ds.length + 1 := by
  intro ds
  induction ds with
  | nil => exact fun _ => rfl
  | cons d' ds ih => exact fun d => congrArg (· + 1) (ih d')

theorem recordsOf_length (ds : List EncodedArg) : (recordsOf ds).length = ds.length := by
  cases ds with
  | nil => rfl
  | cons d ds => exact itemsOf_length ds d

/-- **The arguments go behind what is in the table**, those of a query and those of a body that is whole. -/
theorem httpParseArgs_args {info : Http} {done : List HttpArg} (harg : info.arg = { maxNum := 32, arg := done })
    {inUrl : Bool} (hwhole : inUrl = true ∨ info.logic.state = .none) (d : EncodedArg) (ds : List EncodedArg)
    (hfew : done.length + ds.length + 1 ≤ 32) (rest : List Byte) :
    ∃ r, (httpParseArgs info (queryOf d ds).length inUrl).run (Memory.ofList (queryOf d ds ++ rest)) = some r ∧
      r.arg.maxNum = 32 ∧ r.arg.arg = done ++ itemsOf d ds := by
  have hslots : ∀ {r : Http}, (httpParseArgs info (queryOf d ds).length inUrl).run
      (Memory.ofList (queryOf d ds ++ rest)) = some r → r.arg.maxNum = 32 := by
    intro r hr
    have htook := httpParseArgs_slots (by rw [harg]) (by rw [harg]; show done.length ≤ 32; omega)
      (by rw [Int.toNat_natCast]; exact slice_at [] _ _) hr
    rw [htook.maxNum, harg]
  suffices hexists : ∃ r, (httpParseArgs info (queryOf d ds).length inUrl).run
      (Memory.ofList (queryOf d ds ++ rest)) = some r ∧ r.arg.arg = done ++ itemsOf d ds by
    obtain ⟨r, hr, hitems⟩ := hexists
    exact ⟨r, hr, hslots hr, hitems⟩
  obtain ⟨s, hrun, hitems, -⟩ := parsePieces_args (if inUrl then info.logic.state else .none) rest ds d [] done
    { arg := tableWith done {}, httpInt := info.httpInt } hfew rfl rfl rfl
  simp only [List.nil_append, List.length_nil, Int.natCast_zero] at hrun
  have hempty : (if info.arg.cur = none then httpGetEmptyArg info.arg else info.arg) = tableWith done {} := by
    rw [harg, if_pos rfl]
    exact emptyArg_room rfl (show done.length < 32 by omega)
  rw [httpParseArgs_scan hempty (Option.some_ne_none _), scanArgs]
  cases inUrl with
  | true =>
    rw [if_pos rfl] at hrun
    exact ⟨{ info with arg := s.arg, httpInt := s.httpInt }, congrArg (Option.map _) hrun, hitems⟩
  | false =>
    have hstate : info.logic.state = .none := hwhole.resolve_left (by decide)
    rw [if_neg (by decide)] at hrun
    have hbody := pieces_body info.httpInt { arg := tableWith done {}, httpInt := info.httpInt } (queryOf d ds) 0
      (Memory.ofList (queryOf d ds ++ rest))
    rw [hrun] at hbody
    rw [hstate]
    exact ⟨{ info with arg := s.arg, httpInt := info.httpInt }, congrArg (Option.map _) hbody, hitems⟩

/-! ## A request -/

namespace MethodLine
variable (l : MethodLine)

theorem text_ne : l.text ≠ [] := List.append_ne_nil_of_left_ne_nil l.method_ne _

/-- Nothing in it ends the line. -/
theorem text_plain : ∀ c ∈ l.text, c ≠ ch '\r' ∧ c ≠ ch '\n' := by
  have hspace : ∀ c, isspace c = false → c ≠ ch '\r' ∧ c ≠ ch '\n' := by
    intro c hc
    refine ⟨fun heq => ?_, fun heq => ?_⟩ <;> (rw [heq] at hc; cases hc)
  have hdigit : ∀ c, isdigit c = true → isspace c = false := fun c hc => (isxdigit_plain (isdigit_isxdigit c hc)).1
  have hname : ∀ c ∈ str "HTTP/", isspace c = false := forall_text (by decide)
  intro c hc
  rcases List.mem_append.mp hc with hc | hc
  · have hs := l.method_token c hc
    rw [stripped, Bool.or_eq_false_iff] at hs
    exact hspace c hs.1
  rcases List.mem_cons.mp hc with rfl | hc
  · exact ⟨by decide, by decide⟩
  rcases List.mem_append.mp hc with hc | hc
  · exact hspace c (l.target_plain c hc).1
  rcases List.mem_cons.mp hc with rfl | hc
  · exact ⟨by decide, by decide⟩
  apply hspace
  rcases List.mem_append.mp hc with hc | hc
  · exact hname c hc
  simp only [List.mem_cons, List.not_mem_nil, or_false] at hc
  rcases hc with rfl | rfl | rfl
  · exact hdigit _ l.digits.1
  · decide
  · exact hdigit _ l.digits.2

/-- The memory behind the `?`. -/
theorem query_memory {q : List Byte} (hquery : l.query = some q) (post : List Byte) :
    (Memory.ofList (l.text ++ post)).above (((l.front.length + l.path.length : Nat) : Int) + 1) =
      Memory.ofList (q ++ l.back post) := by
  have htarget : l.target = l.path ++ ch '?' :: q := by
    rcases l.target_split with ⟨hnone, -, -⟩ | ⟨q', hq', htarget, -⟩
    · rw [hnone] at hquery
      cases hquery
    · rw [hq'] at hquery
      cases hquery
      exact htarget
  have htext : l.text ++ post = (l.front ++ l.path ++ [ch '?']) ++ (q ++ l.back post) := by
    rw [l.text_target, htarget]
    simp
  have hat : ((l.front.length + l.path.length : Nat) : Int) + 1 =
      ((l.front ++ l.path ++ [ch '?']).length : Nat) := by
    simp only [List.length_append, List.length_singleton]
    rfl
  rw [htext, hat]
  exact Memory.above_ofList _ _

end MethodLine

/-- A request with at most 32 arguments in its query and its body together; the target neither starts
nor ends with a colon. -/
structure EncodedRequest where
  line : MethodLine
  query : List EncodedArg
  headers : List Byte
  body : List EncodedArg
  line_query : line.query = textOf query
  few : query.length + body.length ≤ 32
  front : line.target.head? ≠ some (ch ':')
  back : line.target.getLast? ≠ some (ch ':')
  isHead : IsHead (line.text ++ ch '\r' :: ch '\n' :: headers)

namespace EncodedRequest
variable (q : EncodedRequest)

def head : List Byte := q.line.text ++ ch '\r' :: ch '\n' :: q.headers

def bodyText : List Byte := (textOf q.body).getD []

def packet : List Byte := q.head ++ q.bodyText

/-- The arguments, those of the query first. -/
def args : List EncodedArg := q.query ++ q.body

/-- What they leave in the table. -/
def items : List HttpArg := recordsOf q.query ++ recordsOf q.body

/-- The request line fills the table. -/
theorem parseMethod_args {info r : Http} {post : List Byte} (harg : info.arg = { maxNum := 32 })
    (h : (parseMethod 0 q.line.text.length info).run (Memory.ofList (q.line.text ++ post)) = some r) :
    r.arg = { maxNum := 32, arg := recordsOf q.query } := by
  have hstrip := q.line.target_strip.mpr ⟨q.front, q.back⟩
  rw [parseMethod_run, parseMethodUrl_method, httpMyparseMethodUrl_whole hstrip, Option.bind_some] at h
  cases hargs : q.query with
  | nil =>
    have hquery : q.line.query = none := by
      rw [q.line_query, hargs]
      rfl
    rw [hquery] at h
    cases h
    exact harg
  | cons d ds =>
    have hquery : q.line.query = some (queryOf d ds) := by
      rw [q.line_query, hargs]
      rfl
    have hfew := q.few
    rw [hargs, List.length_cons] at hfew
    rw [hquery] at h
    obtain ⟨r', hrun', h⟩ := Option.bind_eq_some_iff.mp h
    cases h
    rw [Access.run_atPtr, q.line.query_memory hquery] at hrun'
    obtain ⟨t, hrun, hmax, hitems⟩ := @httpParseArgs_args
      (({ info with logic := { info.logic with method := storedMethod q.line.method } } : Http).withStr fun s =>
        { s with
          rawUrl := s.rawUrl.store {} q.line.target
          urlAndArg := s.urlAndArg.store info.tmpFlag q.line.target
          url := s.url.store info.tmpFlag q.line.path }) [] harg true (Or.inl rfl) d ds
      (by rw [List.length_nil]; omega) (q.line.back post)
    obtain rfl := Option.some.inj (hrun.symm.trans hrun')
    show HttpArgCtrl.mk none t.arg.maxNum t.arg.arg = _
    rw [hmax, hitems]
    rfl

/-- The lines behind it leave the table alone. -/
theorem httpParseHead_args {info r : Http}
    (h : (httpParseHead q.head.length info).run (Memory.ofList q.packet) = some r) :
    r.arg = { maxNum := 32, arg := recordsOf q.query } := by
  obtain ⟨data, hdata, h⟩ := Option.bind_eq_some_iff.mp h
  have hslice : (Access.slice 0 q.head.length).run (Memory.ofList q.packet) = some q.head := slice_at [] _ _
  obtain rfl := Option.some.inj (hdata.symm.trans hslice)
  obtain ⟨r', hloop, h⟩ := Option.bind_eq_some_iff.mp h
  cases h
  show r'.arg = _
  have hmem : q.packet = q.line.text ++ (ch '\r' :: ch '\n' :: q.headers ++ q.bodyText) := by
    rw [packet, head, List.append_assoc]
  rw [head, httpParseHeadLoop_first q.line.text_ne q.line.text_plain] at hloop
  obtain ⟨r1, hline, hrest⟩ := Option.bind_eq_some_iff.mp hloop
  rw [httpParseHeadLoop_headers q.headers (Nat.succ_ne_zero 0) _ _ hrest]
  rw [httpParseHeadLine, Access.run_bind, lineCall, Access.run_ofOption, Option.bind_some, Int.zero_add] at hline
  obtain ⟨r2, hmethod, hline⟩ := Option.bind_eq_some_iff.mp hline
  cases hline
  unfold httpParseLine at hmethod
  rw [if_pos rfl, hmem, Int.sub_zero] at hmethod
  show r2.arg = _
  exact q.parseMethod_args (by rfl) hmethod

end EncodedRequest

/-- The request in one packet, to a parser that is looking for a head. A body goes to the argument
parser, which takes it for whole. -/
structure EncodedPacket (q : EncodedRequest) (before after : Http) (ret : Int) : Prop where
  fresh : before.loc.state = 0
  run : parsePacket before q.packet = some (ret, after)
  argBody : q.body ≠ [] → ArgBody after
  whole : q.body ≠ [] → after.logic.state = .none

/-- **The table after a packet**: the arguments of the query, then those of the body. -/
theorem parsePacket_args {q : EncodedRequest} {before after : Http} {ret : Int}
    (h : EncodedPacket q before after ret) : after.arg.arg = q.items := by
  have hrun := h.run
  rw [EncodedRequest.packet, EncodedRequest.head, parsePacket_head q.isHead h.fresh] at hrun
  obtain ⟨r, hhead, hrun⟩ := Option.bind_eq_some_iff.mp hrun
  obtain ⟨r', hbody, hrun⟩ := Option.map_eq_some_iff.mp hrun
  obtain rfl : r' = after := (Prod.mk.inj hrun).2
  have harg := q.httpParseHead_args hhead
  show r'.arg.arg = recordsOf q.query ++ recordsOf q.body
  cases hargs : q.body with
  | nil =>
    rw [EncodedRequest.bodyText, hargs] at hbody
    cases hbody
    rw [harg]
    exact (List.append_nil _).symm
  | cons d ds =>
    have hcons : q.body ≠ [] := by
      rw [hargs]
      exact List.cons_ne_nil d ds
    have htext : q.bodyText = queryOf d ds := by
      rw [EncodedRequest.bodyText, hargs]
      rfl
    have hne : queryOf d ds ≠ [] := by
      apply List.append_ne_nil_of_left_ne_nil
      exact List.append_ne_nil_of_right_ne_nil _ (List.cons_ne_nil _ _)
    have hfew := q.few
    rw [hargs, List.length_cons] at hfew
    rw [htext] at hbody
    have hlogic := (parseBody_frame hne hbody).logic
    have htype : ArgBody r := by
      have hafter := h.argBody hcons
      unfold ArgBody at hafter ⊢
      rw [hlogic, (httpBodyCount_arg _ _).2] at hafter
      exact hafter
    have hwhole := h.whole hcons
    rw [hlogic] at hwhole
    have hcount := (httpBodyCount_arg (queryOf d ds) r).1.trans harg
    rw [parseBody_args hne htype] at hbody
    obtain ⟨t, hrun', -, hitems⟩ := httpParseArgs_args hcount (Or.inr hwhole) d ds
      (by rw [recordsOf_length]; omega) []
    rw [List.append_nil] at hrun'
    obtain rfl := Option.some.inj (hrun'.symm.trans hbody)
    exact hitems

/-! ## What is recorded -/

theorem item_shown (d : EncodedArg) : d.item.shown = (d.name, d.value) ∧ d.lastItem.shown = (d.name, d.value) := by
  have hname : shownText (.text (d.name ++ [0])) = d.name := by
    rw [shownText_text_nul]
    exact shownText_text fun hmem => (d.name_plain 0 hmem).2.2 rfl
  have hvalue : shownText (if d.value = [] then {} else .text d.value) = d.value := by
    split
    · next hnil =>
      rw [hnil]
      rfl
    · exact shownText_text d.value_plain
  have hlast : shownText (.text (d.value ++ [0])) = d.value := by
    rw [shownText_text_nul]
    exact shownText_text d.value_plain
  exact ⟨Prod.ext hname hvalue, Prod.ext hname hlast⟩

theorem itemsOf_shown : ∀ (ds : List EncodedArg) (d : EncodedArg),
    (itemsOf d ds).map HttpArg.shown = (d :: ds).map fun d => (d.name, d.value) := by
  intro ds
  induction ds with
  | nil => exact fun d => congrArg (fun x => [x]) (item_shown d).2
  | cons d' ds ih =>
    intro d
    rw [itemsOf, List.map_cons, ih d', List.map_cons]
    exact congrArg (fun x => x :: _) (item_shown d).1

theorem recordsOf_shown (ds : List EncodedArg) :
    (recordsOf ds).map HttpArg.shown = ds.map fun d => (d.name, d.value) := by
  cases ds with
  | nil => rfl
  | cons d ds => exact itemsOf_shown ds d

/-- **The arguments are recorded by their names and values**, those of the query and those of the
body, however each value was sent: as it is, or percent-encoded up to sixteen times over. -/
theorem encoded_args_recorded {q : EncodedRequest} {before after : Http} {ret : Int}
    (h : EncodedPacket q before after ret) :
    after.arg.arg.map HttpArg.shown = q.args.map fun d => (d.name, d.value) := by
  rw [parsePacket_args h, EncodedRequest.items, List.map_append, recordsOf_shown, recordsOf_shown,
    EncodedRequest.args, List.map_append]

/-- `a` with the value `A`, encoded twice. -/
def twiceArg : EncodedArg where
  name := str "a"
  value := str "A"
  sent := str "%2541"
  name_plain := forall_text (by decide)
  value_plain := by decide
  sent_value := show Sent [ch 'A'] (nested 1 [ch '%', ch '4', ch '1']) from
    .encoded 1 (by decide) (.cons _ _ _ (by decide) (by decide) (by decide) .nil) (by decide)
      (forall_text (by decide))
  short := by decide

/-- `b` with the value `1`. -/
def plainArg : EncodedArg where
  name := str "b"
  value := str "1"
  sent := str "1"
  name_plain := forall_text (by decide)
  value_plain := by decide
  sent_value := .plain (forall_text (by decide)) (by decide)
  short := by decide

theorem twice_method : ∀ c ∈ str "POST", stripped c = false := forall_text (by decide)

theorem twice_method_ne : str "POST" ≠ [] := List.cons_ne_nil _ _

theorem twice_target : ∀ c ∈ str "/?a=%2541&b=1", isspace c = false ∧ c ≠ 0 := forall_text (by decide)

theorem twice_target_ne : str "/?a=%2541&b=1" ≠ [] := List.cons_ne_nil _ _

theorem twice_digits : isdigit (ch '1') = true ∧ isdigit (ch '1') = true := ⟨rfl, rfl⟩

/-- `POST /?a=%2541&b=1 HTTP/1.1`. -/
def twiceLine : MethodLine where
  method := str "POST"
  target := str "/?a=%2541&b=1"
  major := ch '1'
  minor := ch '1'
  method_ne := twice_method_ne
  method_token := twice_method
  target_ne := twice_target_ne
  target_plain := twice_target
  digits := twice_digits

/-- The body `a=%2541`. -/
def twiceHeaders : List Byte := str "Content-Length: 7\r\n\r\n"

theorem twice_query : twiceLine.query = textOf [twiceArg, plainArg] := by decide

theorem twice_ends : twiceLine.target.head? ≠ some (ch ':') ∧ twiceLine.target.getLast? ≠ some (ch ':') := by decide

theorem twice_isHead : IsHead (twiceLine.text ++ ch '\r' :: ch '\n' :: twiceHeaders) := by decide +kernel

def twiceRequest : EncodedRequest where
  line := twiceLine
  query := [twiceArg, plainArg]
  headers := twiceHeaders
  body := [twiceArg]
  line_query := twice_query
  few := Nat.le_of_sub_eq_zero rfl
  front := twice_ends.1
  back := twice_ends.2
  isHead := twice_isHead

/-- It is recorded from a clean start. -/
theorem twice_packet : ∃ after, EncodedPacket twiceRequest Http.zero after 0 := by
  have hrun : (parsePacket Http.zero twiceRequest.packet).map
      (fun r => (r.1, r.2.logic.contentType, r.2.logic.state)) = some (0, .na, .none) := by decide +kernel
  obtain ⟨r, hr, hlogic⟩ := Option.map_eq_some_iff.mp hrun
  obtain ⟨hret, htype, hstate⟩ : r.1 = 0 ∧ r.2.logic.contentType = .na ∧ r.2.logic.state = .none := by
    simpa only [Prod.mk.injEq] using hlogic
  refine ⟨r.2, rfl, ?_, fun _ => ?_, fun _ => hstate⟩
  · rw [hr, ← hret]
  · rw [ArgBody, htype]
    decide

theorem encoded_args_recorded_twice : ∃ after, parsePacket Http.zero twiceRequest.packet = some (0, after) ∧
    after.arg.arg.map HttpArg.shown = [(str "a", str "A"), (str "b", str "1"), (str "a", str "A")] := by
  obtain ⟨after, h⟩ := twice_packet
  exact ⟨after, h.run, encoded_args_recorded h⟩

end WafProxy
