import WafProxy.Http.Arg
import WafProxy.Http.DecodeLength
import WafProxy.Lib.Buffer

/-
  What is stored of a decoded text — http_basic.c, http_arg.c

  `http_set_str` allocates for the decoded text and copies that, but writes the
  NUL at the length of the undecoded one. `http_decode_arg` writes the decoded
  text over the stored one only if it is shorter.

  What is proved:
    1. `setStr_refines` — the bytes of `http_set_str` are those of `XStr.ofText`.
    2. `httpSetStr_wellFormed` — they are the decoded text with a NUL behind it,
       all inside the allocation, exactly when nothing in the data is encoded.
    3. `httpAppendArg_decoded` — a name or value is stored as the decoder gives
       it exactly when it holds no `+` or something in it is encoded.

  Correspondence (C ↔ Lean):
    `http_malloc(info, mylen + 1)`     ↔ a `Buffer` of that size
    `http_set_str`                     ↔ `setStr`
    `str->p`, `str->len`               ↔ `SetStr.p`, `SetStr.len`
-/

namespace WafProxy
open Lib

/-! ## `http_set_str` -/

/-- The `x_str_t` that `http_set_str` leaves. -/
structure SetStr where
  p : Buffer Byte
  len : Nat

/-- `http_set_str` on `data[0..len)`; `heap` is what the allocated memory held. -/
def setStr (heap : Nat → Byte) (tmpFlag : DecodeFlag) (data : List Byte) : SetStr :=
  let buf := if tmpFlag.needDecode then httpDecodeString DECODE_BUF data tmpFlag else []
  let mydata := if buf ≠ [] then buf else data
  let p : Buffer Byte := { size := mydata.length + 1, cell := heap }
  { p := (p.copy 0 mydata).copy data.length [0], len := mydata.length }

/-- The text `http_set_str` is to store. -/
def decodedText (tmpFlag : DecodeFlag) (data : List Byte) : List Byte :=
  if tmpFlag.needDecode then httpDecodeString DECODE_BUF data tmpFlag else data

/-- `p[0..m)` is the text, `p[m]` is NUL, and no write left the `m + 1` bytes. -/
structure SetStr.WellFormed (x : SetStr) (text : List Byte) : Prop where
  len : x.len = text.length
  size : x.p.size = text.length + 1
  bytes : x.p.read 0 text.length = text
  terminated : x.p.cell text.length = 0
  kept : x.p.Kept

theorem shrinks_of_not_needDecode {flag : DecodeFlag} (h : flag.needDecode = false) (text : List Byte) :
    shrinks flag text = false := by
  have hflags : flag.url = false ∧ flag.html = false ∧ flag.escape = false := by
    simpa [DecodeFlag.needDecode, and_assoc] using h
  obtain ⟨hurl, hhtml, hescape⟩ := hflags
  simp [shrinks, encoded, hurl, hhtml, hescape]

section
variable {data : List Byte}

/-- The decoded text is never longer, never empty, and shorter when something is encoded. -/
theorem decodedText_length (flag : DecodeFlag) (hpos : data ≠ []) (h : data.length < DECODE_BUF) :
    decodedText flag data ≠ [] ∧ (decodedText flag data).length ≤ data.length ∧
    ((decodedText flag data).length < data.length ↔ shrinks flag data = true) := by
  unfold decodedText
  cases hneed : flag.needDecode with
  | false =>
    rw [shrinks_of_not_needDecode hneed]
    simp [hpos]
  | true =>
    have hdec := httpDecodeString_shortens flag h
    have hne : plain flag data ≠ [] := by
      rw [ne_eq, ← List.length_eq_zero_iff, plain_length, List.length_eq_zero_iff]
      exact hpos
    have hle := hdec.length_le
    have hlt := hdec.length_lt_iff
    rw [plain_length] at hle hlt
    exact ⟨hdec.ne_nil hne, hle, hlt⟩

/-- A text that fits the decoder is stored decoded. -/
theorem ofText_decoded {flag : DecodeFlag} (hne : data ≠ []) (hlen : data.length < DECODE_BUF) :
    (XStr.ofText flag data).p = some (decodedText flag data) := by
  obtain ⟨hdecoded, hle, -⟩ := decodedText_length flag hne hlen
  cases hneed : flag.needDecode with
  | false => simp [XStr.ofText, decodedText, hneed, List.set_eq_of_length_le]
  | true =>
    have hbuf : decodedText flag data = httpDecodeString DECODE_BUF data flag := by simp [decodedText, hneed]
    rw [hbuf] at hdecoded hle ⊢
    unfold XStr.ofText
    dsimp only
    rw [hneed, if_pos rfl, if_pos hdecoded, List.set_eq_of_length_le hle]

/-- What is copied is the decoded text. -/
theorem setStr_eq (heap : Nat → Byte) (flag : DecodeFlag) (hpos : data ≠ []) (h : data.length < DECODE_BUF) :
    setStr heap flag data =
      { p := (({ size := (decodedText flag data).length + 1, cell := heap } : Buffer Byte).copy 0
          (decodedText flag data)).copy data.length [0]
        len := (decodedText flag data).length } := by
  obtain ⟨hne, _⟩ := decodedText_length flag hpos h
  unfold setStr
  unfold decodedText at hne ⊢
  cases hneed : flag.needDecode with
  | false => simp
  | true =>
    rw [hneed, if_pos rfl] at hne
    simp only [if_true, if_pos hne]

/-- The bytes are those of `XStr.ofText`, the NUL stands where it says. -/
theorem setStr_refines (heap : Nat → Byte) (flag : DecodeFlag) :
    (setStr heap flag data).len = (XStr.ofText flag data).len ∧
    (XStr.ofText flag data).p = some ((setStr heap flag data).p.read 0 (setStr heap flag data).len) ∧
    (setStr heap flag data).p.cell (XStr.ofText flag data).nul = 0 := by
  unfold setStr XStr.ofText XStr.len
  simp only
  generalize (if (if flag.needDecode then httpDecodeString DECODE_BUF data flag else []) ≠ [] then
    if flag.needDecode then httpDecodeString DECODE_BUF data flag else [] else data) = mydata
  generalize ({ size := mydata.length + 1, cell := heap } : Buffer Byte) = block
  have hread : ((block.copy 0 mydata).copy data.length [0]).read 0 (mydata.set data.length 0).length =
      mydata.set data.length 0 := by
    apply Buffer.read_eq
    intro k hk
    rw [List.length_set] at hk
    rw [Nat.zero_add, List.getElem?_set]
    by_cases heq : data.length = k
    · subst heq
      rw [if_pos rfl, if_pos hk, Buffer.copy_singleton_cell]
    · rw [if_neg heq, Buffer.copy_cell_zero block hk]
      rcases Nat.lt_or_gt_of_ne heq with hlt | hgt
      · have hpast : data.length + [(0 : Byte)].length ≤ k := hlt
        rw [Buffer.copy_cell_after _ hpast]
      · rw [Buffer.copy_cell_before _ _ hgt]
  rw [List.length_set] at hread
  exact ⟨by simp, congrArg some hread.symm, Buffer.copy_singleton_cell _ _ _⟩

/-- **`http_set_str` stores a well-formed string exactly when nothing in the data is encoded.** -/
theorem httpSetStr_wellFormed (heap : Nat → Byte) (flag : DecodeFlag) {data : List Byte}
    (hpos : 1 ≤ data.length) (hmax : data.length ≤ 8191) :
    (setStr heap flag data).WellFormed (decodedText flag data) ↔ shrinks flag data = false := by
  have hne : data ≠ [] := List.length_pos_iff.mp hpos
  have hbuf : data.length < DECODE_BUF := Nat.lt_succ_of_le hmax
  obtain ⟨hdne, hle, hlt⟩ := decodedText_length flag hne hbuf
  rw [setStr_eq heap flag hne hbuf]
  constructor
  · intro hwf
    -- the NUL is the last write: inside the allocation only at the decoded length
    have hkept := (Buffer.kept_copy_iff (List.cons_ne_nil _ _)).mp hwf.kept
    have hroom : data.length + 1 ≤ (decodedText flag data).length + 1 := hkept.2
    cases hshr : shrinks flag data with
    | false => rfl
    | true =>
      have hshort := hlt.mpr hshr
      omega
  · intro hshr
    have hlen : (decodedText flag data).length = data.length := by
      have hnot : ¬ (decodedText flag data).length < data.length := by
        rw [hlt, hshr]
        exact Bool.false_ne_true
      omega
    refine ⟨rfl, rfl, ?_, ?_, ?_⟩
    · show (Buffer.copy _ data.length [0]).read 0 _ = _
      rw [Buffer.read_copy_before _ _ (by rw [hlen]; exact Nat.le_of_eq (Nat.zero_add _))]
      exact Buffer.read_copy _ 0 _
    · rw [hlen]
      exact Buffer.copy_singleton_cell _ _ _
    · apply Buffer.Kept.copy
      · apply Buffer.Kept.copy
        · exact Nat.zero_le _
        · show 0 + (decodedText flag data).length ≤ (decodedText flag data).length + 1
          omega
      · show data.length + 1 ≤ (decodedText flag data).length + 1
        omega

end

theorem httpSetStr_wellFormed_plain :
    (1 ≤ (str "a+b").length ∧ (str "a+b").length ≤ 8191) ∧
    (setStr (fun _ => 7) { url := true } (str "a+b")).WellFormed (str "a b") := by
  have htext : decodedText { url := true } (str "a+b") = str "a b" := by decide +kernel
  refine ⟨by decide, ?_⟩
  rw [← htext]
  exact (@httpSetStr_wellFormed (fun _ => 7) { url := true } (str "a+b") (by decide) (by decide)).mpr
    (by decide +kernel)

/-- `%41` is stored in 2 bytes, and the NUL written is the fourth. -/
theorem setStr_writes_outside :
    ¬ ∀ (heap : Nat → Byte) (flag : DecodeFlag) (data : List Byte), 1 ≤ data.length → data.length ≤ 8191 →
      (setStr heap flag data).WellFormed (decodedText flag data) := by
  intro hall
  have hkept := (hall (fun _ => 7) { url := true } (str "%41") (by decide) (by decide)).kept
  revert hkept
  decide +kernel

/-! ## Arguments -/

theorem item_onCur {a : HttpArgCtrl} {item : HttpArg} (h : a.item = some item) (f : HttpArg → HttpArg) :
    (a.onCur f).item = some (f item) := by
  obtain ⟨i, hcur, hitem⟩ := Option.bind_eq_some_iff.mp h
  have hon : a.onCur f = { a with arg := a.arg.modify i f } := by
    rw [HttpArgCtrl.onCur, hcur]
  rw [hon, HttpArgCtrl.item, hcur]
  show (a.arg.modify i f)[i]? = some (f item)
  simp [hitem]

/-- The string `http_append_arg` appends to. -/
def HttpArg.target (item : HttpArg) : XStr := if item.argFlag then item.value else item.name

theorem target_decode (item : HttpArg) : item.decode.target =
    if item.decodeFlag.needDecode then item.target.decode item.decodeFlag else item.target := by
  unfold HttpArg.decode HttpArg.target
  cases item.decodeFlag.needDecode with
  | true => cases item.argFlag <;> simp
  | false => simp

/-- What is stored first is stored whole. -/
theorem append_fresh {item : HttpArg} (hfresh : item.target.p = none) {raw : List Byte}
    (hlen : raw.length ≤ APPEND_MAX) :
    ∃ item', item.append raw = some item' ∧ item'.target = { p := some raw, nul := raw.length } ∧
      item'.decodeFlag = item.decodeFlag ∧ item'.argFlag = item.argFlag := by
  unfold HttpArg.target at *
  cases hflag : item.argFlag with
  | true =>
    rw [hflag, if_pos rfl] at hfresh
    refine ⟨{ item with value := { p := some raw, nul := raw.length } }, ?_, ?_, rfl, hflag⟩
    · simp [HttpArg.append, hflag, XStr.append, hfresh, Nat.not_lt.mpr hlen]
    · simp [hflag]
  | false =>
    rw [hflag, if_neg Bool.false_ne_true] at hfresh
    refine ⟨{ item with name := { p := some raw, nul := raw.length } }, ?_, ?_, rfl, hflag⟩
    · simp [HttpArg.append, hflag, XStr.append, hfresh, Nat.not_lt.mpr hlen]
    · simp [hflag]

/-- A stored text after `http_decode_arg`: the decoded one only if it is shorter. -/
theorem decode_stored (flag : DecodeFlag) {raw : List Byte} (h : raw.length < DECODE_BUF) :
    (XStr.decode flag { p := some raw, nul := raw.length }).p =
      some (if shrinks flag raw then httpDecodeString DECODE_BUF raw flag else raw) := by
  have hdec := httpDecodeString_shortens flag h
  have hlt := hdec.length_lt_iff
  rw [plain_length] at hlt
  unfold XStr.decode XStr.len
  simp only [Option.getD_some]
  cases hshr : shrinks flag raw with
  | true =>
    have hne := List.length_pos_iff.mpr (hdec.shorter hshr).2
    rw [if_pos ⟨hne, hlt.mpr hshr⟩]
    simp
  | false =>
    rw [if_neg fun hif => by
      rw [hshr] at hlt
      exact Bool.false_ne_true (hlt.mp hif.2)]
    simp

/-- The flags that `_http_parse_args` sets for the bytes it comes across. -/
structure FlagsFor (raw : List Byte) (flag : DecodeFlag) : Prop where
  url : ch '%' ∈ raw ∨ ch '+' ∈ raw → flag.url = true
  escape : ch '\\' ∈ raw → flag.escape = true

/-- The recorded text is the decoder's; with nothing encoded in it, it is the raw text with
a space for every `+`. -/
structure FullyDecoded (flag : DecodeFlag) (raw : List Byte) (x : XStr) : Prop where
  decoded : x.p = some (httpDecodeString DECODE_BUF raw flag)
  plus : shrinks flag raw = false → x.p = some (unplus raw)

theorem plain_eq_unplus {flag : DecodeFlag} {raw : List Byte} (hlen : 3 ≤ raw.length)
    (hflag : FlagsFor raw flag) : plain flag raw = unplus raw := by
  unfold plain
  split
  · rfl
  next hno =>
    have hplus : ch '+' ∉ raw := fun hmem => hno ⟨hflag.url (Or.inr hmem), hlen⟩
    exact (unplus_eq_self.mpr hplus).symm

/-- **An argument is stored fully decoded exactly when it holds no `+` or something in it is
encoded.** -/
theorem httpAppendArg_decoded {a : HttpArgCtrl} {item : HttpArg} {raw : List Byte}
    (hitem : a.item = some item) (hfresh : item.target.p = none) (hmin : 3 ≤ raw.length)
    (hmax : raw.length ≤ 4000) (hspecial : ch '%' ∈ raw ∨ ch '+' ∈ raw ∨ ch '\\' ∈ raw)
    (hflag : FlagsFor raw item.decodeFlag) :
    ∃ a' item', httpAppendArg raw a = some a' ∧ a'.item = some item' ∧
      (FullyDecoded item.decodeFlag raw item'.target ↔
        (ch '+' ∉ raw ∨ shrinks item.decodeFlag raw = true)) := by
  have hbuf : DECODE_BUF = 8192 ∧ APPEND_MAX = 4096 := ⟨rfl, rfl⟩
  have hne : raw ≠ [] := List.length_pos_iff.mp (by omega)
  have hbound : raw.length < DECODE_BUF := by omega
  have hroom : raw.length ≤ APPEND_MAX := by omega
  have hneed : item.decodeFlag.needDecode = true := by
    unfold DecodeFlag.needDecode
    rcases hspecial with h | h | h
    · simp [hflag.url (Or.inl h)]
    · simp [hflag.url (Or.inr h)]
    · simp [hflag.escape h]
  obtain ⟨item1, happend, htarget, hdflag, _⟩ := append_fresh hfresh hroom
  have hrun : httpAppendArg raw a = some (a.onCur fun _ => item1.decode) := by
    rw [httpAppendArg, if_neg hne, hitem]
    simp [happend]
  refine ⟨_, item1.decode, hrun, item_onCur hitem _, ?_⟩
  have hstored := decode_stored item.decodeFlag hbound
  rw [← htarget] at hstored
  rw [target_decode, hdflag, if_pos hneed]
  have hdec := httpDecodeString_shortens item.decodeFlag hbound
  have hplain := plain_eq_unplus hmin hflag
  cases hshr : shrinks item.decodeFlag raw with
  | true =>
    rw [hshr, if_pos rfl] at hstored
    simp only [or_true, iff_true]
    exact ⟨hstored, fun hno => by rw [hshr] at hno; cases hno⟩
  | false =>
    have hout := hdec.unchanged hshr
    rw [hshr, if_neg Bool.false_ne_true] at hstored
    rw [hplain] at hout
    simp only [Bool.false_eq_true, or_false]
    constructor
    · intro hfull
      have heq := hfull.decoded
      rw [hstored, hout] at heq
      exact unplus_eq_self.mp (Option.some.inj heq).symm
    · intro hplus
      have heq := unplus_eq_self.mpr hplus
      exact ⟨by rw [hstored, hout, heq], fun _ => by rw [hstored, heq]⟩

/-- A table whose first slot is in use, with the flag that a `+` or `%` sets. -/
def oneArg : HttpArgCtrl where
  cur := some 0
  maxNum := 32
  arg := [{ decodeFlag := { url := true } }]

theorem httpAppendArg_decoded_percent : ∃ a' item', httpAppendArg (str "a+%41") oneArg = some a' ∧
    a'.item = some item' ∧ FullyDecoded { url := true } (str "a+%41") item'.target := by
  obtain ⟨a', item', hrun, hitem, hiff⟩ := @httpAppendArg_decoded oneArg
    { decodeFlag := { url := true } } (str "a+%41") rfl rfl (by decide) (by decide)
    (by decide +kernel) ⟨fun _ => rfl, fun h => absurd h (by decide +kernel)⟩
  exact ⟨a', item', hrun, hitem, hiff.mpr (Or.inr (by decide +kernel))⟩

/-- `a+b` is stored with its `+`. -/
theorem plus_stored : ∃ a' item', httpAppendArg (str "a+b") oneArg = some a' ∧ a'.item = some item' ∧
    item'.target.p = some (str "a+b") ∧
    httpDecodeString DECODE_BUF (str "a+b") { url := true } = str "a b" ∧
    ¬ FullyDecoded { url := true } (str "a+b") item'.target := by
  refine ⟨oneArg.onCur fun _ => { name := { p := some (str "a+b"), nul := 3 }, decodeFlag := { url := true } },
    { name := { p := some (str "a+b"), nul := 3 }, decodeFlag := { url := true } }, ?_, rfl, rfl, ?_, ?_⟩
  · decide +kernel
  · decide +kernel
  · intro hfull
    have heq := hfull.decoded
    revert heq
    decide +kernel

end WafProxy
