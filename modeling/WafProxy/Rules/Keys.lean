import WafProxy.Log
import WafProxy.Sqlite
import WafProxy.Rules.Match

/-
  The keywords — load_key.c

  `load_key` reads the table `key_word` and copies every record to a
  `key_node_t` of `p_key_node`; `init_fast_match` registers the texts it finds
  there. The array is kept byte by byte, with how far it was written (`reach`)
  and the longest write `strcpy` made to a `txt` (`txtReach`).

  What is proved:
    1. `loadKeyRecord_slot`, `loadKeyRecord_frame` — a record fills its own node,
       and nothing in front of it.
    2. `loadKeyLoop_slots` — after the loop every node holds its record.
    3. `loadKey_survives` — the keywords survive exactly when they are at most as
       many as the nodes, shorter than a `txt`, and without a NUL.

  Correspondence (C ↔ Lean):
    `pat_t` over `record->data`      ↔ the record's bytes, at 0, 512 and 516
    `search_key`                     ↔ `searchKey`
    `load_key`, one pass of the loop ↔ `loadKeyRecord`
    `load_key`                       ↔ `loadKey`
    `init_fast_match`                ↔ `initFastMatch`, with `AcsmPattern`s for
                                       `ac_req->acsmPatterns`

  A `malloc` that fails ends the two functions without a keyword.
-/

namespace WafProxy
open Lib

def MAX_TXT_LEN : Nat := 512

/-- `sizeof(key_node_t)`. -/
def KEY_NODE_SIZE : Nat := 520

/-- The nodes `load_key` allocates. -/
def KEY_NODES : Nat := 1000

/-- The fields `search_key` adds: `key_word`, `key_word_id`, `border_check`. -/
def keyFields : List FieldInfo := [⟨DB_TYPE_STRING, 512⟩, ⟨DB_TYPE_INT, 0⟩, ⟨DB_TYPE_INT, 0⟩]

/-- `search_key`, with the object `load_key` has initialised. -/
def searchKey (db : Bool) (q : Query) : Option (Int × SearchObject) :=
  processQuery q (searchObject db keyFields)

/-- The memory from `p_key_node` on. -/
structure KeyTable where
  mem : AlogMem
  reach : Nat := 0
  txtReach : Nat := 0

def keyAt (i : Nat) : Nat := KEY_NODE_SIZE * i

/-- One pass of the loop of `load_key`; `strcpy` finds no NUL in a record of 520
other bytes, and reads on behind it. -/
def loadKeyRecord (i : Nat) (data : List Byte) (t : KeyTable) : Option KeyTable :=
  let text := cString data
  if text.length = data.length then none
  else
    let m := putBytes t.mem (keyAt i) (text ++ [0])
    let m := putBytes m (keyAt i + 512) ((data.drop 512).take 4)
    let m := putBytes m (keyAt i + 516) ((data.drop 516).take 4)
    some {
      mem := m
      reach := Nat.max t.reach (keyAt (i + 1))
      txtReach := Nat.max t.txtReach (text.length + 1) }

def loadKeyLoop : Nat → List (List Byte) → KeyTable → Option (Nat × KeyTable)
  | i, [], t => some (i, t)
  | i, data :: records, t => (loadKeyRecord i data t).bind (loadKeyLoop (i + 1) records)

/-- `load_key` with the records of the query: what it returns, and `p_key_node`.
Of the memory `malloc` gives only the first 1000 bytes are cleared. -/
def loadKey (junk : AlogMem) (records : List (List Byte)) : Option (Nat × KeyTable) :=
  loadKeyLoop 0 records { mem := putBytes junk 0 (zeros 1000) }

/-- `ACSM_PATTERN`, as far as `init_fast_match` sets it; `iid` also is the node `id`
points to. -/
structure AcsmPattern where
  casepatrn : List Byte
  n : Nat
  iid : Nat
  deriving DecidableEq, Repr

/-- `acsmAddPattern` for node `i`, which puts the new pattern in front. -/
def addPattern (t : KeyTable) (ps : List AcsmPattern) (i : Nat) : List AcsmPattern :=
  let txt := textAt t.mem (keyAt KEY_NODES - keyAt i) (keyAt i)
  ⟨txt, txt.length, i⟩ :: ps

/-- `init_fast_match`: `ac_req->acsmPatterns`. -/
def initFastMatch (num : Nat) (t : KeyTable) : List AcsmPattern :=
  (List.range num).foldl (addPattern t) []

/-! ## What the nodes should hold -/

/-- An `unsigned int` in memory. -/
def uintAt (m : AlogMem) (off : Nat) : Nat :=
  (m off).toNat + 2 ^ 8 * (m (off + 1)).toNat + 2 ^ 16 * (m (off + 2)).toNat +
    2 ^ 24 * (m (off + 3)).toNat

/-- The node at `p_key_node[i]`. -/
def keyNodeAt (t : KeyTable) (i : Nat) : KeyNode where
  txt := textAt t.mem MAX_TXT_LEN (keyAt i)
  id := uintAt t.mem (keyAt i + 512)
  flag := uintAt t.mem (keyAt i + 516)

/-- The text of a row; a NULL counts as empty. -/
def DbRow.keyWord (row : DbRow) : List Byte := (row.text 0).getD []

def DbRow.keyNode (row : DbRow) : KeyNode where
  txt := row.keyWord
  id := (row.int 1).toUInt32.toNat
  flag := (row.int 2).toUInt32.toNat

/-- Every row is in its node, unchanged and with its NUL inside `txt`, no write
went out of a `txt` or the array, and every text is registered once. -/
structure KeysSurvive (rows : List DbRow) (num : Nat) (t : KeyTable) : Prop where
  count : num = rows.length
  kept : t.reach ≤ keyAt KEY_NODES
  slots : t.txtReach ≤ MAX_TXT_LEN
  nodes : ∀ i row, rows[i]? = some row → keyNodeAt t i = row.keyNode
  terminated : ∀ i row, rows[i]? = some row →
    row.keyWord.length < MAX_TXT_LEN ∧ t.mem (keyAt i + row.keyWord.length) = 0
  registered : (initFastMatch num t).reverse =
    rows.mapIdx fun i row => ⟨row.keyWord, row.keyWord.length, i⟩

/-! ## A record in its node -/

theorem uintAt_intBytes {m : AlogMem} {off : Nat} {n : Int32}
    (h : ∀ j, j < 4 → m (off + j) = (intBytes n).getD j 0) : uintAt m off = n.toUInt32.toNat := by
  have hlt : n.toUInt32.toNat < 2 ^ 32 := n.toUInt32.toNat_lt
  have h0 : (m off).toNat = n.toUInt32.toNat % 2 ^ 8 := congrArg UInt8.toNat (h 0 (by decide))
  have h1 : (m (off + 1)).toNat = n.toUInt32.toNat / 2 ^ 8 % 2 ^ 8 := by
    rw [h 1 (by decide), ← Nat.shiftRight_eq_div_pow]
    rfl
  have h2 : (m (off + 2)).toNat = n.toUInt32.toNat / 2 ^ 16 % 2 ^ 8 := by
    rw [h 2 (by decide), ← Nat.shiftRight_eq_div_pow]
    rfl
  have h3 : (m (off + 3)).toNat = n.toUInt32.toNat / 2 ^ 24 % 2 ^ 8 := by
    rw [h 3 (by decide), ← Nat.shiftRight_eq_div_pow]
    rfl
  rw [uintAt, h0, h1, h2, h3]
  omega

/-- The record of a row: the text in its field, and the two numbers. -/
theorem keyRecord_eq (row : DbRow) : packRow keyFields row =
    (row.keyWord ++ zeros (512 - row.keyWord.length)) ++ (intBytes (row.int 1) ++ intBytes (row.int 2)) := by
  have hpack : packRow keyFields row =
      (row.keyWord ++ zeros (512 - row.keyWord.length)) ++
        (intBytes (row.int 1) ++ (intBytes (row.int 2) ++ [])) := rfl
  rw [hpack, List.append_nil]

/-- A text that is read as it is: shorter than `txt`, and without a NUL. -/
def DbRow.Plain (row : DbRow) : Prop := row.keyWord.length < MAX_TXT_LEN ∧ (0 : Byte) ∉ row.keyWord

theorem cString_record {row : DbRow} (h : row.Plain) : cString (packRow keyFields row) = row.keyWord := by
  have hne : ∀ b ∈ row.keyWord, decide (b ≠ 0) = true := by
    intro b hb
    exact decide_eq_true fun h0 => h.2 (h0 ▸ hb)
  have hlt : row.keyWord.length < 512 := h.1
  rw [keyRecord_eq, cString, List.append_assoc, List.takeWhile_append_of_pos hne,
    show 512 - row.keyWord.length = 511 - row.keyWord.length + 1 by omega]
  exact List.append_nil _

/-- The bytes a node should have. -/
structure SlotHolds (m : AlogMem) (i : Nat) (row : DbRow) : Prop where
  text : ∀ j, j ≤ row.keyWord.length → m (keyAt i + j) = row.keyWord.getD j 0
  id : ∀ j, j < 4 → m (keyAt i + 512 + j) = (intBytes (row.int 1)).getD j 0
  flag : ∀ j, j < 4 → m (keyAt i + 516 + j) = (intBytes (row.int 2)).getD j 0

theorem SlotHolds.node {t : KeyTable} {i : Nat} {row : DbRow} (hp : row.Plain)
    (h : SlotHolds t.mem i row) : keyNodeAt t i = row.keyNode := by
  have htxt : textAt t.mem MAX_TXT_LEN (keyAt i) = row.keyWord := textAt_eq hp.1 hp.2 h.text
  rw [keyNodeAt, htxt, uintAt_intBytes h.id, uintAt_intBytes h.flag]
  rfl

theorem getD_text_nul {text : List Byte} {j : Nat} (h : j ≤ text.length) :
    (text ++ [0]).getD j 0 = text.getD j 0 := by
  rw [List.getD_eq_getElem?_getD, List.getD_eq_getElem?_getD]
  rcases Nat.lt_or_eq_of_le h with hlt | heq
  · rw [List.getElem?_append_left hlt]
  · rw [heq, List.getElem?_append_right (Nat.le_refl _), Nat.sub_self, List.getElem?_eq_none (Nat.le_refl _)]
    rfl

/-- A record fills its own node, and nothing in front of it. -/
theorem loadKeyRecord_slot {row : DbRow} (hp : row.Plain) (i : Nat) (t : KeyTable) :
    ∃ t', loadKeyRecord i (packRow keyFields row) t = some t' ∧ SlotHolds t'.mem i row ∧
      (∀ j, j < keyAt i → t'.mem j = t.mem j) ∧ t'.reach = Nat.max t.reach (keyAt (i + 1)) ∧
      t'.txtReach = Nat.max t.txtReach (row.keyWord.length + 1) := by
  have hlt : row.keyWord.length < 512 := hp.1
  have hfront : (row.keyWord ++ zeros (512 - row.keyWord.length)).length = 512 := by
    rw [List.length_append, zeros, List.length_replicate]
    omega
  have hid : ((packRow keyFields row).drop 512).take 4 = intBytes (row.int 1) := by
    rw [keyRecord_eq, List.drop_left' hfront]
    rfl
  have hflag : ((packRow keyFields row).drop 516).take 4 = intBytes (row.int 2) := by
    have hdrop : (packRow keyFields row).drop 516 = ((packRow keyFields row).drop 512).drop 4 := by
      rw [List.drop_drop]
    rw [hdrop, keyRecord_eq, List.drop_left' hfront]
    rfl
  have hlen : ¬ row.keyWord.length = (packRow keyFields row).length := by
    rw [keyRecord_eq, List.length_append, hfront]
    omega
  have hl1 : (intBytes (row.int 1)).length = 4 := rfl
  have hl2 : (intBytes (row.int 2)).length = 4 := rfl
  have hl0 : (row.keyWord ++ [0]).length = row.keyWord.length + 1 := List.length_append
  simp only [loadKeyRecord, cString_record hp, if_neg hlen, hid, hflag]
  refine ⟨_, rfl, ⟨?_, ?_, ?_⟩, ?_, rfl, rfl⟩
  · intro j hj
    dsimp only
    rw [putBytes_lt (by omega), putBytes_lt (by omega), putBytes_in (by omega) (by omega),
      Nat.add_sub_cancel_left, getD_text_nul hj]
  · intro j hj
    dsimp only
    rw [putBytes_lt (by omega), putBytes_in (by omega) (by omega), Nat.add_sub_cancel_left]
  · intro j hj
    dsimp only
    rw [putBytes_in (by omega) (by omega), Nat.add_sub_cancel_left]
  · intro j hj
    dsimp only
    rw [putBytes_lt (by omega), putBytes_lt (by omega), putBytes_lt hj]

/-- After the loop every node holds its record, and nothing in front has changed. -/
theorem loadKeyLoop_slots : ∀ (rows : List DbRow) (i : Nat) (t : KeyTable), (∀ row ∈ rows, row.Plain) →
    t.reach ≤ keyAt i → t.txtReach ≤ MAX_TXT_LEN →
    ∃ t', loadKeyLoop i (rows.map (packRow keyFields)) t = some (i + rows.length, t') ∧
      (∀ k row, rows[k]? = some row → SlotHolds t'.mem (i + k) row) ∧
      (∀ j, j < keyAt i → t'.mem j = t.mem j) ∧ t'.reach ≤ keyAt (i + rows.length) ∧
      t'.txtReach ≤ MAX_TXT_LEN := by
  intro rows
  induction rows with
  | nil =>
    intro i t _ hreach htxt
    exact ⟨t, rfl, fun _ _ hk => (by cases hk), fun _ _ => rfl, hreach, htxt⟩
  | cons row rows ih =>
    intro i t hplain hreach htxt
    have hp := hplain row List.mem_cons_self
    obtain ⟨t1, ht1, hslot, hframe, hr1, hx1⟩ := loadKeyRecord_slot hp i t
    have hstep : keyAt i ≤ keyAt (i + 1) := Nat.mul_le_mul_left _ (Nat.le_succ i)
    have hr : t1.reach ≤ keyAt (i + 1) := by
      rw [hr1]
      exact Nat.max_le.mpr ⟨Nat.le_trans hreach hstep, Nat.le_refl _⟩
    have hx : t1.txtReach ≤ MAX_TXT_LEN := by
      rw [hx1]
      exact Nat.max_le.mpr ⟨htxt, hp.1⟩
    obtain ⟨t', ht', hslots, hframe', hr', hx'⟩ :=
      ih (i + 1) t1 (fun q hq => hplain q (List.mem_cons_of_mem row hq)) hr hx
    have hadd : i + 1 + rows.length = i + (row :: rows).length := by
      rw [List.length_cons]
      omega
    rw [hadd] at ht' hr'
    refine ⟨t', ?_, ?_, ?_, hr', hx'⟩
    · rw [List.map_cons, loadKeyLoop, ht1]
      exact ht'
    · intro k q hk
      cases k with
      | zero =>
        cases hk
        -- the later records leave this node as it is
        have hend : keyAt (i + 1) = keyAt i + 520 := Nat.mul_succ 520 i
        have hlt : row.keyWord.length < 512 := hp.1
        rw [Nat.add_zero]
        refine ⟨fun j hj => ?_, fun j hj => ?_, fun j hj => ?_⟩
        · rw [hframe' _ (by omega)]
          exact hslot.text j hj
        · rw [hframe' _ (by omega)]
          exact hslot.id j hj
        · rw [hframe' _ (by omega)]
          exact hslot.flag j hj
      | succ k =>
        have hq := hslots k q hk
        rwa [Nat.add_right_comm] at hq
    · intro j hj
      rw [hframe' j (Nat.lt_of_lt_of_le hj hstep), hframe j hj]

/-! ## What is registered -/

theorem initFastMatch_eq (num : Nat) (t : KeyTable) : (initFastMatch num t).reverse =
    (List.range num).map fun i =>
      ⟨textAt t.mem (keyAt KEY_NODES - keyAt i) (keyAt i),
        (textAt t.mem (keyAt KEY_NODES - keyAt i) (keyAt i)).length, i⟩ := by
  have hfold : ∀ (is : List Nat) (ps : List AcsmPattern),
      (is.foldl (addPattern t) ps).reverse = ps.reverse ++ is.map fun i =>
        ⟨textAt t.mem (keyAt KEY_NODES - keyAt i) (keyAt i),
          (textAt t.mem (keyAt KEY_NODES - keyAt i) (keyAt i)).length, i⟩ := by
    intro is
    induction is with
    | nil => exact fun ps => (List.append_nil _).symm
    | cons i is ih =>
      intro ps
      rw [List.foldl_cons, ih, addPattern, List.reverse_cons, List.append_assoc]
      rfl
  exact hfold (List.range num) []

theorem registered_of_slots {rows : List DbRow} {t : KeyTable} (hplain : ∀ row ∈ rows, row.Plain)
    (hfew : rows.length ≤ KEY_NODES) (hslots : ∀ k row, rows[k]? = some row → SlotHolds t.mem k row) :
    (initFastMatch rows.length t).reverse =
      rows.mapIdx fun i row => ⟨row.keyWord, row.keyWord.length, i⟩ := by
  rw [initFastMatch_eq]
  apply List.ext_getElem?
  intro i
  rw [List.getElem?_map, List.getElem?_mapIdx]
  cases hrow : rows[i]? with
  | none =>
    rw [List.getElem?_eq_none (by rw [List.length_range]; exact List.getElem?_eq_none_iff.mp hrow)]
    rfl
  | some row =>
    have hi : i < rows.length := (List.getElem?_eq_some_iff.mp hrow).1
    have hp := hplain row (List.mem_of_getElem? hrow)
    have hlt : row.keyWord.length < 512 := hp.1
    -- the text ends inside its node, and the node inside the array
    have hroom : row.keyWord.length < keyAt KEY_NODES - keyAt i := by
      have hle : keyAt (i + 1) ≤ keyAt KEY_NODES := Nat.mul_le_mul_left _ (by omega)
      have hend : keyAt (i + 1) = keyAt i + 520 := Nat.mul_succ 520 i
      omega
    have htext := textAt_eq hroom hp.2 (hslots i row hrow).text
    rw [List.getElem?_range hi, Option.map_some, Option.map_some, htext]

/-! ## What goes wrong -/

theorem loadKeyRecord_reach {i : Nat} {data : List Byte} {t t' : KeyTable}
    (h : loadKeyRecord i data t = some t') :
    t.reach ≤ t'.reach ∧ keyAt (i + 1) ≤ t'.reach ∧ t.txtReach ≤ t'.txtReach ∧
      (cString data).length + 1 ≤ t'.txtReach := by
  simp only [loadKeyRecord] at h
  split at h
  · cases h
  · cases h
    exact ⟨Nat.le_max_left _ _, Nat.le_max_right _ _, Nat.le_max_left _ _, Nat.le_max_right _ _⟩

theorem loadKeyLoop_reach : ∀ (records : List (List Byte)) {i num : Nat} {t t' : KeyTable},
    loadKeyLoop i records t = some (num, t') →
    num = i + records.length ∧ t.reach ≤ t'.reach ∧ t.txtReach ≤ t'.txtReach ∧
      (records ≠ [] → keyAt num ≤ t'.reach) ∧
      ∀ data ∈ records, (cString data).length + 1 ≤ t'.txtReach := by
  intro records
  induction records with
  | nil =>
    intro i num t t' h
    cases h
    exact ⟨rfl, Nat.le_refl _, Nat.le_refl _, fun hne => absurd rfl hne, fun _ hd => absurd hd List.not_mem_nil⟩
  | cons data records ih =>
    intro i num t t' h
    obtain ⟨t1, ht1, hrest⟩ := Option.bind_eq_some_iff.mp h
    obtain ⟨hr, hend, hx, hlen⟩ := loadKeyRecord_reach ht1
    obtain ⟨hnum, hr', hx', hlast, hall⟩ := ih hrest
    refine ⟨?_, Nat.le_trans hr hr', Nat.le_trans hx hx', ?_, ?_⟩
    · rw [hnum, List.length_cons]
      omega
    · intro _
      cases records with
      | nil =>
        rw [hnum]
        exact Nat.le_trans hend hr'
      | cons d ds => exact hlast (List.cons_ne_nil d ds)
    · intro d hd
      rcases List.mem_cons.mp hd with rfl | hd
      · exact Nat.le_trans hlen hx'
      · exact hall d hd

/-- A text without a NUL that fills its field leaves no room for one. -/
theorem full_record {row : DbRow} (h0 : (0 : Byte) ∉ row.keyWord) (hlen : 512 ≤ row.keyWord.length) :
    512 ≤ (cString (packRow keyFields row)).length := by
  have hne : ∀ b ∈ row.keyWord, decide (b ≠ 0) = true := by
    intro b hb
    exact decide_eq_true fun heq => h0 (heq ▸ hb)
  rw [keyRecord_eq, cString, List.append_assoc, List.takeWhile_append_of_pos hne, List.length_append]
  omega

/-! ## The law -/

/-- A query that was accepted gave the records of its rows. -/
theorem searchKey_record {db : Bool} {q : Query} {obj : SearchObject}
    (h : searchKey db q = some (0, obj)) : obj.record = q.rows.map (packRow keyFields) := by
  have hempty : (searchObject db keyFields).Empty := searchObject_empty db keyFields
  by_cases hg : GivenUp q (searchObject db keyFields)
  · obtain ⟨err, obj', hrun, hne, _⟩ := processQuery_givenUp hempty hg
    rw [searchKey, hrun] at h
    cases h
    exact absurd rfl hne
  · rw [searchKey, processQuery_stored hempty hg] at h
    cases h
    rfl

/-- **Keywords survive loading** exactly when there is a node for each of them
and each is shorter than a `txt` and has no NUL. -/
theorem loadKey_survives (junk : AlogMem) (db : Bool) (q : Query) (obj : SearchObject)
    (h : searchKey db q = some (0, obj)) :
    (∃ num t, loadKey junk obj.record = some (num, t) ∧ KeysSurvive q.rows num t) ↔
      q.rows.length ≤ KEY_NODES ∧ ∀ row ∈ q.rows, row.Plain := by
  rw [searchKey_record h, loadKey]
  constructor
  · intro hload
    obtain ⟨num, t, hrun, hk⟩ := hload
    obtain ⟨hnum, _, _, hlast, hall⟩ := loadKeyLoop_reach _ hrun
    have hplain : ∀ row ∈ q.rows, row.Plain := by
      intro row hrow
      obtain ⟨i, hi⟩ := List.mem_iff_getElem?.mp hrow
      have hnode := congrArg KeyNode.txt (hk.nodes i row hi)
      have h0 : (0 : Byte) ∉ row.keyWord := by
        rw [← show textAt t.mem MAX_TXT_LEN (keyAt i) = row.keyWord from hnode]
        exact zero_notMem_textAt
      refine ⟨Nat.not_le.mp fun hlen => ?_, h0⟩
      have hfull := full_record h0 hlen
      have hx := hall _ (List.mem_map_of_mem hrow)
      have hslots : t.txtReach ≤ 512 := hk.slots
      omega
    refine ⟨Nat.not_lt.mp fun hmany => ?_, hplain⟩
    have hne : q.rows.map (packRow keyFields) ≠ [] := by
      intro hnil
      rw [List.map_eq_nil_iff.mp hnil] at hmany
      exact absurd hmany (by decide)
    have hlt : keyAt KEY_NODES < keyAt num := by
      rw [hk.count]
      exact Nat.mul_lt_mul_of_pos_left hmany (by decide)
    have hkept := hk.kept
    have hend := hlast hne
    omega
  · intro hcond
    obtain ⟨hfew, hplain⟩ := hcond
    obtain ⟨t, hrun, hslots, _, hreach, htxt⟩ := loadKeyLoop_slots q.rows 0
      { mem := putBytes junk 0 (zeros 1000) } hplain (Nat.zero_le _) (Nat.zero_le _)
    rw [Nat.zero_add] at hrun hreach
    have hslots' : ∀ k row, q.rows[k]? = some row → SlotHolds t.mem k row := by
      intro k row hk
      have hs := hslots k row hk
      rwa [Nat.zero_add] at hs
    refine ⟨q.rows.length, t, hrun, rfl, ?_, htxt, ?_, ?_, registered_of_slots hplain hfew hslots'⟩
    · exact Nat.le_trans hreach (Nat.mul_le_mul_left _ hfew)
    · intro i row hi
      exact (hslots' i row hi).node (hplain row (List.mem_of_getElem? hi))
    · intro i row hi
      have hp := hplain row (List.mem_of_getElem? hi)
      refine ⟨hp.1, ?_⟩
      rw [(hslots' i row hi).text _ (Nat.le_refl _), List.getD_eq_getElem?_getD,
        List.getElem?_eq_none (Nat.le_refl _)]
      rfl

/-- A table of one keyword. -/
def keyTable (text : List Byte) : Query where
  sql := str "select key_word, key_word_id, border_check from key_word "
  rows := [⟨fun _ => 7, fun _ => some text⟩]

theorem keyTable_accepted (text : List Byte) (h : text.length ≤ 512) :
    ∃ obj, searchKey true (keyTable text) = some (0, obj) := by
  refine ⟨_, processQuery_stored (searchObject_empty true keyFields) ?_⟩
  intro hg
  rcases hg with hg | hg | hg | hg | ⟨_, hg⟩
  · exact hg rfl
  · cases hg
  · exact absurd hg (show ¬ MAX_SQL_STR_LEN < (str _).length by decide)
  · cases hg
  · have hint : ∀ i, FieldFits ⟨fun _ => 7, fun _ => some text⟩ i ⟨DB_TYPE_INT, 0⟩ :=
      fun _ hstring => absurd hstring (by decide)
    exact hg ⟨by decide, ⟨rfl, rfl, fun _ => h, hint 1, hint 2, trivial⟩, trivial⟩

theorem loadKey_survives_select : ∃ (obj : SearchObject) (num : Nat) (t : KeyTable),
    loadKey (fun _ => 0) obj.record = some (num, t) ∧
    KeysSurvive (keyTable (str "select")).rows num t := by
  obtain ⟨obj, hobj⟩ := keyTable_accepted (str "select") (by decide)
  obtain ⟨num, t, hrun, hk⟩ := (loadKey_survives (fun _ => 0) true _ obj hobj).mpr
    ⟨by decide, fun row hrow => by
      rw [List.mem_singleton.mp hrow]
      exact ⟨by decide, by decide⟩⟩
  exact ⟨obj, num, t, hrun, hk⟩

/-- A keyword of exactly 512 bytes is accepted, and has no NUL in its `txt`. -/
theorem full_keyword_lost : ∃ obj, searchKey true (keyTable (List.replicate 512 97)) = some (0, obj) ∧
    ¬ ∃ num t, loadKey (fun _ => 0) obj.record = some (num, t) ∧
      KeysSurvive (keyTable (List.replicate 512 97)).rows num t := by
  obtain ⟨obj, hobj⟩ := keyTable_accepted (List.replicate 512 97) (by rw [List.length_replicate])
  refine ⟨obj, hobj, fun hload => ?_⟩
  obtain ⟨num, t, _, hk⟩ := hload
  have hlen : (List.replicate 512 (97 : Byte)).length < 512 := (hk.terminated 0 _ rfl).1
  rw [List.length_replicate] at hlen
  omega

end WafProxy
