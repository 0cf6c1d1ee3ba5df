import Mathlib.Algebra.Group.Nat.Defs
import WafProxy.Packet

/-
  Loading a table — sqlite_db.c

  `process_query` runs a statement and keeps each row as a packed record: its
  `int` columns as they are, its texts in zeroed space of their maximal length.
  The records form a chain, `obj.record`.

  What is proved:
    1. `fillFields_pack` — a row that fits is packed field by field.
    2. `moveRows_spec` — the step loop stores every row, or gives up at the first
       one that cannot be stored and clears the chain.
    3. `processQuery_spec`, `processQuery_all` — so a query loads all rows or
       reports an error, unless the statement itself ends with an error.

  Correspondence (C ↔ Lean):
    `data_record_t *`, a chain      ↔ the list of the `data` blocks
    `add_field`, `init_db_object`   ↔ `addField`, `initDbObject`
    `fill_record`, the `for` loop   ↔ `fillFields`
    `fill_record`                   ↔ `fillRecord`
    `clear_data_record`             ↔ `clearDataRecord`
    `move_data_to_record`, loops    ↔ `dataSize`, `moveRows`
    `process_query`                 ↔ `processQuery`

  `sqlite3_step` gives the rows of `Query.rows` and then `Query.last`, `malloc`
  answers as `Query.mallocs` say. The sizes stay far below 2^31 (`MAX_FIELD_NUMBER`
  fields of at most `DATA_LEN_LIMIT` bytes). Finalizing a statement and the
  memory that is not freed are left out.
-/

namespace WafProxy

/-! ## The object -/

def MAX_SQL_STR_LEN : Nat := 1024
def MAX_FIELD_NUMBER : Nat := 64
def DATA_LEN_LIMIT : UInt32 := 4097

def DB_TYPE_INT : UInt16 := 101
def DB_TYPE_STRING : UInt16 := 102

def PREPARE_DB_ERROR : Int := 22
def INVALID_DATA_LENGTH : Int := 24
def INVALID_DATA_TYPE : Int := 25
def ALLOC_RECORD_MEM_FAIL : Int := 26
def ALLOC_DATA_MEM_FAIL : Int := 27
def INT_DATA_LEN_OVERFLOW : Int := 28
def TEXT_DATA_LEN_OVERFLOW : Int := 29
def TEXT_LEN_OVERFLOW : Int := 30

/-- `field_info_t`. -/
structure FieldInfo where
  dataType : UInt16
  maxDataLen : UInt32
  deriving DecidableEq, Repr

/-- `waf_signature_search_object`; `fieldList` has `field_list_sz` entries, and
`db` says whether the pointer is set. -/
structure SearchObject where
  fieldList : List FieldInfo := []
  record : List (List Byte) := []
  failRecord : UInt16 := 0
  recordCount : UInt32 := 0
  db : Bool := true
  deriving DecidableEq, Repr

/-- `init_db_object`; without a database `obj.db` stays NULL. -/
def initDbObject (db : Bool) : SearchObject := { db := db }

/-- `add_field`; a slot that was never filled has the type 0. -/
def addField (obj : SearchObject) (fi : FieldInfo) : SearchObject :=
  if MAX_FIELD_NUMBER ≤ obj.fieldList.length ∨ DATA_LEN_LIMIT < fi.maxDataLen then
    { obj with failRecord := 1 }
  else { obj with fieldList := obj.fieldList ++ [fi] }

/-- An object made ready for a query. -/
def searchObject (db : Bool) (fields : List FieldInfo) : SearchObject :=
  fields.foldl addField (initDbObject db)

/-- `clear_data_record`, which also refreshes the object. -/
def clearDataRecord (obj : SearchObject) : SearchObject :=
  { obj with fieldList := [], record := [], failRecord := 0, recordCount := 0 }

/-! ## One row -/

/-- What `sqlite3_column_int`, and `_text` with `_bytes`, give for a column. -/
structure DbRow where
  int : Nat → Int32
  text : Nat → Option (List Byte)

/-- Whether the two calls of `malloc` in `fill_record` succeed. -/
structure FillAnswers where
  record : Bool := true
  data : Bool := true
  deriving DecidableEq, Repr

/-- The bytes of an `int` in memory. -/
def intBytes (n : Int32) : List Byte :=
  let u := n.toUInt32
  [u.toUInt8, (u >>> 8).toUInt8, (u >>> 16).toUInt8, (u >>> 24).toUInt8]

def zeros (n : Nat) : List Byte := List.replicate n 0

/-- `data`, `offset` and `total_len` in the loop of `fill_record`. -/
structure FillState where
  data : List Byte
  offset : Nat
  totalLen : Nat

/-- `memcpy(data + offset, ..)`, and on to the next field. -/
def FillState.put (st : FillState) (bytes : List Byte) (len : Nat) : FillState where
  data := st.data.take st.offset ++ bytes ++ st.data.drop (st.offset + bytes.length)
  offset := st.offset + len
  totalLen := st.totalLen - len

/-- The loop of `fill_record` from field `i` on: 0, or the error it ends with.
A text that is NULL leaves its field zeroed; the error it sets is overwritten. -/
def fillFields (row : DbRow) : Nat → List FieldInfo → FillState → Int × FillState
  | _, [], st => (0, st)
  | i, fi :: fields, st =>
    let len := fi.maxDataLen.toNat
    if fi.dataType = DB_TYPE_INT then
      if st.totalLen < 4 then (INT_DATA_LEN_OVERFLOW, st)
      else fillFields row (i + 1) fields (st.put (intBytes (row.int i)) 4)
    else if fi.dataType = DB_TYPE_STRING then
      if st.totalLen < len then (TEXT_DATA_LEN_OVERFLOW, st)
      else match row.text i with
        | none => fillFields row (i + 1) fields (st.put [] len)
        | some text =>
          if len < text.length then (TEXT_LEN_OVERFLOW, st)
          else fillFields row (i + 1) fields (st.put text len)
    else (INVALID_DATA_TYPE, st)

/-- The records in front of the new one: `previous` is the record the last call
returned, by its place in the chain; a NULL pointer is not followed. -/
def linkAfter (record : List (List Byte)) (previous : Option Nat) : Option (List (List Byte)) :=
  if record = [] then some [] else previous.map fun k => record.take (k + 1)

/-- `fill_record`: `*err`, the record it returns, and the object. -/
def fillRecord (m : FillAnswers) (row : DbRow) (previous : Option Nat) (dataLen : Nat)
    (obj : SearchObject) : Option (Int × Option Nat × SearchObject) :=
  if ¬ m.record then some (ALLOC_RECORD_MEM_FAIL, none, clearDataRecord obj)
  else if ¬ m.data then some (ALLOC_DATA_MEM_FAIL, none, clearDataRecord obj)
  else match linkAfter obj.record previous with
    | none => none
    | some front =>
      match fillFields row 0 obj.fieldList ⟨zeros dataLen, 0, dataLen⟩ with
      | (err, st) =>
        if err ≠ 0 then some (err, none, clearDataRecord obj)
        else some (0, some front.length,
          { obj with record := front ++ [st.data], recordCount := obj.recordCount + 1 })

/-! ## All rows -/

/-- The last answer of `sqlite3_step`: `SQLITE_DONE`, or an error code. -/
inductive StepEnd where
  | done
  | error
  deriving DecidableEq, Repr

structure Query where
  sql : List Byte
  prepared : Bool := true
  rows : List DbRow
  last : StepEnd := .done
  mallocs : List FillAnswers := []

/-- The size of a record, or the error the first loop of `move_data_to_record`
ends with. -/
def dataSize : List FieldInfo → Except Int Nat
  | [] => .ok 0
  | fi :: fields =>
    if fi.dataType = DB_TYPE_INT then (dataSize fields).map fun n => 4 + n
    else if fi.dataType = DB_TYPE_STRING then
      if fi.maxDataLen ≤ 0 ∨ DATA_LEN_LIMIT < fi.maxDataLen then .error INVALID_DATA_LENGTH
      else (dataSize fields).map fun n => fi.maxDataLen.toNat + n
    else .error INVALID_DATA_TYPE

/-- The second loop of `move_data_to_record`. It ends at every answer of
`sqlite3_step` that is not a row, be it `SQLITE_DONE` or an error. -/
def moveRows (dataLen : Nat) : List FillAnswers → Option Nat → List DbRow → SearchObject →
    Option (Int × SearchObject)
  | _, _, [], obj => some (0, obj)
  | ms, previous, row :: rows, obj =>
    match fillRecord (ms.headD {}) row previous dataLen obj with
    | none => none
    | some (err, none, obj) => some (err, obj)
    | some (_, some record, obj) => moveRows dataLen ms.tail (some record) rows obj

/-- `move_data_to_record`, called with the statement on its first row. -/
def moveDataToRecord (q : Query) (obj : SearchObject) : Option (Int × SearchObject) :=
  match dataSize obj.fieldList with
  | .error err => some (err, obj)
  | .ok dataLen => moveRows dataLen q.mallocs none q.rows obj

/-- `process_query`: `*err` and the object. -/
def processQuery (q : Query) (obj : SearchObject) : Option (Int × SearchObject) :=
  if obj.failRecord ≠ 0 then some (-2, obj)
  else if ¬ obj.db then some (-3, obj)
  else if MAX_SQL_STR_LEN < q.sql.length then some (-4, obj)
  else if ¬ q.prepared then some (PREPARE_DB_ERROR, obj)
  -- the first step gives no row: DONE, or an error
  else if q.rows.isEmpty then some (0, obj)
  else moveDataToRecord q obj

/-! ## What a record holds -/

/-- The bytes of a field. -/
def packField (row : DbRow) (i : Nat) (fi : FieldInfo) : List Byte :=
  if fi.dataType = DB_TYPE_INT then intBytes (row.int i)
  else (row.text i).getD [] ++ zeros (fi.maxDataLen.toNat - ((row.text i).getD []).length)

def packFrom (row : DbRow) : Nat → List FieldInfo → List Byte
  | _, [] => []
  | i, fi :: fields => packField row i fi ++ packFrom row (i + 1) fields

/-- The record of a row. -/
def packRow (fields : List FieldInfo) (row : DbRow) : List Byte := packFrom row 0 fields

def FieldInfo.size (fi : FieldInfo) : Nat :=
  if fi.dataType = DB_TYPE_INT then 4 else fi.maxDataLen.toNat

def fieldsSize : List FieldInfo → Nat
  | [] => 0
  | fi :: fields => fi.size + fieldsSize fields

/-- A field that `move_data_to_record` accepts. -/
def FieldInfo.Valid (fi : FieldInfo) : Prop :=
  fi.dataType = DB_TYPE_INT ∨
    (fi.dataType = DB_TYPE_STRING ∧ 0 < fi.maxDataLen ∧ fi.maxDataLen ≤ DATA_LEN_LIMIT)

instance (fi : FieldInfo) : Decidable fi.Valid := inferInstanceAs (Decidable (_ ∨ _))

def FieldsValid (fields : List FieldInfo) : Prop := ∀ fi ∈ fields, fi.Valid

instance (fields : List FieldInfo) : Decidable (FieldsValid fields) :=
  inferInstanceAs (Decidable (∀ fi ∈ fields, fi.Valid))

/-- A column that has room in its field. -/
def FieldFits (row : DbRow) (i : Nat) (fi : FieldInfo) : Prop :=
  fi.dataType = DB_TYPE_STRING → ((row.text i).getD []).length ≤ fi.maxDataLen.toNat

instance (row : DbRow) (i : Nat) (fi : FieldInfo) : Decidable (FieldFits row i fi) :=
  inferInstanceAs (Decidable (_ → _))

def FieldsFit (row : DbRow) : Nat → List FieldInfo → Prop
  | _, [] => True
  | i, fi :: fields => FieldFits row i fi ∧ FieldsFit row (i + 1) fields

instance decidableFieldsFit (row : DbRow) :
    ∀ (i : Nat) (fields : List FieldInfo), Decidable (FieldsFit row i fields)
  | _, [] => .isTrue trivial
  | i, _ :: fields =>
    have := decidableFieldsFit row (i + 1) fields
    inferInstanceAs (Decidable (_ ∧ _))

/-- Every row can be stored: its memory is there and its texts have room. -/
def RowsFit (fields : List FieldInfo) : List FillAnswers → List DbRow → Prop
  | _, [] => True
  | ms, row :: rows =>
    ((ms.headD {}).record = true ∧ (ms.headD {}).data = true ∧ FieldsFit row 0 fields) ∧
      RowsFit fields ms.tail rows

instance decidableRowsFit (fields : List FieldInfo) :
    ∀ (ms : List FillAnswers) (rows : List DbRow), Decidable (RowsFit fields ms rows)
  | _, [] => .isTrue trivial
  | ms, _ :: rows =>
    have := decidableRowsFit fields ms.tail rows
    inferInstanceAs (Decidable (_ ∧ _))

theorem string_ne_int : DB_TYPE_STRING ≠ DB_TYPE_INT := by decide

theorem dataSize_valid : ∀ {fields : List FieldInfo}, FieldsValid fields →
    dataSize fields = .ok (fieldsSize fields)
  | [], _ => rfl
  | fi :: fields, h => by
    have ih := dataSize_valid fun f hf => h f (List.mem_cons_of_mem fi hf)
    rw [dataSize, ih, fieldsSize, FieldInfo.size]
    rcases h fi List.mem_cons_self with hint | ⟨hstring, hpos, hle⟩
    · rw [if_pos hint, if_pos hint]
      rfl
    · have hlen : ¬ (fi.maxDataLen ≤ 0 ∨ DATA_LEN_LIMIT < fi.maxDataLen) := by
        rw [not_or, UInt32.not_le, UInt32.not_lt]
        exact ⟨hpos, hle⟩
      rw [hstring, if_neg string_ne_int, if_neg string_ne_int, if_pos rfl, if_neg hlen]
      rfl

theorem dataSize_invalid : ∀ {fields : List FieldInfo}, ¬ FieldsValid fields →
    ∃ err, dataSize fields = .error err ∧ err ≠ 0
  | [], h => absurd (fun _ hf => absurd hf List.not_mem_nil) h
  | fi :: fields, h => by
    have hrest : fi.Valid → ¬ FieldsValid fields := fun hfi hfs =>
      h fun f hf => (List.mem_cons.mp hf).elim (fun heq => heq ▸ hfi) (hfs f)
    rw [dataSize]
    split
    next hint =>
      obtain ⟨err, herr, hne⟩ := dataSize_invalid (hrest (Or.inl hint))
      rw [herr]
      exact ⟨err, rfl, hne⟩
    next hint =>
      split
      next hstring =>
        split
        · exact ⟨_, rfl, by decide⟩
        next hlen =>
          rw [not_or, UInt32.not_le, UInt32.not_lt] at hlen
          obtain ⟨err, herr, hne⟩ := dataSize_invalid (hrest (Or.inr ⟨hstring, hlen⟩))
          rw [herr]
          exact ⟨err, rfl, hne⟩
      · exact ⟨_, rfl, by decide⟩

theorem put_zeros (front bytes : List Byte) {len rest : Nat} (h : bytes.length ≤ len) :
    (FillState.put ⟨front ++ zeros (len + rest), front.length, len + rest⟩ bytes len) =
      ⟨(front ++ (bytes ++ zeros (len - bytes.length))) ++ zeros rest,
        (front ++ (bytes ++ zeros (len - bytes.length))).length, rest⟩ := by
  have hdrop : (front ++ zeros (len + rest)).drop (front.length + bytes.length) =
      zeros (len - bytes.length) ++ zeros rest := by
    rw [List.drop_append, List.drop_of_length_le (by omega), Nat.add_sub_cancel_left, List.nil_append]
    rw [zeros, zeros, zeros, List.drop_replicate, List.replicate_append_replicate]
    congr 1
    omega
  simp only [FillState.put, List.take_left', hdrop, List.append_assoc, FillState.mk.injEq, true_and]
  refine ⟨?_, by omega⟩
  simp only [List.length_append, zeros, List.length_replicate]
  omega

/-- A row that fits is packed field by field. -/
theorem fillFields_pack (row : DbRow) : ∀ (fields : List FieldInfo) (i : Nat) (front : List Byte),
    FieldsValid fields → FieldsFit row i fields →
    ∃ st, fillFields row i fields ⟨front ++ zeros (fieldsSize fields), front.length, fieldsSize fields⟩ =
      (0, st) ∧ st.data = front ++ packFrom row i fields := by
  intro fields
  induction fields with
  | nil =>
    intro i front _ _
    exact ⟨_, rfl, rfl⟩
  | cons fi fields ih =>
    intro i front hvalid hfit
    have hrest : FieldsValid fields := fun f hf => hvalid f (List.mem_cons_of_mem fi hf)
    -- one field is copied, and the rest of the space is still zeroed
    have hnext : ∀ {bytes : List Byte}, bytes.length ≤ fi.size →
        bytes ++ zeros (fi.size - bytes.length) = packField row i fi →
        ∃ st, fillFields row (i + 1) fields
            (FillState.put ⟨front ++ zeros (fi.size + fieldsSize fields), front.length,
              fi.size + fieldsSize fields⟩ bytes fi.size) = (0, st) ∧
          st.data = front ++ (packField row i fi ++ packFrom row (i + 1) fields) := by
      intro bytes hle hpack
      rw [put_zeros front bytes hle, hpack]
      obtain ⟨st, hst, hdata⟩ := ih (i + 1) (front ++ packField row i fi) hrest hfit.2
      rw [List.append_assoc] at hdata
      exact ⟨st, hst, hdata⟩
    rw [fillFields, fieldsSize, packFrom]
    rcases hvalid fi List.mem_cons_self with hint | ⟨hstring, _, _⟩
    · have hsize : fi.size = 4 := if_pos hint
      have hpack : packField row i fi = intBytes (row.int i) := if_pos hint
      rw [hsize] at hnext
      rw [if_pos hint, hsize, if_neg (Nat.not_lt.mpr (Nat.le_add_right _ _))]
      exact hnext (Nat.le_refl 4) (by rw [hpack]; exact List.append_nil _)
    · have hne : fi.dataType ≠ DB_TYPE_INT := hstring ▸ string_ne_int
      have hsize : fi.size = fi.maxDataLen.toNat := if_neg hne
      have hpack : packField row i fi = _ := if_neg hne
      rw [hsize] at hnext
      rw [if_neg hne, if_pos hstring, hsize, if_neg (Nat.not_lt.mpr (Nat.le_add_right _ _))]
      have hlen := hfit.1 hstring
      cases htext : row.text i with
      | none =>
        rw [htext] at hpack
        exact hnext (Nat.zero_le _) hpack.symm
      | some text =>
        rw [htext] at hlen hpack
        have hroom : ¬ fi.maxDataLen.toNat < text.length := Nat.not_lt.mpr hlen
        simp only [if_neg hroom]
        exact hnext hlen hpack.symm

/-- A row that does not fit is refused. -/
theorem fillFields_refuses (row : DbRow) : ∀ (fields : List FieldInfo) (i : Nat) (st : FillState),
    FieldsValid fields → ¬ FieldsFit row i fields → (fillFields row i fields st).1 ≠ 0 := by
  intro fields
  induction fields with
  | nil =>
    intro i st _ hfit
    exact absurd trivial hfit
  | cons fi fields ih =>
    intro i st hvalid hfit
    have hrest : FieldsValid fields := fun f hf => hvalid f (List.mem_cons_of_mem fi hf)
    have hnext : FieldFits row i fi → ∀ st, (fillFields row (i + 1) fields st).1 ≠ 0 :=
      fun hfi st => ih (i + 1) st hrest fun hfs => hfit ⟨hfi, hfs⟩
    rw [fillFields]
    rcases hvalid fi List.mem_cons_self with hint | ⟨hstring, _, _⟩
    · have hfi : FieldFits row i fi := fun hstring => absurd (hstring.symm.trans hint) string_ne_int
      rw [if_pos hint]
      split
      · exact (by decide : INT_DATA_LEN_OVERFLOW ≠ 0)
      · exact hnext hfi _
    · have hne : fi.dataType ≠ DB_TYPE_INT := hstring ▸ string_ne_int
      rw [if_neg hne, if_pos hstring]
      split
      · exact (by decide : TEXT_DATA_LEN_OVERFLOW ≠ 0)
      · cases htext : row.text i with
        | none =>
          have hfi : FieldFits row i fi := by
            intro _
            rw [htext]
            exact Nat.zero_le _
          exact hnext hfi _
        | some text =>
          dsimp only
          split
          · exact (by decide : TEXT_LEN_OVERFLOW ≠ 0)
          next hroom =>
            have hfi : FieldFits row i fi := by
              intro _
              rw [htext]
              exact Nat.not_lt.mp hroom
            exact hnext hfi _

/-! ## The chain -/

/-- One call of `fill_record` on a chain whose last record is `previous`. -/
theorem fillRecord_spec (m : FillAnswers) (row : DbRow) {previous : Option Nat} {obj : SearchObject}
    (hvalid : FieldsValid obj.fieldList)
    (hprev : obj.record ≠ [] → previous = some (obj.record.length - 1)) :
    if m.record = true ∧ m.data = true ∧ FieldsFit row 0 obj.fieldList then
      fillRecord m row previous (fieldsSize obj.fieldList) obj =
        some (0, some obj.record.length, { obj with
          record := obj.record ++ [packRow obj.fieldList row]
          recordCount := obj.recordCount + 1 })
    else ∃ err, fillRecord m row previous (fieldsSize obj.fieldList) obj =
        some (err, none, clearDataRecord obj) ∧ err ≠ 0 := by
  have hlink : linkAfter obj.record previous = some obj.record := by
    unfold linkAfter
    split
    next hempty => rw [hempty]
    next hne =>
      have hpos := List.length_pos_iff.mpr hne
      rw [hprev hne, Option.map_some, Nat.sub_add_cancel hpos, List.take_length]
  unfold fillRecord
  rw [hlink]
  by_cases hrec : m.record = true
  · by_cases hdat : m.data = true
    · rw [if_neg (not_not_intro hrec), if_neg (not_not_intro hdat)]
      by_cases hfit : FieldsFit row 0 obj.fieldList
      · rw [if_pos ⟨hrec, hdat, hfit⟩]
        obtain ⟨st, hst, hdata⟩ := fillFields_pack row obj.fieldList 0 [] hvalid hfit
        simp only [List.nil_append, List.length_nil] at hst hdata
        simp only [hst, ne_eq, not_true_eq_false, if_false, hdata]
        rfl
      · rw [if_neg (fun h => hfit h.2.2)]
        have herr := fillFields_refuses row obj.fieldList 0
          ⟨zeros (fieldsSize obj.fieldList), 0, fieldsSize obj.fieldList⟩ hvalid hfit
        refine ⟨_, ?_, herr⟩
        simp only [if_pos herr]
    · rw [if_neg (not_not_intro hrec), if_pos hdat, if_neg (fun h => hdat h.2.1)]
      exact ⟨_, rfl, by decide⟩
  · rw [if_pos hrec, if_neg (fun h => hrec h.1)]
    exact ⟨_, rfl, by decide⟩

/-- The chain after a call, for the next one. -/
theorem last_of_append (record : List (List Byte)) (data : List Byte) :
    some record.length = some ((record ++ [data]).length - 1) := by
  rw [List.length_append, List.length_singleton, Nat.add_sub_cancel]

/-- The step loop stores all rows, or gives up and clears the chain. -/
theorem moveRows_spec : ∀ (rows : List DbRow) (ms : List FillAnswers) (previous : Option Nat)
    (obj : SearchObject), FieldsValid obj.fieldList →
    (obj.record ≠ [] → previous = some (obj.record.length - 1)) →
    if RowsFit obj.fieldList ms rows then
      moveRows (fieldsSize obj.fieldList) ms previous rows obj = some (0, { obj with
        record := obj.record ++ rows.map (packRow obj.fieldList)
        recordCount := obj.recordCount + UInt32.ofNat rows.length })
    else ∃ err, moveRows (fieldsSize obj.fieldList) ms previous rows obj =
        some (err, clearDataRecord obj) ∧ err ≠ 0 := by
  intro rows
  induction rows with
  | nil =>
    intro ms previous obj _ _
    rw [if_pos (show RowsFit obj.fieldList ms [] from trivial)]
    simp [moveRows]
  | cons row rows ih =>
    intro ms previous obj hvalid hprev
    have hfill := fillRecord_spec (ms.headD {}) row hvalid hprev
    rw [moveRows]
    split at hfill
    next hfit =>
      have hrest := ih ms.tail (some obj.record.length)
        { obj with
          record := obj.record ++ [packRow obj.fieldList row]
          recordCount := obj.recordCount + 1 } hvalid (fun _ => last_of_append _ _)
      rw [hfill]
      by_cases hrows : RowsFit obj.fieldList ms.tail rows
      · rw [if_pos hrows] at hrest
        rw [if_pos (show RowsFit obj.fieldList ms (row :: rows) from ⟨hfit, hrows⟩)]
        rw [List.append_assoc] at hrest
        refine hrest.trans ?_
        have hcount : obj.recordCount + 1 + UInt32.ofNat rows.length =
            obj.recordCount + UInt32.ofNat (rows.length + 1) := by
          rw [UInt32.add_assoc, UInt32.ofNat_add, UInt32.add_comm 1]
          rfl
        rw [hcount]
        rfl
      · rw [if_neg hrows] at hrest
        rw [if_neg fun h : RowsFit obj.fieldList ms (row :: rows) => hrows h.2]
        exact hrest
    next hfit =>
      obtain ⟨err, herr, hne⟩ := hfill
      rw [herr, if_neg fun h : RowsFit obj.fieldList ms (row :: rows) => hfit h.1]
      exact ⟨err, rfl, hne⟩

/-! ## A query -/

theorem addField_record (obj : SearchObject) (fi : FieldInfo) :
    (addField obj fi).record = obj.record ∧ (addField obj fi).recordCount = obj.recordCount := by
  unfold addField
  split <;> exact ⟨rfl, rfl⟩

theorem searchObject_empty (db : Bool) (fields : List FieldInfo) :
    (searchObject db fields).record = [] ∧ (searchObject db fields).recordCount = 0 := by
  have hfold : ∀ (fields : List FieldInfo) (obj : SearchObject),
      (fields.foldl addField obj).record = obj.record ∧
        (fields.foldl addField obj).recordCount = obj.recordCount := by
    intro fields
    induction fields with
    | nil => exact fun _ => ⟨rfl, rfl⟩
    | cons fi fields ih =>
      intro obj
      obtain ⟨hr, hc⟩ := addField_record obj fi
      obtain ⟨hr', hc'⟩ := ih (addField obj fi)
      exact ⟨hr'.trans hr, hc'.trans hc⟩
  exact hfold fields (initDbObject db)

/-- The load is given up before the statement ends: the object is not ready, the
statement cannot be run, or there is a row and a field or a row cannot be stored. -/
def GivenUp (q : Query) (obj : SearchObject) : Prop :=
  obj.failRecord ≠ 0 ∨ obj.db = false ∨ MAX_SQL_STR_LEN < q.sql.length ∨ q.prepared = false ∨
    (q.rows ≠ [] ∧ ¬ (FieldsValid obj.fieldList ∧ RowsFit obj.fieldList q.mallocs q.rows))

/-- The object is as empty as it was. -/
def SearchObject.Empty (obj : SearchObject) : Prop := obj.record = [] ∧ obj.recordCount = 0

theorem processQuery_givenUp {q : Query} {obj : SearchObject} (ho : obj.Empty) (hg : GivenUp q obj) :
    ∃ err obj', processQuery q obj = some (err, obj') ∧ err ≠ 0 ∧ obj'.Empty := by
  unfold processQuery
  split
  · exact ⟨_, _, rfl, by decide, ho⟩
  next hready =>
    split
    · exact ⟨_, _, rfl, by decide, ho⟩
    next hdb =>
      split
      · exact ⟨_, _, rfl, by decide, ho⟩
      next hsql =>
        split
        · exact ⟨_, _, rfl, by decide, ho⟩
        next hprep =>
          rcases hg with h | h | h | h | ⟨hrows, hfit⟩
          · exact absurd h hready
          · exact absurd (by simp [h]) hdb
          · exact absurd h hsql
          · exact absurd (by simp [h]) hprep
          · rw [if_neg (by simpa using hrows), moveDataToRecord]
            by_cases hvalid : FieldsValid obj.fieldList
            · have hmove := moveRows_spec q.rows q.mallocs none obj hvalid fun h => absurd ho.1 h
              rw [if_neg fun h => hfit ⟨hvalid, h⟩] at hmove
              obtain ⟨err, herr, hne⟩ := hmove
              rw [dataSize_valid hvalid]
              exact ⟨err, _, herr, hne, rfl, rfl⟩
            · obtain ⟨err, herr, hne⟩ := dataSize_invalid hvalid
              rw [herr]
              exact ⟨err, obj, rfl, hne, ho⟩

theorem processQuery_stored {q : Query} {obj : SearchObject} (ho : obj.Empty) (hg : ¬ GivenUp q obj) :
    processQuery q obj = some (0, { obj with
      record := q.rows.map (packRow obj.fieldList), recordCount := UInt32.ofNat q.rows.length }) := by
  simp only [GivenUp, not_or, Bool.not_eq_false] at hg
  obtain ⟨hready, hdb, hsql, hprep, hfit⟩ := hg
  unfold processQuery
  rw [if_neg hready, if_neg (not_not_intro hdb), if_neg hsql,
    if_neg (not_not_intro hprep)]
  split
  next hempty =>
    have hnil : q.rows = [] := by simpa using hempty
    rw [hnil]
    cases obj
    cases ho.1
    cases ho.2
    rfl
  next hrows =>
    have hne : q.rows ≠ [] := by simpa using hrows
    obtain ⟨hvalid, hfits⟩ := Classical.not_not.mp fun h => hfit ⟨hne, h⟩
    have hmove := moveRows_spec q.rows q.mallocs none obj hvalid fun h => absurd ho.1 h
    rw [if_pos hfits] at hmove
    rw [moveDataToRecord, dataSize_valid hvalid]
    refine hmove.trans ?_
    rw [ho.1, ho.2, List.nil_append, UInt32.zero_add]

/-- All rows in order and the statement at its end, or an error and nothing. -/
def AllOrError (q : Query) (fields : List FieldInfo) (err : Int) (obj : SearchObject) : Prop :=
  (err = 0 ∧ q.last = .done ∧ obj.record = q.rows.map (packRow fields) ∧
    obj.recordCount.toNat = q.rows.length) ∨
  (err ≠ 0 ∧ obj.Empty)

/-- **A query loads all rows or reports an error**, exactly when it is given up
or its statement ends with `SQLITE_DONE` after fewer than 2^32 rows. -/
theorem processQuery_all (db : Bool) (fields : List FieldInfo) (q : Query) :
    ∃ err obj, processQuery q (searchObject db fields) = some (err, obj) ∧
      (AllOrError q (searchObject db fields).fieldList err obj ↔
        GivenUp q (searchObject db fields) ∨ (q.last = .done ∧ q.rows.length < 2 ^ 32)) := by
  have ho : (searchObject db fields).Empty := searchObject_empty db fields
  by_cases hg : GivenUp q (searchObject db fields)
  · obtain ⟨err, obj, hrun, herr, hempty⟩ := processQuery_givenUp ho hg
    exact ⟨err, obj, hrun, iff_of_true (Or.inr ⟨herr, hempty⟩) (Or.inl hg)⟩
  · refine ⟨0, _, processQuery_stored ho hg, ?_⟩
    have hcount : (UInt32.ofNat q.rows.length).toNat = q.rows.length ↔ q.rows.length < 2 ^ 32 := by
      rw [UInt32.toNat_ofNat']
      omega
    have herr : ¬ ((0 : Int) ≠ 0 ∧ SearchObject.Empty { searchObject db fields with
        record := q.rows.map (packRow (searchObject db fields).fieldList)
        recordCount := UInt32.ofNat q.rows.length }) := fun h => h.1 rfl
    rw [AllOrError, or_iff_left herr, or_iff_right hg, ← hcount]
    exact ⟨fun h => ⟨h.2.1, h.2.2.2⟩, fun h => ⟨rfl, h.1, rfl, h.2⟩⟩

/-- A table with one text column of at most four bytes. -/
def oneField : SearchObject := searchObject true [⟨DB_TYPE_STRING, 4⟩]

def abRow : DbRow := ⟨fun _ => 0, fun _ => some [97, 98]⟩

/-- A statement that fails at once, and one that fails after its first row, are
both reported as success. -/
theorem error_as_success :
    (∃ obj, processQuery { sql := [], rows := [], last := .error } oneField = some (0, obj) ∧
      ¬ AllOrError { sql := [], rows := [], last := .error } oneField.fieldList 0 obj) ∧
    (∃ obj, processQuery { sql := [], rows := [abRow], last := .error } oneField = some (0, obj) ∧
      obj.record = [[97, 98, 0, 0]] ∧
      ¬ AllOrError { sql := [], rows := [abRow], last := .error } oneField.fieldList 0 obj) := by
  have hno : ∀ {q : Query} {fields : List FieldInfo} {obj : SearchObject}, q.last = .error →
      ¬ AllOrError q fields 0 obj := by
    intro q fields obj hlast h
    rcases h with ⟨_, hdone, _⟩ | ⟨hne, _⟩
    · rw [hlast] at hdone
      cases hdone
    · exact hne rfl
  exact ⟨⟨_, rfl, hno rfl⟩, ⟨_, rfl, by decide, hno rfl⟩⟩

end WafProxy
