import WafProxy.Lib.Move
import WafProxy.Http.LineEdits

/-
  The splice of a buffer — `_http_modify_stream` of http_modify.c

  The other modules keep the text of a stream apart from the place it is written
  to, or in it. Here the function runs on one memory, in which the buffers are
  where their pointers say, and null is the address 0. It makes three moves: the
  front of the text, the rest behind the replaced stretch, the replacement. The
  rest is moved before anything is written over it, because the front does not
  grow and the replacement comes last.

  What is proved:
    1. `three_moves` — the moves find what they are to take, when the target is the
       source buffer and when it is apart from it.
    2. `at_moved` — what the three moves leave in the target.
    3. `splice` — the target holds the text with the stretch replaced when that
       fits, and nothing is written when it does not.
    4. `splice_edit` — the result is that of `EditStream.httpModifyStream`.

  Correspondence (C ↔ Lean):
    `_http_modify_stream`   ↔ `Splice.httpModifyStream`
    `memmove`               ↔ `Splice.memmove`
-/

namespace WafProxy.Splice
open Lib Lib.Memory

/-! ## The function -/

/-- `memmove`; as a `size_t` a negative size is larger than any buffer. -/
def memmove (m : Memory Byte) (dst src n : Int) : Option (Memory Byte) :=
  if n < 0 then none else m.move dst src n.toNat

/-- `_http_modify_stream`; `none` where it leaves the buffers. `begin - data` goes through an
`int`, which holds every offset into a text whose length is one. -/
def httpModifyStream (m : Memory Byte) (newData maxNewDataLen data dataLen begin stop new newLen : Int) :
    Option (Int × Memory Byte) :=
  if newData = 0 ∨ data = 0 ∨ dataLen ≤ 0 ∨ begin = 0 ∨ stop = 0 ∨ stop < begin ∨ newLen < 0 then some (-1, m)
  else if maxNewDataLen < dataLen - (stop - begin) + newLen then some (-1, m)
  else do
    let m ← memmove m newData data (begin - data)
    let newDataLen := begin - data
    let m ← memmove m (newData + newDataLen + newLen) stop (data + dataLen - stop)
    let m ← if newLen ≠ 0 then memmove m (newData + newDataLen) new newLen else some m
    return (dataLen - (stop - begin) + newLen, m)

/-- A call for a text `front ++ old ++ back` at `data`, in which `w` is to stand for `old`.
The target has `room` bytes; it is the buffer of the text, or apart from it. -/
structure Call (m : Memory Byte) (front old back w : List Byte) (newData data new : Int) (room : Nat) : Prop where
  text : m.At data (front ++ old ++ back)
  nonempty : front ++ old ++ back ≠ []
  replacement : m.At new w
  target : m.Room newData room
  data_pos : 0 < data
  newData_pos : 0 < newData
  aliased : newData = data ∨ Apart newData room data (front ++ old ++ back).length
  new_data : Apart new w.length data (front ++ old ++ back).length
  new_target : Apart new w.length newData room

/-- The memory behind the three moves. -/
def moved (m : Memory Byte) (newData : Int) (front w back : List Byte) : Memory Byte :=
  ((m.store newData front).store (newData + front.length + w.length) back).store (newData + front.length) w

section
variable {m : Memory Byte} {front old back w : List Byte} {newData data new : Int} {room : Nat}

theorem memmove_at {dst src : Int} {l : List Byte} (h : m.At src l) (hroom : m.Room dst l.length) :
    memmove m dst src l.length = some (m.store dst l) := by
  unfold memmove
  rw [if_neg (by omega), Int.toNat_natCast, move_at h hroom]

/-! ## The moves -/

theorem Call.front_at (h : Call m front old back w newData data new room) : m.At data front :=
  (at_append.mp (at_append.mp h.text).1).1

theorem Call.back_at (h : Call m front old back w newData data new room) :
    m.At (data + front.length + old.length) back := by
  have hback := (at_append.mp h.text).2
  rw [List.length_append, Int.natCast_add, ← Int.add_assoc] at hback
  exact hback

/-- The first move does not reach the rest of the text. -/
theorem Call.front_back (h : Call m front old back w newData data new room)
    (hfit : front.length + w.length + back.length ≤ room) :
    Apart (data + front.length + old.length) back.length newData front.length := by
  have halias := h.aliased
  unfold Apart at halias ⊢
  simp only [List.length_append] at halias
  omega

/-- A stretch of the target is apart from the replacement. -/
theorem Call.new_part (h : Call m front old back w newData data new room) {a : Int} {n : Nat} (hle : newData ≤ a)
    (hend : a + n ≤ newData + room) : Apart new w.length a n := by
  have hnew := h.new_target
  unfold Apart at hnew ⊢
  omega

/-- **The three moves** find the front, the rest and the replacement where they were. -/
theorem three_moves (h : Call m front old back w newData data new room)
    (hfit : front.length + w.length + back.length ≤ room) (r : Int) :
    (do
      let m ← memmove m newData data front.length
      let m ← memmove m (newData + front.length + w.length) (data + front.length + old.length) back.length
      let m ← if (w.length : Int) ≠ 0 then memmove m (newData + front.length) new w.length else some m
      return (r, m)) = some (r, moved m newData front w back) := by
  have hfirst : memmove m newData data front.length = some (m.store newData front) :=
    memmove_at h.front_at (h.target.sub (Int.le_refl _) (by omega))
  have hroom := h.target.store (b := newData) (r := front)
  have hsecond := memmove_at (h.back_at.store (h.front_back hfit))
    (hroom.sub (b := newData + front.length + w.length) (k := back.length) (by omega) (by omega))
  rw [hfirst, Option.bind_eq_bind, Option.bind_some, hsecond, Option.bind_some]
  by_cases hw : w = []
  · -- an empty replacement is not moved
    subst hw
    unfold moved
    rw [store_nil]
    rfl
  · have hlen : 0 < w.length := List.length_pos_iff.mpr hw
    have hfront : Apart new w.length newData front.length := h.new_part (Int.le_refl _) (by omega)
    have hback : Apart new w.length (newData + front.length + w.length) back.length :=
      h.new_part (by omega) (by omega)
    have hplace : ((m.store newData front).store (newData + front.length + w.length) back).Room
        (newData + front.length) w.length := hroom.store.sub (by omega) (by omega)
    have hthird := memmove_at ((h.replacement.store hfront).store hback) hplace
    rw [if_pos (by omega), hthird]
    rfl

/-- **Behind the moves** the three pieces stand one behind the other. -/
theorem at_moved (m : Memory Byte) (newData : Int) (front w back : List Byte) :
    (moved m newData front w back).At newData (front ++ w ++ back) := by
  unfold moved
  rw [at_append, at_append, List.length_append]
  refine ⟨⟨?_, at_store⟩, ?_⟩
  · apply (at_store.store _).store _
    · unfold Apart
      omega
    · unfold Apart
      omega
  · rw [Int.natCast_add, ← Int.add_assoc]
    apply at_store.store
    unfold Apart
    omega

theorem moved_outside {a : Int}
    (ha : a < newData ∨ newData + (front ++ w ++ back).length ≤ a) : moved m newData front w back a = m a := by
  simp only [List.length_append] at ha
  unfold moved
  rw [store_outside (by omega), store_outside (by omega), store_outside (by omega)]

/-! ## The splice -/

/-- **The splice.** The target holds the text with the stretch replaced when that fits in
`max` bytes; otherwise the call fails and nothing is written. -/
theorem splice (h : Call m front old back w newData data new room) {max : Int} (hmax : max ≤ room) :
    let n : Int := (front ++ old ++ back).length
    let begin := data + front.length
    let stop := begin + old.length
    let out := front ++ w ++ back
    ((out.length : Int) ≤ max → ∃ m',
      httpModifyStream m newData max data n begin stop new w.length = some (n - (stop - begin) + w.length, m') ∧
        n - (stop - begin) + w.length = out.length ∧ m'.At newData out ∧
        ∀ a, a < newData ∨ newData + out.length ≤ a → m' a = m a) ∧
    (max < out.length → httpModifyStream m newData max data n begin stop new w.length = some (-1, m)) := by
  intro n begin stop out
  have hn : n = front.length + old.length + back.length := by
    simp only [n, List.length_append, Int.natCast_add]
  have hout : (out.length : Int) = front.length + w.length + back.length := by
    simp only [out, List.length_append, Int.natCast_add]
  have hpos : 0 < n := by
    have := List.length_pos_iff.mpr h.nonempty
    omega
  have hdata := h.data_pos
  have hnewData := h.newData_pos
  have hstop : stop = data + front.length + old.length := rfl
  have hbegin : begin = data + front.length := rfl
  have hvalue : n - (stop - begin) + w.length = out.length := by omega
  have hchecks : ¬ (newData = 0 ∨ data = 0 ∨ n ≤ 0 ∨ begin = 0 ∨ stop = 0 ∨ stop < begin ∨
      (w.length : Int) < 0) := by
    omega
  constructor
  · intro hfits
    have hfrontLen : begin - data = front.length := by omega
    have hbackLen : data + n - stop = back.length := by omega
    refine ⟨_, ?_, hvalue, at_moved m newData front w back, fun a ha => moved_outside ha⟩
    unfold httpModifyStream
    rw [if_neg hchecks, if_neg (by omega), hfrontLen, hbackLen]
    exact three_moves h (by omega) _
  · intro hlong
    unfold httpModifyStream
    rw [if_neg hchecks, if_pos (by omega)]

/-- A text of two bytes with two bytes of room behind it, and two bytes to put between them. -/
def twoBytes : Memory Byte := Memory.ofList [0, 97, 98, 0, 0, 0, 120, 121]

theorem twoBytes_call : Call twoBytes [97] [] [98] [120, 121] 1 1 6 4 where
  text := by decide
  nonempty := by decide
  replacement := by decide
  target := (show twoBytes.At 1 [97, 98, 0, 0] by decide).room
  data_pos := by decide
  newData_pos := by decide
  aliased := Or.inl rfl
  new_data := by decide
  new_target := by decide

/-- The text grows in its own buffer. -/
theorem splice_grows :
    ∃ m', httpModifyStream twoBytes 1 4 1 2 2 2 6 2 = some (4, m') ∧ m'.At 1 [97, 120, 121, 98] ∧
      ∀ a, a < 1 ∨ 5 ≤ a → m' a = twoBytes a := by
  obtain ⟨m', hrun, -, hat, houtside⟩ := (splice twoBytes_call (show (4 : Int) ≤ 4 by decide)).1 (by decide)
  exact ⟨m', hrun, hat, houtside⟩

/-- **The other model** of the function has the same result, and leaves the same in the target. -/
theorem splice_edit {s : EditStream} (h : Call m front old back w newData data new s.newData.size)
    (hs : s.data = front ++ old ++ back) : ∃ r m' b,
    httpModifyStream m newData s.newData.size data s.dataLen (data + front.length)
      (data + front.length + old.length) new w.length = some (r, m') ∧
    s.httpModifyStream front.length (front.length + old.length) w w.length = some (r, b) ∧
    (r = -1 ∧ m' = m ∧ b = s.newData ∨ 0 ≤ r ∧ m'.At newData (b.read 0 r.toNat)) := by
  have hlen : s.dataLen = (front ++ old ++ back).length := by rw [← hs, s.data_length]
  have hsize : (front ++ w ++ back).length = front.length + w.length + back.length := by
    rw [List.length_append, List.length_append]
  obtain ⟨hfits, hlong⟩ := splice h (Int.le_refl _)
  rw [hlen]
  rcases s.httpModifyStream_data hs w (List.length_pos_iff.mpr h.nonempty) with ⟨hlt, hfail⟩ | ⟨hle, b, hok, hb⟩
  · exact ⟨-1, m, s.newData, hlong (by omega), hfail, Or.inl ⟨rfl, rfl, rfl⟩⟩
  · obtain ⟨m', hrun, hvalue, hat, -⟩ := hfits (by omega)
    refine ⟨_, m', b, hvalue ▸ hrun, hok, Or.inr ⟨Int.natCast_nonneg _, ?_⟩⟩
    rw [Int.toNat_natCast, hb]
    exact hat

end

end WafProxy.Splice
