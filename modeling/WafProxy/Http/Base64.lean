import WafProxy.Http.Decode

/-
  The base64 encoding and its decoder — base64.c

  `b64_decode` may be given one buffer as its source and its target: what it
  writes stands in front of what it has still to read.

  What is proved:
    1. `b64DecodeInplace_eq` — decoding a buffer over itself gives what decoding
       a copy of it gives.
    2. `b64Decode_base64` — decoding the encoding of a text over itself gives the
       text back.

  Correspondence (C ↔ Lean):
    `Base64[]`, `Base64[output[i]]`        ↔ `Base64`, `base64Char`
    `output[0..3]`                         ↔ `output`
    `b64_encode`                           ↔ `b64Encode`
    `b64_decode(p, p, n)`                  ↔ `b64DecodeInplace`
-/

namespace WafProxy
open Lib

/-! ## The encoder -/

def Base64 : List Byte := str "ABCDEFGHIJKLMNOPQRSTUVWXYZabcdefghijklmnopqrstuvwxyz0123456789+/"

def base64Char (v : Byte) : Byte := Base64.getD v.toNat 0

/-- `output[1]`: the last bits of one byte and the first of the next. -/
def output1 (a b : Byte) : Byte := ((a &&& 3) <<< 4) + (b >>> 4)

def output2 (b c : Byte) : Byte := ((b &&& 0x0f) <<< 2) + (c >>> 6)

/-- The four values three bytes are cut into. -/
def output (a b c : Byte) : List Byte := [a >>> 2, output1 a b, output2 b c, c &&& 0x3f]

/-- What is left over at the end of the text, `input` being filled up with NULs. -/
def base64Rest : List Byte → List Byte
  | [] => []
  | [a] => ((output a 0 0).take 2).map base64Char ++ [ch '=', ch '=']
  | a :: b :: _ => ((output a b 0).take 3).map base64Char ++ [ch '=']

/-- The loop of `b64_encode` and what follows it; `none` is the return value -1. -/
def b64EncodeLoop (targsize : Nat) : List Byte → List Byte → Option (List Byte)
  | a :: b :: c :: src, target =>
    if targsize < target.length + 4 then none
    else b64EncodeLoop targsize src (target ++ (output a b c).map base64Char)
  | src, target =>
    if src ≠ [] ∧ targsize < target.length + 4 then none
    else if targsize ≤ (target ++ base64Rest src).length then none
    else some (target ++ base64Rest src)

/-- `b64_encode(src, srclength, target, targsize)`: the text in `target`. -/
def b64Encode (src : List Byte) (targsize : Nat) : Option (List Byte) := b64EncodeLoop targsize src []

/-- The base64 text of a list of bytes. -/
def base64 : List Byte → List Byte
  | a :: b :: c :: src => (output a b c).map base64Char ++ base64 src
  | src => base64Rest src

theorem base64Rest_length {src : List Byte} (hne : src ≠ []) : (base64Rest src).length = 4 := by
  rcases src with _ | ⟨a, _ | ⟨b, src⟩⟩
  · exact absurd rfl hne
  · rfl
  · rfl

theorem b64EncodeLoop_eq (targsize : Nat) (src : List Byte) : ∀ target : List Byte,
    (target ++ base64 src).length < targsize → b64EncodeLoop targsize src target = some (target ++ base64 src) := by
  induction src using base64.induct with
  | case1 a b c src ih =>
    intro target h
    have hlen := h
    rw [base64, List.length_append, List.length_append, List.length_map] at hlen
    have hfour : (output a b c).length = 4 := rfl
    rw [b64EncodeLoop, if_neg (by omega), ih _ (by rwa [List.append_assoc, ← base64]), base64, List.append_assoc]
  | case2 src hsrc =>
    intro target h
    have hrest : base64 src = base64Rest src := base64.eq_2 src hsrc
    rw [hrest] at h ⊢
    have hroom : ¬ (src ≠ [] ∧ targsize < target.length + 4) := by
      rintro ⟨hne, hlt⟩
      rw [List.length_append, base64Rest_length hne] at h
      omega
    rw [b64EncodeLoop.eq_2 _ _ _ hsrc, if_neg hroom, if_neg (by omega)]

/-- **`b64_encode` stores the base64 text** where the target has room for it. -/
theorem b64Encode_eq {src : List Byte} {targsize : Nat} (h : (base64 src).length < targsize) :
    b64Encode src targsize = some (base64 src) := b64EncodeLoop_eq targsize src [] h

/-! ## One character -/

/-- What a character of the alphabet is to the decoder. -/
theorem base64Char_value : ∀ v : Byte, v < 64 → isspace (base64Char v) = false ∧ base64Char v ≠ ch '=' ∧
    base64Value (base64Char v) = some (v.toNat : Int) ∧ base64Char v ≠ 0 := by
  apply forall_byte
  decide +kernel

/-- The `switch` of `b64_decode` on the value of a character. -/
def b64Switch (targsize : Nat) (src : List Byte) (v : Byte) (state tarindex : Nat) (target : List Byte) :
    Option (Int × List Byte) :=
  match state with
  | 0 =>
    if targsize ≤ tarindex then some (-1, target)
    else b64DecodeLoop targsize src 1 tarindex (target.set tarindex (v <<< 2))
  | 1 =>
    if targsize ≤ tarindex + 1 then some (-1, target)
    else b64DecodeLoop targsize src 2 (tarindex + 1)
      ((target.set tarindex (target.getD tarindex 0 ||| v >>> 4)).set (tarindex + 1) ((v &&& 0x0f) <<< 4))
  | 2 =>
    if targsize ≤ tarindex + 1 then some (-1, target)
    else b64DecodeLoop targsize src 3 (tarindex + 1)
      ((target.set tarindex (target.getD tarindex 0 ||| v >>> 2)).set (tarindex + 1) ((v &&& 0x03) <<< 6))
  | _ =>
    if targsize ≤ tarindex then some (-1, target)
    else b64DecodeLoop targsize src 0 (tarindex + 1) (target.set tarindex (target.getD tarindex 0 ||| v))

theorem b64DecodeLoop_char {v : Byte} (hv : v < 64) (targsize : Nat) (src : List Byte) (state tarindex : Nat)
    (target : List Byte) : b64DecodeLoop targsize (base64Char v :: src) state tarindex target =
      b64Switch targsize src v state tarindex target := by
  obtain ⟨hspace, hpad, hvalue, -⟩ := base64Char_value v hv
  have hpos : (v.toNat : Int) ≠ -1 := by omega
  have hbyte : ((v.toNat : Int).toNat).toUInt8 = v := UInt8.ofNat_toNat
  rw [b64DecodeLoop, if_neg (by rw [hspace]; exact Bool.false_ne_true), if_neg hpad, hvalue]
  dsimp only
  rw [if_neg hpos, hbyte]
  rfl

/-! ## The bits of a group -/

/-- The shifts and masks of the encoder and the decoder, as numbers. -/
theorem bits_toNat : ∀ v : Byte, (v >>> 2).toNat = v.toNat / 4 ∧ (v >>> 4).toNat = v.toNat / 16 ∧
    (v >>> 6).toNat = v.toNat / 64 ∧ (v &&& 3).toNat = v.toNat % 4 ∧ (v &&& 0x0f).toNat = v.toNat % 16 ∧
    (v &&& 0x3f).toNat = v.toNat % 64 ∧ ((v &&& 3) <<< 4).toNat = v.toNat % 4 * 16 ∧
    ((v &&& 0x0f) <<< 2).toNat = v.toNat % 16 * 4 := by
  apply forall_byte
  decide +kernel

/-- The two parts of a byte, put together again. -/
theorem bits_join : ∀ v : Byte, v >>> 2 <<< 2 ||| (v &&& 3) = v ∧ v >>> 4 <<< 4 ||| (v &&& 0x0f) = v ∧
    v >>> 6 <<< 6 ||| (v &&& 0x3f) = v := by
  apply forall_byte
  decide +kernel

section
variable (a b c : Byte)

theorem output1_toNat : (output1 a b).toNat = a.toNat % 4 * 16 + b.toNat / 16 := by
  obtain ⟨-, -, -, -, -, -, hlow, -⟩ := bits_toNat a
  obtain ⟨-, hhigh, -⟩ := bits_toNat b
  have ha := a.toNat_lt
  have hb := b.toNat_lt
  rw [output1, UInt8.toNat_add, hlow, hhigh]
  omega

theorem output2_toNat : (output2 b c).toNat = b.toNat % 16 * 4 + c.toNat / 64 := by
  obtain ⟨-, -, -, -, -, -, -, hlow⟩ := bits_toNat b
  obtain ⟨-, -, hhigh, -⟩ := bits_toNat c
  have hb := b.toNat_lt
  have hc := c.toNat_lt
  rw [output2, UInt8.toNat_add, hlow, hhigh]
  omega

/-- The values are 6 bits wide. -/
theorem output_lt : ∀ v ∈ output a b c, v < 64 := by
  have ha := a.toNat_lt
  have hb := b.toNat_lt
  have hc := c.toNat_lt
  obtain ⟨hfirst, -⟩ := bits_toNat a
  obtain ⟨-, -, -, -, -, hlast, -⟩ := bits_toNat c
  have hsecond := output1_toNat a b
  have hthird := output2_toNat b c
  have h64 : (64 : Byte).toNat = 64 := rfl
  intro v hv
  rw [UInt8.lt_iff_toNat_lt, h64]
  simp only [output, List.mem_cons, List.not_mem_nil, or_false] at hv
  rcases hv with rfl | rfl | rfl | rfl
  · omega
  · omega
  · omega
  · omega

/-- What the decoder takes from the second value, for the first byte and for the second. -/
theorem output1_split : output1 a b >>> 4 = a &&& (3 : Byte) ∧ output1 a b &&& (0x0f : Byte) = b >>> 4 := by
  have ha := a.toNat_lt
  have hb := b.toNat_lt
  have hvalue := output1_toNat a b
  obtain ⟨-, hquot, -, -, hrem, -⟩ := bits_toNat (output1 a b)
  obtain ⟨-, -, -, hlow, -⟩ := bits_toNat a
  obtain ⟨-, hhigh, -⟩ := bits_toNat b
  constructor
  · apply UInt8.toNat_inj.mp
    omega
  · apply UInt8.toNat_inj.mp
    omega

theorem output2_split : output2 b c >>> 2 = b &&& (0x0f : Byte) ∧ output2 b c &&& (3 : Byte) = c >>> 6 := by
  have hb := b.toNat_lt
  have hc := c.toNat_lt
  have hvalue := output2_toNat b c
  obtain ⟨hquot, -, -, hrem, -⟩ := bits_toNat (output2 b c)
  obtain ⟨-, -, -, -, hlow, -⟩ := bits_toNat b
  obtain ⟨-, -, hhigh, -⟩ := bits_toNat c
  constructor
  · apply UInt8.toNat_inj.mp
    omega
  · apply UInt8.toNat_inj.mp
    omega

end

/-! ## The decoder -/

section
variable {targsize : Nat} (a b c : Byte) (src done rest : List Byte) (x y z : Byte)

/-- The cells behind what has been decoded. -/
theorem set_behind (v : Byte) : (done ++ x :: rest).set done.length v = done ++ v :: rest := by
  simp

theorem getD_behind : (done ++ x :: rest).getD done.length 0 = x := by
  simp

theorem set_second (v : Byte) : (done ++ x :: y :: rest).set (done.length + 1) v = done ++ x :: v :: rest := by
  simp

/-- The first two characters of a group: a byte, and the first bits of the next one. -/
theorem b64DecodeLoop_two (h : done.length + 1 < targsize) :
    b64DecodeLoop targsize (base64Char (a >>> 2) :: base64Char (output1 a b) :: src) 0 done.length
      (done ++ x :: y :: rest) =
      b64DecodeLoop targsize src 2 (done.length + 1) (done ++ a :: b >>> 4 <<< 4 :: rest) := by
  have hlt := output_lt a b 0
  obtain ⟨hquot, hrem⟩ := output1_split a b
  rw [b64DecodeLoop_char (hlt _ (by simp [output])), b64Switch]
  rw [if_neg (by omega), set_behind, b64DecodeLoop_char (hlt _ (by simp [output])), b64Switch]
  rw [if_neg (by omega), getD_behind, set_behind, set_second, hquot, hrem, (bits_join a).1]

/-- The third character: the second byte, and the first bits of the third. -/
theorem b64DecodeLoop_third (h : done.length + 1 < targsize) :
    b64DecodeLoop targsize (base64Char (output2 b c) :: src) 2 done.length (done ++ b >>> 4 <<< 4 :: y :: rest) =
      b64DecodeLoop targsize src 3 (done.length + 1) (done ++ b :: c >>> 6 <<< 6 :: rest) := by
  have hlt := output_lt 0 b c
  obtain ⟨hquot, hrem⟩ := output2_split b c
  rw [b64DecodeLoop_char (hlt _ (by simp [output])), b64Switch]
  rw [if_neg (by omega), getD_behind, set_behind, set_second, hquot, hrem, (bits_join b).2.1]

theorem b64DecodeLoop_fourth (h : done.length < targsize) :
    b64DecodeLoop targsize (base64Char (c &&& 0x3f) :: src) 3 done.length (done ++ c >>> 6 <<< 6 :: rest) =
      b64DecodeLoop targsize src 0 (done.length + 1) (done ++ c :: rest) := by
  have hlt := output_lt 0 0 c
  rw [b64DecodeLoop_char (hlt _ (by simp [output])), b64Switch]
  · rw [if_neg (by omega), getD_behind, set_behind, (bits_join c).2.2]
  all_goals decide

/-- **A group of four characters gives its three bytes.** -/
theorem b64DecodeLoop_group (h : done.length + 2 < targsize) :
    b64DecodeLoop targsize ((output a b c).map base64Char ++ src) 0 done.length (done ++ x :: y :: z :: rest) =
      b64DecodeLoop targsize src 0 (done.length + 3) (done ++ [a, b, c] ++ rest) := by
  have hone : done ++ a :: b >>> 4 <<< 4 :: z :: rest = (done ++ [a]) ++ b >>> 4 <<< 4 :: z :: rest := by simp
  have htwo : (done ++ [a]) ++ b :: c >>> 6 <<< 6 :: rest = (done ++ [a, b]) ++ c >>> 6 <<< 6 :: rest := by simp
  have hlen : done.length + 1 = (done ++ [a]).length := by simp
  have hlen' : (done ++ [a]).length + 1 = (done ++ [a, b]).length := by simp
  show b64DecodeLoop targsize (base64Char (a >>> 2) :: base64Char (output1 a b) :: base64Char (output2 b c) ::
    base64Char (c &&& 0x3f) :: src) 0 done.length (done ++ x :: y :: z :: rest) = _
  rw [b64DecodeLoop_two _ _ _ _ _ _ _ (by omega), hone, hlen, b64DecodeLoop_third _ _ _ _ _ _ (by omega), htwo,
    hlen', b64DecodeLoop_fourth _ _ _ _ (by rw [← hlen', ← hlen]; omega)]
  simp

/-- One byte at the end of the text: the bits behind it are 0, as the padding asks for. -/
theorem b64DecodeLoop_one (h : done.length + 1 < targsize) :
    b64DecodeLoop targsize (base64Rest [a]) 0 done.length (done ++ x :: y :: rest) =
      some (((done.length + 1 : Nat) : Int), done ++ [a] ++ 0 :: rest) := by
  have hzero : (0 : Byte) >>> 4 <<< 4 = 0 := by decide
  have hcells : done ++ a :: 0 :: rest = (done ++ [a]) ++ 0 :: rest := by simp
  have hpad : b64Pad 2 (done ++ [a]).length [ch '='] ((done ++ [a]) ++ 0 :: rest) =
      ((done ++ [a]).length : Int) := by
    have hdrop : [ch '='].dropWhile isspace = [ch '='] := by decide
    rw [b64Pad, hdrop]
    dsimp only
    rw [if_pos rfl, getD_behind, if_pos (by decide)]
  show b64DecodeLoop targsize (base64Char (a >>> 2) :: base64Char (output1 a 0) :: [ch '=', ch '=']) 0
    done.length _ = _
  have hlen : done.length + 1 = (done ++ [a]).length := by simp
  rw [b64DecodeLoop_two _ _ _ _ _ _ _ h, hzero, hcells, hlen, b64DecodeLoop, if_neg (by decide), if_pos rfl, hpad]

theorem b64DecodeLoop_pair (h : done.length + 2 < targsize) :
    b64DecodeLoop targsize (base64Rest [a, b]) 0 done.length (done ++ x :: y :: z :: rest) =
      some (((done.length + 2 : Nat) : Int), done ++ [a, b] ++ 0 :: rest) := by
  have hzero : (0 : Byte) >>> 6 <<< 6 = 0 := by decide
  have hone : done ++ a :: b >>> 4 <<< 4 :: z :: rest = (done ++ [a]) ++ b >>> 4 <<< 4 :: z :: rest := by simp
  have htwo : (done ++ [a]) ++ b :: 0 :: rest = (done ++ [a, b]) ++ 0 :: rest := by simp
  have hlen : done.length + 1 = (done ++ [a]).length := by simp
  have hlen' : (done ++ [a]).length + 1 = (done ++ [a, b]).length := by simp
  have hpad : b64Pad 3 (done ++ [a, b]).length [] ((done ++ [a, b]) ++ 0 :: rest) =
      ((done ++ [a, b]).length : Int) := by
    rw [b64Pad]
    dsimp only
    rw [getD_behind, if_pos (by decide)]
  show b64DecodeLoop targsize (base64Char (a >>> 2) :: base64Char (output1 a b) :: base64Char (output2 b 0) ::
    [ch '=']) 0 done.length _ = _
  rw [b64DecodeLoop_two _ _ _ _ _ _ _ (by omega), hone, hlen, b64DecodeLoop_third _ _ _ _ _ _ (by omega), hzero,
    htwo, hlen', b64DecodeLoop, if_neg (by decide), if_pos rfl, hpad]
  simp

end

/-- The cells a group is decoded into. -/
theorem three_cells {tail : List Byte} (h : 4 ≤ tail.length) : ∃ x y z rest, tail = x :: y :: z :: rest := by
  rcases tail with _ | ⟨x, _ | ⟨y, _ | ⟨z, rest⟩⟩⟩
  · exact absurd h (by simp)
  · exact absurd h (by simp)
  · exact absurd h (by simp)
  · exact ⟨x, y, z, rest, rfl⟩

/-- **What is decoded of a base64 text**, group by group. -/
theorem b64DecodeLoop_base64 {targsize : Nat} (l : List Byte) : ∀ done tail : List Byte,
    (base64 l).length ≤ tail.length → done.length + tail.length ≤ targsize →
    ∃ tail', b64DecodeLoop targsize (base64 l) 0 done.length (done ++ tail) =
      some (((done.length + l.length : Nat) : Int), done ++ l ++ tail') := by
  induction l using base64.induct with
  | case1 a b c src ih =>
    intro done tail htail hroom
    have hfour : ((output a b c).map base64Char).length = 4 := rfl
    rw [base64, List.length_append, hfour] at htail
    obtain ⟨x, y, z, rest, rfl⟩ := three_cells (show 4 ≤ tail.length by omega)
    simp only [List.length_cons] at htail hroom
    obtain ⟨tail', hrun⟩ := ih (done ++ [a, b, c]) rest (by omega) (by
      simp only [List.length_append, List.length_cons, List.length_nil]
      omega)
    refine ⟨tail', ?_⟩
    rw [base64, b64DecodeLoop_group a b c _ done rest x y z (by omega)]
    have hlen : (done ++ [a, b, c]).length = done.length + 3 := by simp
    rw [hlen] at hrun
    rw [hrun]
    simp only [List.length_cons, List.append_assoc, List.cons_append, List.nil_append]
    congr 3
    omega
  | case2 src hsrc =>
    intro done tail htail hroom
    rw [base64.eq_2 src hsrc] at htail ⊢
    rcases src with _ | ⟨a, _ | ⟨b, _ | ⟨c, src⟩⟩⟩
    · exact ⟨tail, by simp [base64Rest, b64DecodeLoop]⟩
    · rw [base64Rest_length (List.cons_ne_nil a [])] at htail
      obtain ⟨x, y, z, rest, rfl⟩ := three_cells htail
      simp only [List.length_cons] at hroom
      exact ⟨_, b64DecodeLoop_one a done _ x y (by omega)⟩
    · rw [base64Rest_length (List.cons_ne_nil a [b])] at htail
      obtain ⟨x, y, z, rest, rfl⟩ := three_cells htail
      simp only [List.length_cons] at hroom
      exact ⟨_, b64DecodeLoop_pair a b done _ x y z (by omega)⟩
    · exact absurd rfl (hsrc a b c src)

/-- **The encoding of a text, decoded over itself, is the text.** -/
theorem b64Decode_base64 (l : List Byte) : ∃ tail,
    b64Decode (base64 l) (base64 l) (base64 l).length = some ((l.length : Int), l ++ tail) := by
  obtain ⟨tail, h⟩ := @b64DecodeLoop_base64 (base64 l).length l [] (base64 l) (Nat.le_refl _) (by simp)
  refine ⟨tail, ?_⟩
  rw [List.length_nil, Nat.zero_add] at h
  exact h

/-! ## Over itself -/

/-- The loop of `b64_decode` when source and target are one buffer `p[0..len)` with a NUL behind
it; `i` is the index that is read next. -/
def b64DecodeInplaceLoop (targsize : Nat) : Nat → Nat → Nat → Nat → List Byte → Option (Int × List Byte)
  | 0, _, state, tarindex, p => some (if state ≠ 0 then -1 else tarindex, p)
  | n + 1, i, state, tarindex, p =>
    let c := p.getD i 0
    if c = 0 then some (if state ≠ 0 then -1 else tarindex, p)
    else if isspace c then b64DecodeInplaceLoop targsize n (i + 1) state tarindex p
    else if c = ch '=' then some (b64Pad state tarindex ((p.drop (i + 1)).takeWhile (· ≠ 0)) p, p)
    else
      match base64Value c with
      | none => none
      | some pos =>
        if pos = -1 then some (-1, p)
        else
          let v := pos.toNat.toUInt8
          let old := p.getD tarindex 0
          match state with
          | 0 =>
            if targsize ≤ tarindex then some (-1, p)
            else b64DecodeInplaceLoop targsize n (i + 1) 1 tarindex (p.set tarindex (v <<< 2))
          | 1 =>
            if targsize ≤ tarindex + 1 then some (-1, p)
            else b64DecodeInplaceLoop targsize n (i + 1) 2 (tarindex + 1)
              ((p.set tarindex (old ||| v >>> 4)).set (tarindex + 1) ((v &&& 0x0f) <<< 4))
          | 2 =>
            if targsize ≤ tarindex + 1 then some (-1, p)
            else b64DecodeInplaceLoop targsize n (i + 1) 3 (tarindex + 1)
              ((p.set tarindex (old ||| v >>> 2)).set (tarindex + 1) ((v &&& 0x03) <<< 6))
          | _ =>
            if targsize ≤ tarindex then some (-1, p)
            else b64DecodeInplaceLoop targsize n (i + 1) 0 (tarindex + 1) (p.set tarindex (old ||| v))

def b64DecodeInplace (p : List Byte) (targsize : Nat) : Option (Int × List Byte) :=
  b64DecodeInplaceLoop targsize p.length 0 0 0 p

/-- The cells written stand in front of the next one to read. -/
def Behind (state tarindex i : Nat) : Prop := if state = 0 then tarindex ≤ i else tarindex + 1 ≤ i

theorem Behind.mono {state tarindex i i' : Nat} (h : Behind state tarindex i) (hle : i ≤ i') :
    Behind state tarindex i' := by
  unfold Behind at h ⊢
  split at h
  · next hzero =>
    rw [if_pos hzero]
    omega
  · next hne =>
    rw [if_neg hne]
    omega

theorem b64DecodeInplaceLoop_eq (targsize : Nat) (n : Nat) : ∀ {i state tarindex : Nat} {p : List Byte},
    i + n = p.length → Behind state tarindex i →
    b64DecodeInplaceLoop targsize n i state tarindex p =
      b64DecodeLoop targsize ((p.drop i).takeWhile (· ≠ 0)) state tarindex p := by
  induction n with
  | zero =>
    intro i state tarindex p hlen _
    rw [List.drop_eq_nil_of_le (by omega)]
    rfl
  | succ n ih =>
    intro i state tarindex p hlen hbehind
    have hi : i < p.length := by omega
    have hdrop : p.drop i = p[i] :: p.drop (i + 1) := List.drop_eq_getElem_cons hi
    have hget : p.getD i 0 = p[i] := by simp [hi]
    -- a write in front of the next cell leaves what is still to be read
    have hset : ∀ {q : List Byte} {k : Nat} (v : Byte), k ≤ i → (q.set k v).drop (i + 1) = q.drop (i + 1) :=
      fun v hk => List.drop_set_of_lt (Nat.lt_succ_of_le hk)
    have hnext : ∀ {state tarindex : Nat} {q : List Byte}, q.length = p.length → q.drop (i + 1) = p.drop (i + 1) →
        Behind state tarindex (i + 1) → b64DecodeInplaceLoop targsize n (i + 1) state tarindex q =
          b64DecodeLoop targsize ((p.drop (i + 1)).takeWhile (· ≠ 0)) state tarindex q := by
      intro state tarindex q hq hsame hbehind'
      rw [ih (by omega) hbehind', hsame]
    rw [hdrop, b64DecodeInplaceLoop, hget]
    dsimp only
    by_cases hnul : p[i] = 0
    · rw [if_pos hnul, List.takeWhile_cons_of_neg (by simp [hnul])]
      rfl
    rw [if_neg hnul, List.takeWhile_cons_of_pos (by simp [hnul]), b64DecodeLoop]
    by_cases hspace : isspace p[i] = true
    · rw [if_pos hspace, if_pos hspace]
      exact hnext rfl rfl (hbehind.mono (Nat.le_succ i))
    rw [if_neg hspace, if_neg hspace]
    by_cases hpad : p[i] = ch '='
    · rw [if_pos hpad, if_pos hpad]
    rw [if_neg hpad, if_neg hpad]
    cases base64Value p[i] with
    | none => rfl
    | some pos =>
      dsimp only
      by_cases hbad : pos = -1
      · rw [if_pos hbad, if_pos hbad]
      rw [if_neg hbad, if_neg hbad]
      match state, hbehind with
      | 0, hbehind =>
        have hle : tarindex ≤ i := hbehind
        have hcall := fun v => @hnext 1 tarindex (p.set tarindex v) (by simp) (hset v hle) (Nat.succ_le_succ hle)
        simp only [hcall]
      | 1, hbehind =>
        have hle : tarindex + 1 ≤ i := hbehind
        have hcall := fun v w => @hnext 2 (tarindex + 1) ((p.set tarindex v).set (tarindex + 1) w) (by simp)
          ((hset w hle).trans (hset v (by omega))) (Nat.succ_le_succ hle)
        simp only [hcall]
      | 2, hbehind =>
        have hle : tarindex + 1 ≤ i := hbehind
        have hcall := fun v w => @hnext 3 (tarindex + 1) ((p.set tarindex v).set (tarindex + 1) w) (by simp)
          ((hset w hle).trans (hset v (by omega))) (Nat.succ_le_succ hle)
        simp only [hcall]
      | state + 3, hbehind =>
        have hle : tarindex + 1 ≤ i := hbehind
        have hcall := fun v => @hnext 0 (tarindex + 1) (p.set tarindex v) (by simp) (hset v (by omega))
          (Nat.le_succ_of_le hle)
        simp only [hcall]

/-- **Decoding over itself gives what decoding a copy gives.** -/
theorem b64DecodeInplace_eq (p : List Byte) (targsize : Nat) :
    b64DecodeInplace p targsize = b64Decode (p.takeWhile (· ≠ 0)) p targsize :=
  b64DecodeInplaceLoop_eq targsize p.length (Nat.zero_add _) (Nat.le_refl 0)

end WafProxy
