import WafProxy.Http.BasicAuth

/-
  Base64 texts — what `b64_decode` accepts

  `b64_decode` skips white space, asks for the padding at the end of the text and
  for zeros in the bits that the padding stands for. So every list of bytes has
  one text that is decoded to it, up to white space, and nothing else is decoded.

  What is proved:
    1. `b64DecodeLoop_graphic` — white space changes nothing, in the padding either.
    2. `accepted_group` — what the decoder reads before it is back between two
       bytes: the end, a padded group, or four characters.
    3. `b64DecodeLoop_sound`, `b64DecodeLoop_complete` — an accepted text is the
       base64 text of what is decoded, and a base64 text is accepted where the
       target has room, both by induction on the groups.
    4. `b64Decode_language` — the texts that are decoded, and what to;
       `b64DecodeInplace_language` — the same for a buffer decoded over itself.
    5. `parseAu_layout` — `parse_au` records the same credentials for every layout of
       their base64 text.

  Correspondence (C ↔ Lean):
    `b64_decode(src, target, targsize)`   ↔ `b64Decode`
    `b64_decode(p, p, n)`                 ↔ `b64DecodeInplace`
    `parse_au`, the branch of `Basic`     ↔ `parseAu`, `parseBasic`
-/

namespace WafProxy
open Lib

/-! ## White space -/

/-- A text without its white space. -/
def graphic (src : List Byte) : List Byte := src.filter fun c => !isspace c

theorem graphic_cons (c : Byte) (src : List Byte) :
    graphic (c :: src) = if isspace c then graphic src else c :: graphic src := by
  unfold graphic
  cases hc : isspace c with
  | true => simp [hc]
  | false => simp [hc]

theorem graphic_graphic (src : List Byte) : graphic (graphic src) = graphic src := by
  simp [graphic, List.filter_filter]

theorem all_isspace (src : List Byte) : src.all isspace = true ↔ graphic src = [] := by
  simp [graphic]

theorem dropWhile_graphic (src : List Byte) :
    match src.dropWhile isspace with
    | [] => graphic src = []
    | c :: rest => isspace c = false ∧ graphic src = c :: graphic rest := by
  induction src with
  | nil => rfl
  | cons c src ih =>
    rw [List.dropWhile_cons]
    cases hc : isspace c with
    | true =>
      rw [if_pos rfl, graphic_cons, if_pos hc]
      exact ih
    | false =>
      have hne : ¬ isspace c = true := by
        rw [hc]
        exact Bool.false_ne_true
      rw [if_neg Bool.false_ne_true, graphic_cons, if_neg hne]
      exact ⟨hc, rfl⟩

/-- What the padding asks for. -/
theorem b64Pad_eq (state tarindex : Nat) (src target : List Byte) : b64Pad state tarindex src target =
    if (state = 2 ∧ graphic src = [ch '='] ∨ state = 3 ∧ graphic src = []) ∧ target.getD tarindex 0 = 0
    then (tarindex : Int) else -1 := by
  have hspaces := dropWhile_graphic src
  unfold b64Pad
  dsimp only
  split
  · split
    · next c rest hdrop =>
      rw [hdrop] at hspaces
      obtain ⟨hc, hgraphic⟩ := hspaces
      rw [hgraphic]
      by_cases hpad : c = ch '='
      · simp only [hpad, all_isspace, List.cons.injEq, true_and, if_true, Nat.reduceEqDiff, false_and, or_false]
      · simp only [hpad, List.cons.injEq, false_and, and_false, if_false, Nat.reduceEqDiff, or_false]
    · next hdrop =>
      rw [hdrop] at hspaces
      simp [hspaces]
  · simp only [all_isspace, Nat.reduceEqDiff, false_and, false_or, true_and]
  · next htwo hthree =>
    have hstate : ¬ (state = 2 ∧ graphic src = [ch '='] ∨ state = 3 ∧ graphic src = []) := by
      intro h
      rcases h with h | h
      · exact htwo h.1
      · exact hthree h.1
    rw [if_neg fun h => hstate h.1]

/-- **White space changes nothing.** -/
theorem b64DecodeLoop_graphic (targsize : Nat) (src : List Byte) : ∀ (state tarindex : Nat) (target : List Byte),
    b64DecodeLoop targsize src state tarindex target =
      b64DecodeLoop targsize (graphic src) state tarindex target := by
  induction src with
  | nil => exact fun _ _ _ => rfl
  | cons c src ih =>
    intro state tarindex target
    rw [graphic_cons]
    by_cases hspace : isspace c = true
    · rw [if_pos hspace, b64DecodeLoop, if_pos hspace]
      exact ih state tarindex target
    · rw [if_neg hspace, b64DecodeLoop, b64DecodeLoop, if_neg hspace, if_neg hspace]
      have hpad : b64Pad state tarindex (graphic src) target = b64Pad state tarindex src target := by
        rw [b64Pad_eq, b64Pad_eq, graphic_graphic]
      simp only [hpad, ih]

/-! ## What is accepted -/

/-- A character that has a value is one of the alphabet. -/
theorem base64Value_char : ∀ c : Byte, isspace c = false → c ≠ ch '=' → ∀ pos, base64Value c = some pos → pos ≠ -1 →
    base64Char pos.toNat.toUInt8 = c ∧ pos.toNat.toUInt8 < 64 := by
  have hbytes : ∀ c : Byte, isspace c = true ∨ c = ch '=' ∨ base64Value c = none ∨ base64Value c = some (-1) ∨
      ((base64Value c).map fun pos => base64Char pos.toNat.toUInt8) = some c ∧
        ((base64Value c).map fun pos => decide (pos.toNat.toUInt8 < 64)) = some true := by
    apply forall_byte
    decide +kernel
  intro c hspace hpad pos hpos hne
  rcases hbytes c with h | h | h | h | h
  · rw [hspace] at h
    cases h
  · exact absurd h hpad
  · rw [hpos] at h
    cases h
  · rw [hpos] at h
    exact absurd (Option.some.inj h) hne
  · rw [hpos] at h
    exact ⟨Option.some.inj h.1, of_decide_eq_true (Option.some.inj h.2)⟩

/-- The texts behind a `=` that are accepted. -/
def Padding (state : Nat) (src : List Byte) : Prop :=
  state = 2 ∧ src = [ch '=', ch '='] ∨ state = 3 ∧ src = [ch '=']

section
variable {targsize : Nat} {r : Int} {t' : List Byte}

/-- What an accepted text begins with. -/
theorem accepted_step {src target : List Byte} {state tarindex : Nat} (hsrc : graphic src = src)
    (h : b64DecodeLoop targsize src state tarindex target = some (r, t')) (hr : 0 ≤ r) :
    src = [] ∧ state = 0 ∨ Padding state src ∨
      ∃ v rest, v < 64 ∧ graphic rest = rest ∧ src = base64Char v :: rest ∧
        b64Switch targsize rest v state tarindex target = some (r, t') := by
  cases src with
  | nil =>
    refine Or.inl ⟨rfl, ?_⟩
    by_contra hstate
    rw [b64DecodeLoop, if_pos hstate] at h
    obtain ⟨rfl, -⟩ := Prod.mk.inj (Option.some.inj h)
    exact absurd hr (by decide)
  | cons c rest =>
    have hspace : isspace c = false := by
      have hmem : c ∈ graphic (c :: rest) := by
        rw [hsrc]
        exact List.mem_cons_self
      simpa using (List.mem_filter.mp hmem).2
    have hrest : graphic rest = rest := by
      rw [graphic_cons, if_neg (by rw [hspace]; exact Bool.false_ne_true)] at hsrc
      exact (List.cons.inj hsrc).2
    right
    by_cases hpad : c = ch '='
    · left
      rw [hpad, b64DecodeLoop, if_neg (by decide), if_pos rfl, b64Pad_eq, hrest] at h
      split at h
      · next hcond =>
        unfold Padding
        rw [hpad]
        rcases hcond.1 with ⟨hstate, rfl⟩ | ⟨hstate, rfl⟩
        · exact Or.inl ⟨hstate, rfl⟩
        · exact Or.inr ⟨hstate, rfl⟩
      · obtain ⟨rfl, -⟩ := Prod.mk.inj (Option.some.inj h)
        exact absurd hr (by decide)
    · right
      have hvalue := base64Value_char c hspace hpad
      have hrun := h
      rw [b64DecodeLoop, if_neg (by rw [hspace]; exact Bool.false_ne_true), if_neg hpad] at h
      cases hpos : base64Value c with
      | none =>
        rw [hpos] at h
        cases h
      | some pos =>
        rw [hpos] at h
        dsimp only at h
        by_cases hbad : pos = -1
        · rw [if_pos hbad] at h
          obtain ⟨rfl, -⟩ := Prod.mk.inj (Option.some.inj h)
          exact absurd hr (by decide)
        · obtain ⟨hchar, hlt⟩ := hvalue pos hpos hbad
          refine ⟨pos.toNat.toUInt8, rest, hlt, hrest, by rw [hchar], ?_⟩
          rw [← b64DecodeLoop_char hlt, hchar]
          exact hrun

/-- A text that is accepted has room in the target. -/
theorem accepted_room {c : Prop} [Decidable c] {target : List Byte} {x : Option (Int × List Byte)}
    (h : (if c then some (-1, target) else x) = some (r, t')) (hr : 0 ≤ r) : ¬ c ∧ x = some (r, t') := by
  by_cases hc : c
  · rw [if_pos hc] at h
    obtain ⟨rfl, -⟩ := Prod.mk.inj (Option.some.inj h)
    exact absurd hr (by decide)
  · rw [if_neg hc] at h
    exact ⟨hc, h⟩

/-- The front of an accepted text, between two bytes: the end, a padded group, or four characters. -/
inductive Front (targsize tarindex : Nat) : List Byte → Prop
  | done : Front targsize tarindex []
  | one (u v : Byte) (hu : u < 64) (hv : v < 64) (hroom : tarindex + 1 < targsize) :
      Front targsize tarindex [base64Char u, base64Char v, ch '=', ch '=']
  | two (u v w : Byte) (hu : u < 64) (hv : v < 64) (hw : w < 64) (hroom : tarindex + 2 < targsize) :
      Front targsize tarindex [base64Char u, base64Char v, base64Char w, ch '=']
  | three (u v w x : Byte) (rest : List Byte) (hu : u < 64) (hv : v < 64) (hw : w < 64) (hx : x < 64)
      (hroom : tarindex + 2 < targsize) (hrest : graphic rest = rest) :
      Front targsize tarindex (base64Char u :: base64Char v :: base64Char w :: base64Char x :: rest)

theorem accepted_group {src target : List Byte} {tarindex : Nat} (hsrc : graphic src = src)
    (h : b64DecodeLoop targsize src 0 tarindex target = some (r, t')) (hr : 0 ≤ r) :
    Front targsize tarindex src := by
  -- the first character
  rcases accepted_step hsrc h hr with ⟨rfl, -⟩ | hpad | ⟨u, rest1, hu, hrest1, rfl, hfirst⟩
  · exact .done
  · rcases hpad with ⟨hstate, -⟩ | ⟨hstate, -⟩ <;> cases hstate
  obtain ⟨-, hfirst⟩ := accepted_room hfirst hr
  -- the second
  rcases accepted_step hrest1 hfirst hr with ⟨-, hstate⟩ | hpad | ⟨v, rest2, hv, hrest2, rfl, hsecond⟩
  · cases hstate
  · rcases hpad with ⟨hstate, -⟩ | ⟨hstate, -⟩ <;> cases hstate
  obtain ⟨hroom, hsecond⟩ := accepted_room hsecond hr
  -- the third
  rcases accepted_step hrest2 hsecond hr with ⟨-, hstate⟩ | hpad | ⟨w, rest3, hw, hrest3, rfl, hthird⟩
  · cases hstate
  · rcases hpad with ⟨-, rfl⟩ | ⟨hstate, -⟩
    · exact .one u v hu hv (Nat.lt_of_not_le hroom)
    · cases hstate
  obtain ⟨hroom', hthird⟩ := accepted_room hthird hr
  have hlt : tarindex + 2 < targsize := Nat.lt_of_not_le hroom'
  -- the fourth
  rcases accepted_step hrest3 hthird hr with ⟨-, hstate⟩ | hpad | ⟨x, rest4, hx, hrest4, rfl, -⟩
  · cases hstate
  · rcases hpad with ⟨hstate, -⟩ | ⟨-, rfl⟩
    · cases hstate
    · exact .two u v w hu hv hw hlt
  · exact .three u v w x rest4 hu hv hw hx hlt hrest4

end

/-! ## The groups -/

/-- Four values are what three bytes are cut into. -/
theorem exists_output {u v w x : Byte} (hu : u < 64) (hv : v < 64) (hw : w < 64) (hx : x < 64) :
    ∃ a b c, output a b c = [u, v, w, x] := by
  have h64 : (64 : Byte).toNat = 64 := rfl
  rw [UInt8.lt_iff_toNat_lt, h64] at hu hv hw hx
  let a := UInt8.ofNat (u.toNat * 4 + v.toNat / 16)
  let b := UInt8.ofNat (v.toNat % 16 * 16 + w.toNat / 4)
  let c := UInt8.ofNat (w.toNat % 4 * 64 + x.toNat)
  have ha : a.toNat = u.toNat * 4 + v.toNat / 16 := by
    rw [UInt8.toNat_ofNat']
    omega
  have hb : b.toNat = v.toNat % 16 * 16 + w.toNat / 4 := by
    rw [UInt8.toNat_ofNat']
    omega
  have hc : c.toNat = w.toNat % 4 * 64 + x.toNat := by
    rw [UInt8.toNat_ofNat']
    omega
  have hfirst := (bits_toNat a).1
  have hsecond := output1_toNat a b
  have hthird := output2_toNat b c
  obtain ⟨-, -, -, -, -, hlast, -⟩ := bits_toNat c
  refine ⟨a, b, c, ?_⟩
  have h1 : a >>> 2 = u := UInt8.toNat_inj.mp (by omega)
  have h2 : output1 a b = v := UInt8.toNat_inj.mp (by omega)
  have h3 : output2 b c = w := UInt8.toNat_inj.mp (by omega)
  have h4 : c &&& 0x3f = x := UInt8.toNat_inj.mp (by omega)
  rw [output, h1, h2, h3, h4]

/-- With the last two values 0, the second byte has no bits but those in the second value. -/
theorem second_zero {a b c u v : Byte} (h : output a b c = [u, v, 0, 0]) (hzero : b >>> 4 <<< 4 = 0) : b = 0 := by
  injection h with _ h
  injection h with _ h
  injection h with h _
  have hvalue := output2_toNat b c
  have hjoin := (bits_join b).2.1
  obtain ⟨-, -, -, -, hlow, -⟩ := bits_toNat b
  have h0 : (0 : Byte).toNat = 0 := rfl
  rw [h] at hvalue
  have hmod : (b &&& 0x0f) = 0 := UInt8.toNat_inj.mp (by omega)
  rw [hzero, hmod] at hjoin
  exact hjoin.symm

theorem third_zero {a b c u v w : Byte} (h : output a b c = [u, v, w, 0]) (hzero : c >>> 6 <<< 6 = 0) : c = 0 := by
  injection h with _ h
  injection h with _ h
  injection h with _ h
  injection h with h _
  have hjoin := (bits_join c).2.2
  rw [hzero, h] at hjoin
  exact hjoin.symm

/-- The cells of the target that the decoder asks for. -/
def decodedRoom (l : List Byte) : Nat := if l.length % 3 = 0 then l.length else l.length + 1

theorem decodedRoom_cons (a b c : Byte) (l : List Byte) : decodedRoom (a :: b :: c :: l) = decodedRoom l + 3 := by
  have hmod : (a :: b :: c :: l).length % 3 = l.length % 3 := by
    simp only [List.length_cons]
    omega
  unfold decodedRoom
  rw [hmod]
  split
  · rfl
  · rfl

theorem two_cells {tail : List Byte} (h : 2 ≤ tail.length) : ∃ x y rest, tail = x :: y :: rest := by
  rcases tail with _ | ⟨x, _ | ⟨y, rest⟩⟩
  · exact absurd h (by simp)
  · exact absurd h (by simp)
  · exact ⟨x, y, rest, rfl⟩

theorem group_cells {tail : List Byte} (h : 3 ≤ tail.length) : ∃ x y z rest, tail = x :: y :: z :: rest := by
  obtain ⟨x, y, rest, rfl⟩ := two_cells (Nat.le_of_succ_le h)
  cases rest with
  | nil => exact absurd h (by simp)
  | cons z rest => exact ⟨x, y, z, rest, rfl⟩

/-- **A base64 text is accepted** where the target has room. -/
theorem b64DecodeLoop_complete {targsize : Nat} (l : List Byte) : ∀ done tail : List Byte,
    done.length + decodedRoom l ≤ targsize → targsize ≤ done.length + tail.length →
    ∃ tail', b64DecodeLoop targsize (base64 l) 0 done.length (done ++ tail) =
      some (((done.length + l.length : Nat) : Int), done ++ l ++ tail') := by
  induction l using base64.induct with
  | case1 a b c src ih =>
    intro done tail hroom htail
    rw [decodedRoom_cons] at hroom
    obtain ⟨x, y, z, rest, rfl⟩ := group_cells (show 3 ≤ tail.length by omega)
    have hlen : (done ++ [a, b, c]).length = done.length + 3 := by simp
    simp only [List.length_cons] at htail
    obtain ⟨tail', hrun⟩ := ih (done ++ [a, b, c]) rest (by omega) (by omega)
    refine ⟨tail', ?_⟩
    rw [base64, b64DecodeLoop_group a b c _ done rest x y z (by omega), ← hlen, hrun, hlen]
    simp only [List.length_cons, List.append_assoc, List.cons_append, List.nil_append]
    congr 3
    omega
  | case2 src hsrc =>
    intro done tail hroom htail
    rw [base64.eq_2 src hsrc]
    rcases src with _ | ⟨a, _ | ⟨b, _ | ⟨c, src⟩⟩⟩
    · exact ⟨tail, by simp [base64Rest, b64DecodeLoop]⟩
    · have htwo : decodedRoom [a] = 2 := rfl
      obtain ⟨x, y, rest, rfl⟩ := two_cells (show 2 ≤ tail.length by omega)
      exact ⟨_, b64DecodeLoop_one a done rest x y (by omega)⟩
    · have hthree : decodedRoom [a, b] = 3 := rfl
      obtain ⟨x, y, z, rest, rfl⟩ := group_cells (show 3 ≤ tail.length by omega)
      exact ⟨_, b64DecodeLoop_pair a b done rest x y z (by omega)⟩
    · exact absurd rfl (hsrc a b c src)

/-- The bits that slopped over must be 0 in front of the padding. -/
theorem padded_cell {targsize : Nat} {r : Int} {t' : List Byte} (hr : 0 ≤ r) {state : Nat}
    {pad done rest : List Byte} {v : Byte}
    (h : b64DecodeLoop targsize (ch '=' :: pad) state done.length (done ++ v :: rest) = some (r, t')) :
    v = 0 := by
  rw [b64DecodeLoop, if_neg (by decide), if_pos rfl, b64Pad_eq, getD_behind] at h
  obtain ⟨h, -⟩ := Prod.mk.inj (Option.some.inj h)
  split at h
  · next hcond => exact hcond.2
  · rw [← h] at hr
    exact absurd hr (by decide)

/-- **An accepted text is a base64 text**, of bytes the target has room for. -/
theorem b64DecodeLoop_sound {targsize : Nat} {r : Int} {t' : List Byte} (hr : 0 ≤ r) : ∀ (n : Nat)
    (src done tail : List Byte), src.length ≤ n → graphic src = src → done.length ≤ targsize →
    targsize ≤ done.length + tail.length →
    b64DecodeLoop targsize src 0 done.length (done ++ tail) = some (r, t') →
    ∃ l, src = base64 l ∧ done.length + decodedRoom l ≤ targsize := by
  intro n
  induction n with
  | zero =>
    intro src done tail hn _ hdone _ _
    obtain rfl := List.eq_nil_of_length_eq_zero (Nat.le_zero.mp hn)
    exact ⟨[], rfl, hdone⟩
  | succ n ih =>
    intro src done tail hn hsrc hdone htail h
    have hzero : (0 : Byte) < 64 := by decide
    cases accepted_group hsrc h hr with
    | done => exact ⟨[], rfl, hdone⟩
    | one u v hu hv hroom =>
      obtain ⟨a, b, c, hout⟩ := exists_output hu hv hzero hzero
      obtain ⟨x, y, rest, rfl⟩ := two_cells (show 2 ≤ tail.length by omega)
      have hbits := second_zero hout
      injection hout with hfirst hout
      injection hout with hsecond _
      rw [← hfirst, ← hsecond, b64DecodeLoop_two a b _ done rest x y hroom] at h
      have hend : b64DecodeLoop targsize [ch '=', ch '='] 2 (done ++ [a]).length
          ((done ++ [a]) ++ b >>> 4 <<< 4 :: rest) = some (r, t') := by simpa using h
      have hcell := padded_cell hr hend
      rw [hbits hcell] at hsecond
      refine ⟨[a], ?_, hroom⟩
      rw [← hfirst, ← hsecond]
      rfl
    | two u v w hu hv hw hroom =>
      obtain ⟨a, b, c, hout⟩ := exists_output hu hv hw hzero
      obtain ⟨x, y, z, rest, rfl⟩ := group_cells (show 3 ≤ tail.length by omega)
      have hbits := third_zero hout
      injection hout with hfirst hout
      injection hout with hsecond hout
      injection hout with hthird _
      have hone : done ++ a :: b >>> 4 <<< 4 :: z :: rest = (done ++ [a]) ++ b >>> 4 <<< 4 :: z :: rest := by simp
      have hlen : done.length + 1 = (done ++ [a]).length := by simp
      rw [← hfirst, ← hsecond, ← hthird, b64DecodeLoop_two a b _ done (z :: rest) x y (by omega), hone, hlen,
        b64DecodeLoop_third b c _ (done ++ [a]) rest z (by omega)] at h
      have hend : b64DecodeLoop targsize [ch '='] 3 (done ++ [a, b]).length
          ((done ++ [a, b]) ++ c >>> 6 <<< 6 :: rest) = some (r, t') := by simpa using h
      have hcell := padded_cell hr hend
      rw [hbits hcell] at hthird
      refine ⟨[a, b], ?_, hroom⟩
      rw [← hfirst, ← hsecond, ← hthird]
      rfl
    | three u v w x rest hu hv hw hx hroom hrest =>
      obtain ⟨a, b, c, hout⟩ := exists_output hu hv hw hx
      obtain ⟨x', y', z', cells, rfl⟩ := group_cells (show 3 ≤ tail.length by omega)
      have hgroup : (output a b c).map base64Char = [base64Char u, base64Char v, base64Char w, base64Char x] := by
        rw [hout]
        rfl
      have htext : base64Char u :: base64Char v :: base64Char w :: base64Char x :: rest =
          (output a b c).map base64Char ++ rest := by
        rw [hgroup]
        rfl
      have hlen : (done ++ [a, b, c]).length = done.length + 3 := by simp
      rw [htext, b64DecodeLoop_group a b c rest done cells x' y' z' hroom, ← hlen] at h
      simp only [List.length_cons] at hn htail
      obtain ⟨l, hl, hfits⟩ := ih rest (done ++ [a, b, c]) cells (by omega) hrest (by omega) (by omega) h
      refine ⟨a :: b :: c :: l, ?_, ?_⟩
      · rw [htext, hl, base64]
      · rw [decodedRoom_cons]
        omega

/-- What is returned is -1 or an index. -/
theorem b64DecodeLoop_result {targsize : Nat} (src : List Byte) : ∀ {state tarindex : Nat} {target t' : List Byte}
    {r : Int}, b64DecodeLoop targsize src state tarindex target = some (r, t') → r = -1 ∨ 0 ≤ r := by
  induction src with
  | nil =>
    intro state tarindex target t' r h
    rw [b64DecodeLoop] at h
    obtain ⟨rfl, -⟩ := Prod.mk.inj (Option.some.inj h)
    split
    · exact Or.inl rfl
    · exact Or.inr (Int.natCast_nonneg _)
  | cons c src ih =>
    intro state tarindex target t' r h
    have hfail : ∀ {b : Prop} [Decidable b] {t : List Byte} {x : Option (Int × List Byte)},
        (if b then some (-1, t) else x) = some (r, t') → r = -1 ∨ x = some (r, t') := by
      intro b _ t x hx
      split at hx
      · exact Or.inl (Prod.mk.inj (Option.some.inj hx)).1.symm
      · exact Or.inr hx
    rw [b64DecodeLoop] at h
    split at h
    · exact ih h
    split at h
    · rw [b64Pad_eq] at h
      obtain ⟨rfl, -⟩ := Prod.mk.inj (Option.some.inj h)
      split
      · exact Or.inr (Int.natCast_nonneg _)
      · exact Or.inl rfl
    split at h
    · cases h
    rcases hfail h with hbad | h
    · exact Or.inl hbad
    dsimp only at h
    split at h <;> exact (hfail h).elim Or.inl ih

/-! ## The texts -/

/-- **`b64_decode` decodes the base64 texts and nothing else**: to each list of bytes its own text,
with white space anywhere, when the target has the cells for it. For every other text it returns -1,
unless it reads outside `Base64Values`. -/
theorem b64Decode_language (src target : List Byte) :
    (∀ l, (∃ tail, b64Decode src target target.length = some ((l.length : Int), l ++ tail)) ↔
      graphic src = base64 l ∧ decodedRoom l ≤ target.length) ∧
    ∀ r t', b64Decode src target target.length = some (r, t') →
      r = -1 ∨ ∃ l, graphic src = base64 l ∧ decodedRoom l ≤ target.length := by
  have hgraphic : b64Decode src target target.length = b64DecodeLoop target.length (graphic src) 0 0 target :=
    b64DecodeLoop_graphic _ src 0 0 target
  have hsound : ∀ {r : Int} {t' : List Byte}, 0 ≤ r → b64Decode src target target.length = some (r, t') →
      ∃ l, graphic src = base64 l ∧ decodedRoom l ≤ target.length := by
    intro r t' hr h
    rw [hgraphic] at h
    have hloop := b64DecodeLoop_sound hr (graphic src).length (graphic src) [] target (Nat.le_refl _)
      (graphic_graphic src) (Nat.zero_le _) (by simp) h
    simpa only [List.length_nil, Nat.zero_add] using hloop
  have hcomplete : ∀ l, graphic src = base64 l → decodedRoom l ≤ target.length →
      ∃ tail, b64Decode src target target.length = some ((l.length : Int), l ++ tail) := by
    intro l hl hroom
    obtain ⟨tail, hrun⟩ := @b64DecodeLoop_complete target.length l [] target (by simpa using hroom) (by simp)
    refine ⟨tail, ?_⟩
    rw [hgraphic, hl]
    simpa only [List.length_nil, Nat.zero_add, List.nil_append] using hrun
  constructor
  · intro l
    constructor
    · intro h
      obtain ⟨tail, h⟩ := h
      obtain ⟨l', hl', hroom⟩ := hsound (Int.natCast_nonneg _) h
      obtain ⟨tail', h'⟩ := hcomplete l' hl' hroom
      obtain ⟨hlen, htext⟩ := Prod.mk.inj (Option.some.inj (h.symm.trans h'))
      obtain rfl : l = l' := (List.append_inj htext (Int.natCast_inj.mp hlen)).1
      exact ⟨hl', hroom⟩
    · intro h
      exact hcomplete l h.1 h.2
  · intro r t' h
    rcases b64DecodeLoop_result src h with hbad | hr
    · exact Or.inl hbad
    · exact Or.inr (hsound hr h)

theorem decodedRoom_le (l : List Byte) : decodedRoom l ≤ (base64 l).length := by
  induction l using base64.induct with
  | case1 a b c src ih =>
    have hfour : ((output a b c).map base64Char).length = 4 := rfl
    rw [decodedRoom_cons, base64, List.length_append, hfour]
    omega
  | case2 src hsrc =>
    rw [base64.eq_2 src hsrc]
    rcases src with _ | ⟨a, _ | ⟨b, _ | ⟨c, src⟩⟩⟩
    · exact Nat.le_refl 0
    · exact Nat.le_add_right 2 2
    · exact Nat.le_add_right 3 1
    · exact absurd rfl (hsrc a b c src)

/-- **A buffer over itself** has room for what is decoded of it. -/
theorem b64DecodeInplace_language (p l : List Byte) :
    (∃ tail, b64DecodeInplace p p.length = some ((l.length : Int), l ++ tail)) ↔
      graphic (p.takeWhile (· ≠ 0)) = base64 l := by
  rw [b64DecodeInplace_eq, (b64Decode_language (p.takeWhile (· ≠ 0)) p).1 l]
  apply and_iff_left_of_imp
  intro h
  have htext : (base64 l).length ≤ (p.takeWhile (· ≠ 0)).length := by
    rw [← h]
    exact List.length_filter_le _ _
  have htake := (List.takeWhile_prefix (l := p) (· ≠ 0)).length_le
  exact Nat.le_trans (decodedRoom_le l) (Nat.le_trans htext htake)

/-! ## Credentials in any layout -/

/-- The value of an Authorization line: the scheme in any letter case, then the base64 text of `l`
with white space anywhere. -/
structure BasicLayout (l : List Byte) where
  scheme : List Byte
  text : List Byte
  scheme_basic : scheme.map tolower = (str "Basic").map tolower
  text_graphic : graphic text = base64 l

/-- Only white space stands between the characters. -/
theorem graphic_plain {v l : List Byte} (hv : graphic v = base64 l) :
    ∀ c ∈ v, c ≠ 0 ∧ stripped c = isspace c := by
  intro c hc
  cases hspace : isspace c with
  | true =>
    refine ⟨fun heq => ?_, ?_⟩
    · rw [heq] at hspace
      cases hspace
    · rw [stripped, hspace, Bool.true_or]
  | false =>
    have hmem : c ∈ base64 l := by
      rw [← hv, graphic, List.mem_filter, hspace]
      exact ⟨hc, rfl⟩
    exact ⟨(base64_plain l c hmem).2, (base64_plain l c hmem).1⟩

theorem graphic_dropWhile {w : List Byte} (h : ∀ c ∈ w, stripped c = isspace c) :
    graphic (w.dropWhile stripped) = graphic w := by
  induction w with
  | nil => rfl
  | cons c w ih =>
    obtain ⟨hc, hw⟩ := List.forall_mem_cons.mp h
    rw [List.dropWhile_cons, hc]
    split
    · next hspace => rw [ih hw, graphic_cons, if_pos hspace]
    · rfl

theorem graphic_reverse (w : List Byte) : graphic w.reverse = (graphic w).reverse := List.filter_reverse

/-- The decoded text takes the place of the stored one, and its trimmed form is split. -/
theorem parseBasic_graphic {tmpFlag : DecodeFlag} {l v : List Byte} (hne : l ≠ []) (hv : graphic v = base64 l)
    (s : HttpStr) :
    parseBasic tmpFlag (s.withAuth v) = some (credentials tmpFlag (s.withAuth l) (stripText l)) := by
  have hroom : decodedRoom l ≤ v.length := by
    have hle : (graphic v).length ≤ v.length := List.length_filter_le _ _
    rw [hv] at hle
    exact Nat.le_trans (decodedRoom_le l) hle
  obtain ⟨tail, hdecode⟩ := ((b64Decode_language v v).1 l).mpr ⟨hv, hroom⟩
  have hpos := List.length_pos_iff.mpr hne
  have hsrc : ({ p := some v, nul := v.length } : XStr).cString = some v := by
    have hall : v.takeWhile (· ≠ 0) = v :=
      List.takeWhile_eq_self_iff.mpr fun c hc => decide_eq_true (graphic_plain hv c hc).1
    rw [XStr.cString]
    dsimp only
    rw [if_pos (Or.inr rfl), hall]
  have hlen : ({ p := some v, nul := v.length } : XStr).len = v.length := rfl
  have htake : (l ++ tail).take ((l.length : Int)).toNat = l := by simp
  have hflag : (0 : Int) < l.length := by omega
  unfold parseBasic credentials HttpStr.withAuth
  simp only [hsrc, hlen, Option.bind_eq_bind, Option.bind_some, hdecode, if_pos hflag, htake, Option.getD_some]
  rw [Int.toNat_natCast]
  split <;> rfl

namespace BasicLayout
variable {l : List Byte} (b : BasicLayout l)

def value : List Byte := b.scheme ++ b.text

/-- What is trimmed is white space. -/
theorem graphic_strip : graphic (stripText b.text) = base64 l := by
  have hplain : ∀ c ∈ b.text, stripped c = isspace c := fun c hc => (graphic_plain b.text_graphic c hc).2
  have hback : ∀ c ∈ (b.text.dropWhile stripped).reverse, stripped c = isspace c :=
    fun c hc => hplain c ((List.dropWhile_suffix _).subset (List.mem_reverse.mp hc))
  rw [stripText, graphic_reverse, graphic_dropWhile hback, graphic_reverse, List.reverse_reverse,
    graphic_dropWhile hplain, b.text_graphic]

theorem strip_ne (hne : l ≠ []) : stripText b.text ≠ [] := by
  intro hnil
  have hgraphic := b.graphic_strip
  rw [hnil] at hgraphic
  exact base64_ne hne hgraphic.symm

theorem scheme_length : b.scheme.length = 5 := by
  have hlen := congrArg List.length b.scheme_basic
  rw [List.length_map, List.length_map] at hlen
  exact hlen

/-- Another scheme begins with another letter. -/
theorem other_scheme {key : List Byte} {k : Byte} (hk : tolower k ≠ ch 'b') (front rest : List Byte) :
    (strncasecmpEq front.length (k :: key)).run (Memory.ofList (front ++ (b.scheme ++ rest))) = some false := by
  have hscheme := b.scheme_basic
  obtain ⟨c, scheme, hcons⟩ := List.exists_cons_of_ne_nil (List.ne_nil_of_length_eq_add_one b.scheme_length)
  rw [hcons] at hscheme ⊢
  have hc : tolower c = ch 'b' := (List.cons.inj hscheme).1
  apply strncasecmpEq_first
  rw [hc]
  exact fun heq => hk heq.symm

theorem basic_scheme (front rest : List Byte) :
    (strncasecmpEq front.length (str "Basic")).run (Memory.ofList (front ++ (b.scheme ++ rest))) = some true := by
  have hrun := strncasecmpEq_run (str "Basic") front b.scheme rest b.scheme_length
  rw [List.append_assoc, decide_eq_true b.scheme_basic] at hrun
  exact hrun

/-- The value behind the scheme is trimmed and stored. -/
theorem stored_text (hne : l ≠ []) {flag : DecodeFlag} (hraw : flag.needDecode = false) (x : XStr)
    (front post : List Byte) :
    ∃ n : Nat, (strlstrip (front.length + 5) (front.length + b.value.length)).run
        (Memory.ofList (front ++ (b.value ++ post))) =
          some ((n : Int), ((n + (stripText b.text).length : Nat) : Int)) ∧
      (httpSetStr flag x n (stripText b.text).length).run (Memory.ofList (front ++ (b.value ++ post))) =
        some { p := some (stripText b.text), nul := (stripText b.text).length } := by
  obtain ⟨trail, htext, -⟩ := stripText_split b.text
  have hbegin : (front.length : Int) + 5 = (front ++ b.scheme).length := by
    rw [List.length_append, b.scheme_length]
    rfl
  have hstop : (front.length : Int) + b.value.length =
      (((front ++ b.scheme).length + b.text.length : Nat) : Int) := by
    rw [value, List.length_append, List.length_append]
    omega
  refine ⟨(front ++ b.scheme ++ b.text.takeWhile stripped).length, ?_, ?_⟩
  · have hrun := strlstrip_run (front ++ b.scheme) b.text post
    rw [List.append_assoc, List.append_assoc, ← List.append_assoc b.scheme] at hrun
    rw [hbegin, hstop]
    exact hrun
  · have hrun := httpSetStr_run flag x (front ++ b.scheme ++ b.text.takeWhile stripped) (stripText b.text)
      (trail ++ post)
    have hlist : front ++ (b.value ++ post) =
        front ++ b.scheme ++ b.text.takeWhile stripped ++ stripText b.text ++ (trail ++ post) := by
      rw [value]
      conv_lhs => rw [htext]
      simp only [List.append_assoc]
    rw [hlist, hrun, store_raw hraw (b.strip_ne hne)]

/-- **Credentials are recorded in any layout**: what `parse_au` records depends on the encoded text
alone. -/
theorem parseAu_layout (hne : l ≠ []) {info : Http} (hraw : info.tmpFlag.needDecode = false)
    (front post : List Byte) :
    (parseAu front.length b.value.length info).run (Memory.ofList (front ++ (b.value ++ post))) =
      some (info.withStr fun s => credentials info.tmpFlag (s.withAuth l) (stripText l)) := by
  have hmem : front ++ (b.value ++ post) = front ++ (b.scheme ++ (b.text ++ post)) := by
    rw [value, List.append_assoc]
  have hother : ∀ {k : Byte} {key : List Byte}, tolower k ≠ ch 'b' → (strncasecmpEq front.length (k :: key)).run
      (Memory.ofList (front ++ (b.value ++ post))) = some false := by
    intro k key hk
    rw [hmem]
    exact b.other_scheme hk front _
  have hbasic : (strncasecmpEq front.length (str "Basic")).run (Memory.ofList (front ++ (b.value ++ post))) =
      some true := by
    rw [hmem]
    exact b.basic_scheme front _
  have hdigest := @hother (ch 'D') (str "igest") (by decide)
  have hnegotiate := @hother (ch 'N') (str "egotiate") (by decide)
  have hntlm := @hother (ch 'N') (str "TLM") (by decide)
  obtain ⟨n, hends, hset⟩ := b.stored_text hne hraw info.str.auth front post
  have hlen : ((n + (stripText b.text).length : Nat) : Int) - n = (stripText b.text).length := by omega
  have hpos := List.length_pos_iff.mpr (b.strip_ne hne)
  rw [parseAu, Access.run_bind]
  show ((strncasecmpEq front.length (ch 'D' :: str "igest")).run _).bind _ = _
  rw [hdigest, Option.bind_some]
  simp only [Bool.false_eq_true, if_false]
  rw [Access.run_bind]
  show ((strncasecmpEq front.length (ch 'N' :: str "egotiate")).run _).bind _ = _
  rw [hnegotiate, Option.bind_some]
  simp only [Bool.false_eq_true, if_false]
  rw [Access.run_bind]
  show ((strncasecmpEq front.length (ch 'N' :: str "TLM")).run _).bind _ = _
  rw [hntlm, Option.bind_some]
  simp only [Bool.false_eq_true, if_false]
  rw [Access.run_bind, hbasic, Option.bind_some, if_pos rfl, Access.run_bind, hends, Option.bind_some]
  dsimp only
  rw [hlen, if_neg (by omega), Access.run_bind, hset, Option.bind_some, Access.run_bind, Access.run_ofOption]
  show (parseBasic info.tmpFlag (info.str.withAuth (stripText b.text))).bind _ = _
  rw [parseBasic_graphic hne b.graphic_strip]
  rfl

end BasicLayout

/-- `u:p` behind the scheme `bAsIC`, with white space in its text. -/
def spacedLayout : BasicLayout (str "u:p") where
  scheme := str "bAsIC"
  text := str " dT pw "
  scheme_basic := rfl
  text_graphic := rfl

theorem parseAu_layout_spaced : ∃ r, (parseAu 0 12 {}).run (Memory.ofList (str "bAsIC dT pw ")) = some r ∧
    r.str.authUser.p = some (str "u") ∧ r.str.authPass.p = some (str "p") := by
  have hrun := @BasicLayout.parseAu_layout _ spacedLayout (List.cons_ne_nil _ _) {} rfl [] []
  have hlist : [] ++ (spacedLayout.value ++ []) = str "bAsIC dT pw " := rfl
  rw [hlist] at hrun
  exact ⟨_, hrun, rfl, rfl⟩

end WafProxy
