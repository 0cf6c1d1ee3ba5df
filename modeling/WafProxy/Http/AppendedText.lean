import WafProxy.Http.StoredText

/-
  What is stored of appended texts — http_basic.c

  `http_append_str` allocates 4097 bytes for the first text it is given and
  stores that text whole, whatever its length. Of the later ones it takes those
  that leave the length below 4096 and passes over the others, one by one: a
  short text can be taken behind a long one that was passed over.

  What is proved:
    1. `appendStr_refines` — the bytes are those of `XStr.append`.
    2. `appendAll_stored` — after any calls that keep inside the allocation the
       first text and the ones taken are stored, in order.
    3. `appendAll_prefix_iff` — the stored bytes are a prefix of all texts, with
       a NUL behind them and no write outside, exactly when the first text fits,
       the sum of two lengths never overflows, and what is taken behind the first
       text passed over repeats the beginning of what was lost.

  Correspondence (C ↔ Lean):
    `http_set_str_no_null`             ↔ `setStrNoNull`
    `http_append_str`                  ↔ `appendStr`
    `str->p == NULL`                   ↔ `none`
-/

namespace WafProxy
open Lib

/-- `http_set_str_no_null(info, str, data, len, max_len)`; `heap` is what the memory held. -/
def setStrNoNull (heap : Nat → Byte) (data : List Byte) (maxLen : Nat) : SetStr :=
  let p : Buffer Byte := { size := maxLen + 1, cell := heap }
  { p := (p.copy 0 data).copy data.length [0], len := data.length }

/-- `str->len + len < 4096`, on 32-bit integers. -/
@[irreducible] def appendFits (len n : Nat) : Bool := toInt32 (len + n) < APPEND_MAX

/-- `http_append_str` on `data[0..len)`. -/
def appendStr (heap : Nat → Byte) (x : Option SetStr) (data : List Byte) : SetStr :=
  match x with
  | none => setStrNoNull heap data APPEND_MAX
  | some x =>
    if appendFits x.len data.length then
      { p := (x.p.copy x.len data).copy (x.len + data.length) [0], len := x.len + data.length }
    else x

/-- One call for each text, on a string that is empty first. -/
def appendAll (heap : Nat → Byte) (texts : List (List Byte)) : Option SetStr :=
  texts.foldl (fun x data => some (appendStr heap x data)) none

example : ((appendAll (fun _ => 7) [str "a=1", str "; b"]).map fun x => x.p.read 0 (x.len + 1)) =
    some (str "a=1; b" ++ [0]) := by decide +kernel

/-! ## The texts that are taken -/

/-- The texts taken when `len` bytes are stored. -/
def taken : Nat → List (List Byte) → List (List Byte)
  | _, [] => []
  | len, d :: texts =>
    if appendFits len d.length then d :: taken (len + d.length) texts else taken len texts

/-- No sum of a stored and a new length overflows. -/
def NoOverflow : Nat → List (List Byte) → Prop
  | _, [] => True
  | len, d :: texts =>
    if appendFits len d.length then len + d.length < APPEND_MAX ∧ NoOverflow (len + d.length) texts
    else NoOverflow len texts

/-- The texts from the first one on that is passed over. -/
def lost : Nat → List (List Byte) → List (List Byte)
  | _, [] => []
  | len, d :: texts => if appendFits len d.length then lost (len + d.length) texts else d :: texts

/-- The texts taken behind the first one that is passed over. -/
def late : Nat → List (List Byte) → List (List Byte)
  | _, [] => []
  | len, d :: texts => if appendFits len d.length then late (len + d.length) texts else taken len texts

/-- When the stored bytes are a prefix: the first text fits, no length overflows, and what is
taken late repeats the beginning of what was lost. -/
def AppendOk : List (List Byte) → Prop
  | [] => True
  | d :: texts => d.length ≤ APPEND_MAX ∧ NoOverflow d.length texts ∧
      (late d.length texts).flatten <+: (lost d.length texts).flatten

section
variable {len : Nat} {d : List Byte} {texts : List (List Byte)}

theorem noOverflow_fit (h : appendFits len d.length = true) :
    NoOverflow len (d :: texts) ↔ len + d.length < APPEND_MAX ∧ NoOverflow (len + d.length) texts := by
  rw [NoOverflow, if_pos h]

theorem noOverflow_skip (h : ¬ appendFits len d.length = true) :
    NoOverflow len (d :: texts) ↔ NoOverflow len texts := by
  rw [NoOverflow, if_neg h]

end

/-- The texts taken in front are those up to the first one that is passed over. -/
theorem taken_split : ∀ (texts : List (List Byte)) (len : Nat), ∃ front,
    texts = front ++ lost len texts ∧ taken len texts = front ++ late len texts := by
  intro texts
  induction texts with
  | nil => exact fun _ => ⟨[], rfl, rfl⟩
  | cons d texts ih =>
    intro len
    by_cases hfit : appendFits len d.length = true
    · obtain ⟨front, htexts, htaken⟩ := ih (len + d.length)
      refine ⟨d :: front, ?_, ?_⟩
      · simp only [lost, hfit, if_true, List.cons_append]
        exact congrArg (d :: ·) htexts
      · simp only [taken, late, hfit, if_true, List.cons_append]
        exact congrArg (d :: ·) htaken
    · refine ⟨[], ?_, ?_⟩
      · simp [lost, hfit]
      · simp [taken, late, hfit]

/-- What is taken is a prefix of all texts when what is taken late is one of what was lost. -/
theorem taken_prefix_iff (texts : List (List Byte)) (len : Nat) :
    (taken len texts).flatten <+: texts.flatten ↔
      (late len texts).flatten <+: (lost len texts).flatten := by
  obtain ⟨front, htexts, htaken⟩ := taken_split texts len
  have hflat : texts.flatten = front.flatten ++ (lost len texts).flatten := by
    rw [← List.flatten_append, ← htexts]
  rw [hflat, htaken, List.flatten_append, List.prefix_append_right_inj]

/-- The texts taken of the first `k` are the first of those taken. -/
theorem taken_take (texts : List (List Byte)) : ∀ (len k : Nat),
    taken len (texts.take k) <+: taken len texts := by
  induction texts with
  | nil =>
    intro len k
    simp only [List.take_nil, List.prefix_rfl]
  | cons d texts ih =>
    intro len k
    cases k with
    | zero => exact List.nil_prefix
    | succ k =>
      rw [List.take_succ_cons, taken, taken]
      split
      · exact (List.prefix_cons_inj d).mpr (ih _ k)
      · exact ih _ k

theorem noOverflow_take (texts : List (List Byte)) : ∀ (len k : Nat), NoOverflow len texts →
    NoOverflow len (texts.take k) := by
  induction texts with
  | nil => exact fun len k h => by rwa [List.take_nil]
  | cons d texts ih =>
    intro len k h
    cases k with
    | zero => trivial
    | succ k =>
      rw [List.take_succ_cons]
      by_cases hfit : appendFits len d.length = true
      · rw [noOverflow_fit hfit] at h ⊢
        exact ⟨h.1, ih _ k h.2⟩
      · rw [noOverflow_skip hfit] at h ⊢
        exact ih _ k h

/-- A new length that is taken fits, or it has overflowed. -/
theorem appendFits_iff {len n : Nat} (hlen : len ≤ APPEND_MAX) (hn : n < 2 ^ 31) :
    appendFits len n = true ↔ len + n < APPEND_MAX ∨ 2 ^ 31 ≤ len + n := by
  have hmax : APPEND_MAX = 4096 := rfl
  unfold appendFits
  rw [decide_eq_true_iff, hmax]
  unfold toInt32
  rw [hmax] at hlen
  rcases Nat.lt_or_ge (len + n) (2 ^ 31) with hlt | hge
  · have hsame : Int.bmod ((len : Int) + n) (2 ^ 32) = (len : Int) + n := by
      rw [Int.bmod_eq_of_le] <;> omega
    rw [hsame]
    omega
  · have hneg : Int.bmod ((len : Int) + n) (2 ^ 32) = (len : Int) + n - 2 ^ 32 := by
      rw [← Int.sub_bmod_right, Int.bmod_eq_of_le] <;> omega
    rw [hneg]
    omega

/-! ## The stored bytes -/

/-- The first `len` bytes are the text, a NUL stands behind them, and no write left the 4097
bytes of the first call. -/
structure SetStr.Stores (x : SetStr) (text : List Byte) : Prop where
  size : x.p.size = APPEND_MAX + 1
  len : x.len = text.length
  bytes : x.p.read 0 text.length = text
  terminated : x.p.cell text.length = 0
  kept : x.p.Kept

section
variable {heap : Nat → Byte} {x : SetStr} {text data : List Byte}

/-- A text with its NUL behind it, written behind what is stored. -/
theorem SetStr.Stores.write (h : x.Stores text) (hroom : text.length + data.length < APPEND_MAX + 1) :
    SetStr.Stores { p := (x.p.copy x.len data).copy (x.len + data.length) [0]
                    len := x.len + data.length } (text ++ data) where
  size := h.size
  len := by rw [List.length_append, h.len]
  bytes := by
    show ((x.p.copy x.len data).copy (x.len + data.length) [0]).read 0 _ = _
    rw [h.len, List.length_append, Buffer.read_copy_before _ _ (by omega), Buffer.read_append,
      Buffer.read_copy_before _ _ (by omega), h.bytes, Nat.zero_add, Buffer.read_copy]
  terminated := by
    rw [h.len, List.length_append]
    exact Buffer.copy_singleton_cell _ _ _
  kept := by
    have hsize := h.size
    rw [h.len]
    apply Buffer.Kept.copy
    · apply Buffer.Kept.copy h.kept
      omega
    · show text.length + data.length + 1 ≤ x.p.size
      omega

/-- The first text. -/
theorem setStrNoNull_stores (heap : Nat → Byte) (hlen : data.length ≤ APPEND_MAX) :
    (setStrNoNull heap data APPEND_MAX).Stores data := by
  refine ⟨rfl, rfl, ?_, Buffer.copy_singleton_cell _ _ _, ?_⟩
  · show (Buffer.copy _ data.length [0]).read 0 _ = _
    rw [Buffer.read_copy_before _ _ (Nat.le_of_eq (Nat.zero_add _)), Buffer.read_copy]
  · apply Buffer.Kept.copy
    · apply Buffer.Kept.copy (Nat.zero_le _)
      show 0 + data.length ≤ APPEND_MAX + 1
      omega
    · show data.length + 1 ≤ APPEND_MAX + 1
      omega

/-- A write outside stays one. -/
theorem appendStr_notKept (h : ¬ x.p.Kept) : ¬ (appendStr heap (some x) data).p.Kept := by
  unfold appendStr
  dsimp only
  split
  · intro hkept
    have hreach := Nat.le_trans (Buffer.reach_le_copy x.p x.len data)
      (Buffer.reach_le_copy (x.p.copy x.len data) (x.len + data.length) [0])
    exact h (Nat.le_trans hreach hkept)
  · exact h

theorem foldl_notKept (h : ¬ x.p.Kept) : ∀ texts : List (List Byte), ∃ x',
    texts.foldl (fun x data => some (appendStr heap x data)) (some x) = some x' ∧ ¬ x'.p.Kept := by
  intro texts
  induction texts generalizing x with
  | nil => exact ⟨x, rfl, h⟩
  | cons d texts ih => exact ih (appendStr_notKept h)

/-- **The texts taken are stored in order** as long as no length overflows. -/
theorem foldl_stores : ∀ (texts : List (List Byte)) {x : SetStr} {text : List Byte}, x.Stores text →
    NoOverflow text.length texts →
    ∃ x', texts.foldl (fun x data => some (appendStr heap x data)) (some x) = some x' ∧
      x'.Stores (text ++ (taken text.length texts).flatten) := by
  intro texts
  induction texts with
  | nil =>
    intro x text h _
    exact ⟨x, rfl, by rw [taken, List.flatten_nil, List.append_nil]; exact h⟩
  | cons d texts ih =>
    intro x text h hroom
    by_cases hfit : appendFits text.length d.length = true
    · rw [noOverflow_fit hfit] at hroom
      have hlen := @List.length_append _ text d
      have hwrite := @SetStr.Stores.write x text d h (by omega)
      obtain ⟨x', hrun, hstores⟩ := ih hwrite (by rw [hlen]; exact hroom.2)
      refine ⟨x', ?_, ?_⟩
      · rw [List.foldl_cons]
        show List.foldl _ (some (if appendFits x.len d.length = true then _ else x)) texts = _
        rw [if_pos (by rw [h.len]; exact hfit)]
        exact hrun
      · rw [hlen, List.append_assoc] at hstores
        rw [taken, if_pos hfit, List.flatten_cons]
        exact hstores
    · rw [noOverflow_skip hfit] at hroom
      obtain ⟨x', hrun, hstores⟩ := ih h hroom
      refine ⟨x', ?_, ?_⟩
      · rw [List.foldl_cons]
        show List.foldl _ (some (if appendFits x.len d.length = true then _ else x)) texts = _
        rw [if_neg (by rw [h.len]; exact hfit)]
        exact hrun
      · rw [taken, if_neg hfit]
        exact hstores

/-- A length that overflows takes the write outside. -/
theorem foldl_wraps : ∀ (texts : List (List Byte)) {x : SetStr} {text : List Byte}, x.Stores text →
    (∀ d ∈ texts, d.length < 2 ^ 31) → ¬ NoOverflow text.length texts →
    ∃ x', texts.foldl (fun x data => some (appendStr heap x data)) (some x) = some x' ∧ ¬ x'.p.Kept := by
  intro texts
  induction texts with
  | nil => exact fun _ _ hroom => absurd trivial hroom
  | cons d texts ih =>
    intro x text h hint hroom
    have hints : ∀ d ∈ texts, d.length < 2 ^ 31 := fun d hd => hint d (List.mem_cons_of_mem _ hd)
    rw [List.foldl_cons]
    show ∃ x', List.foldl _ (some (if appendFits x.len d.length = true then _ else x)) texts = _ ∧ _
    by_cases hfit : appendFits text.length d.length = true
    · rw [noOverflow_fit hfit, not_and] at hroom
      rw [if_pos (by rw [h.len]; exact hfit)]
      by_cases hlt : text.length + d.length < APPEND_MAX
      · refine ih (h.write (by omega)) hints ?_
        rw [List.length_append]
        exact hroom hlt
      · refine foldl_notKept (fun hkept => ?_) texts
        have hout := (Buffer.kept_copy_iff (List.cons_ne_nil (0 : Byte) [])).mp hkept
        have hend : x.len + d.length + 1 ≤ x.p.size := hout.2
        rw [h.size, h.len] at hend
        -- a length that is taken and does not fit has overflowed
        have hwrapped := (appendFits_iff (by omega) (hint d List.mem_cons_self)).mp hfit
        have hmax : APPEND_MAX = 4096 := rfl
        omega
    · rw [noOverflow_skip hfit] at hroom
      rw [if_neg (by rw [h.len]; exact hfit)]
      exact ih h hints hroom

/-- A first text that is too long is stored whole. -/
theorem setStrNoNull_overruns (h : APPEND_MAX < data.length) :
    ¬ (setStrNoNull heap data APPEND_MAX).p.Kept := by
  intro hkept
  have hout := (Buffer.kept_copy_iff (List.cons_ne_nil (0 : Byte) [])).mp hkept
  have hend : data.length + 1 ≤ APPEND_MAX + 1 := hout.2
  omega

/-- The bytes are those of `XStr.append`, the NUL stands where it says. -/
theorem appendStr_refines (hx : x.Stores text) (hint : text.length + data.length < 2 ^ 31)
    (hlen : text.length ≤ APPEND_MAX) :
    ∃ bytes, XStr.append { p := some text, nul := text.length } data =
        some { p := some bytes, nul := bytes.length } ∧ (appendStr heap (some x) data).Stores bytes := by
  have hfit : appendFits x.len data.length = true ↔ text.length + data.length < APPEND_MAX := by
    rw [hx.len, appendFits_iff hlen (by omega)]
    omega
  unfold XStr.append appendStr
  by_cases hlt : text.length + data.length < APPEND_MAX
  · refine ⟨text ++ data, ?_, ?_⟩
    · simp only [if_pos hlt, List.length_append]
    · simp only [if_pos (hfit.mpr hlt)]
      exact hx.write (by omega)
  · refine ⟨text, ?_, ?_⟩
    · simp only [if_neg hlt]
    · simp only [if_neg (mt hfit.mp hlt)]
      exact hx

end

/-! ## Prefixes -/

/-- At every moment the stored bytes are a prefix of all texts, with a NUL behind them, and no
write has left the allocation. -/
def AppendedPrefix (heap : Nat → Byte) (texts : List (List Byte)) : Prop :=
  ∀ (k : Nat) (x : SetStr), appendAll heap (texts.take k) = some x →
    x.p.read 0 x.len <+: texts.flatten ∧ x.p.cell x.len = 0 ∧ x.p.Kept

theorem appendAll_cons (heap : Nat → Byte) (d : List Byte) (texts : List (List Byte)) :
    appendAll heap (d :: texts) = texts.foldl (fun x data => some (appendStr heap x data))
      (some (setStrNoNull heap d APPEND_MAX)) := rfl

/-- What every sequence of calls leaves when nothing is written outside. -/
theorem appendAll_stored {heap : Nat → Byte} {d : List Byte} {texts : List (List Byte)}
    (hlen : d.length ≤ APPEND_MAX) (hroom : NoOverflow d.length texts) :
    ∃ x, appendAll heap (d :: texts) = some x ∧ x.Stores (d ++ (taken d.length texts).flatten) := by
  rw [appendAll_cons]
  exact foldl_stores texts (setStrNoNull_stores heap hlen) hroom

/-- **Appended texts are stored as a prefix** exactly when the first one fits, no length
overflows, and what is taken behind a text that was passed over repeats what was lost. -/
theorem appendAll_prefix_iff (heap : Nat → Byte) (texts : List (List Byte))
    (hint : ∀ d ∈ texts, 1 ≤ d.length ∧ d.length < 2 ^ 31) :
    AppendedPrefix heap texts ↔ AppendOk texts := by
  cases texts with
  | nil =>
    refine iff_of_true ?_ trivial
    intro k x hx
    rw [List.take_nil] at hx
    cases hx
  | cons d texts =>
    have hints : ∀ e ∈ texts, e.length < 2 ^ 31 := fun e he => (hint e (List.mem_cons_of_mem _ he)).2
    refine ⟨fun h => ?_, ?_⟩
    · have hall := h (d :: texts).length
      rw [List.take_length] at hall
      have hlen : d.length ≤ APPEND_MAX := by
        apply Nat.le_of_not_lt
        intro hlong
        obtain ⟨x, hx, hout⟩ := @foldl_notKept heap _ (@setStrNoNull_overruns heap d hlong) texts
        exact hout (hall x hx).2.2
      have hroom : NoOverflow d.length texts := by
        by_contra hwraps
        obtain ⟨x, hx, hout⟩ := foldl_wraps texts (setStrNoNull_stores heap hlen) hints hwraps
        exact hout (hall x hx).2.2
      obtain ⟨x, hx, hstores⟩ := @appendAll_stored heap d texts hlen hroom
      have hprefix := (hall x hx).1
      rw [hstores.len, hstores.bytes, List.flatten_cons, List.prefix_append_right_inj] at hprefix
      exact ⟨hlen, hroom, (taken_prefix_iff texts d.length).mp hprefix⟩
    · rintro ⟨hlen, hroom, hlate⟩ k x hx
      cases k with
      | zero => cases hx
      | succ k =>
        rw [List.take_succ_cons] at hx
        obtain ⟨y, hy, hstores⟩ := @appendAll_stored heap d (texts.take k) hlen (noOverflow_take texts _ k hroom)
        obtain rfl : y = x := Option.some.inj (hy.symm.trans hx)
        refine ⟨?_, ?_, hstores.kept⟩
        · rw [hstores.len, hstores.bytes, List.flatten_cons, List.prefix_append_right_inj]
          have hfirst : (taken d.length (texts.take k)).flatten <+: (taken d.length texts).flatten := by
            obtain ⟨more, hmore⟩ := taken_take texts d.length k
            rw [← hmore, List.flatten_append]
            exact List.prefix_append _ _
          exact hfirst.trans ((taken_prefix_iff texts d.length).mpr hlate)
        · rw [hstores.len]
          exact hstores.terminated

/-- Two texts that fit. -/
theorem appendAll_prefix_two : AppendedPrefix (fun _ => 7) [str "a=1", str "; b"] := by
  have hfit : appendFits 3 3 = true := by decide +kernel
  have hok : AppendOk [str "a=1", str "; b"] := by
    refine ⟨by decide, (noOverflow_fit hfit).mpr ⟨by decide, trivial⟩, ?_⟩
    show (if appendFits 3 3 = true then [] else _ : List (List Byte)).flatten <+: _
    rw [if_pos hfit]
    exact List.nil_prefix
  exact (appendAll_prefix_iff (fun _ => 7) [str "a=1", str "; b"] (by decide)).mpr hok

/-- A text of 200 bytes is passed over and one of a single byte is taken behind it; a first
text of 5000 bytes is written over what stands behind the allocation. -/
theorem appended_not_prefix :
    ¬ AppendedPrefix (fun _ => 7) [List.replicate 4000 (ch 'a'), List.replicate 200 (ch 'b'), str "c"] ∧
    ¬ AppendedPrefix (fun _ => 7) [List.replicate 5000 (ch 'a')] := by
  have hskip : ¬ appendFits 4000 200 = true := by decide +kernel
  have hfit : appendFits 4000 1 = true := by decide +kernel
  refine ⟨fun h => ?_, fun h => ?_⟩
  · have hlen : (List.replicate 4000 (ch 'a')).length = 4000 := List.length_replicate
    have hroom : NoOverflow (List.replicate 4000 (ch 'a')).length [List.replicate 200 (ch 'b'), str "c"] := by
      rw [hlen]
      exact (noOverflow_skip (by rw [List.length_replicate]; exact hskip)).mpr
        ((noOverflow_fit hfit).mpr ⟨by decide, trivial⟩)
    obtain ⟨x, hx, hstores⟩ := @appendAll_stored (fun _ => 7) _ _ (by rw [hlen]; decide) hroom
    have hprefix := (h 3 x hx).1
    have htaken : taken 4000 [List.replicate 200 (ch 'b'), str "c"] = [str "c"] := by
      rw [taken, if_neg (by rw [List.length_replicate]; exact hskip), taken,
        if_pos (show appendFits 4000 (str "c").length = true from hfit)]
      rfl
    rw [hstores.len, hstores.bytes, hlen, htaken, @List.flatten_cons _ (List.replicate 4000 (ch 'a')),
      List.prefix_append_right_inj, List.replicate_succ] at hprefix
    exact absurd (List.cons_prefix_cons.mp hprefix).1 (by decide)
  · have hlong : APPEND_MAX < (List.replicate 5000 (ch 'a')).length := by
      rw [List.length_replicate]
      decide
    exact @setStrNoNull_overruns (fun _ => 7) _ hlong (h 1 _ rfl).2.2

end WafProxy
