import Mathlib.Data.List.Basic

/-
  A delimiter reader that does not fall back

  The reader looks for a delimiter that begins with `k` marks. It counts the
  marks in a row; the `k`-th one opens a window, every byte from the first other
  one on goes into it, and with `n` bytes in it the window closes and is compared
  once with what a delimiter has behind its marks. While a window is open a run of
  `k` marks opens no second one: the marks from the `k`-th on are left out of the
  window and the bytes behind them go on filling it.

  What is proved:
    1. `after_append`, `closed_append` — a text is read piece by piece.
    2. `idle_quiet`, `open_quiet`, `closing_quiet` — what a text without a run of
       `k` marks does to a reader with no window open, and to an open window.
    3. `closed_isQuiet` — no window holds `k` marks in a row, so a delimiter with
       such a run behind its marks is never found.
    4. `found_iff` — a delimiter is found with its last byte and no earlier exactly
       when it can be found at all, nothing in front of it is taken for it, and no
       window is open at its `k`-th mark.
-/

namespace Lib

/-- The marks counted last, and the bytes of the window that is open. -/
structure WindowReader (α : Type) where
  marks : Nat
  window : Option (List α)
  deriving DecidableEq, Repr

namespace WindowReader

variable {α : Type} [DecidableEq α]

/-- One more byte: the count is 0 behind a byte that is no mark. -/
def count (mark : α) (marks : Nat) (c : α) : Nat := if c = mark then marks + 1 else 0

/-- One byte: the window it closes, and the reader behind it. -/
def step (mark : α) (k n : Nat) (c : α) (s : WindowReader α) : Option (List α) × WindowReader α :=
  let marks := count mark s.marks c
  match s.window with
  | none => (none, ⟨marks, if marks = k then some [] else none⟩)
  | some w =>
    if k ≤ marks then (none, ⟨marks, some w⟩)
    else if (w ++ [c]).length = n then (some (w ++ [c]), ⟨marks, none⟩)
    else (none, ⟨marks, some (w ++ [c])⟩)

/-- The reader behind a text. -/
def after (mark : α) (k n : Nat) (text : List α) (s : WindowReader α) : WindowReader α :=
  text.foldl (fun s c => (step mark k n c s).2) s

/-- The windows a text closes. -/
def closed (mark : α) (k n : Nat) : List α → WindowReader α → List (List α)
  | [], _ => []
  | c :: text, s => (step mark k n c s).1.toList ++ closed mark k n text (step mark k n c s).2

/-- With `d` marks in front of it, a text has no run of `k` marks. -/
def quiet (mark : α) (k : Nat) : Nat → List α → Bool
  | _, [] => true
  | d, c :: text => (c ≠ mark ∨ d + 1 < k) && quiet mark k (count mark d c) text

/-- The marks in a row at the end of a text with `d` marks in front of it. -/
def marksAfter (mark : α) (d : Nat) (text : List α) : Nat := text.foldl (count mark) d

section
variable {mark : α} {k n d : Nat} {s : WindowReader α} {a b : List α} {c : α}

/-! ## Pieces of a text -/

@[simp] theorem count_mark : count mark d mark = d + 1 := by simp [count]

theorem count_other (h : c ≠ mark) : count mark d c = 0 := by simp [count, h]

@[simp] theorem after_cons :
    after mark k n (c :: a) s = after mark k n a (step mark k n c s).2 := rfl

theorem after_append : after mark k n (a ++ b) s = after mark k n b (after mark k n a s) :=
  List.foldl_append

theorem closed_append (s : WindowReader α) : closed mark k n (a ++ b) s =
    closed mark k n a s ++ closed mark k n b (after mark k n a s) := by
  induction a generalizing s with
  | nil => rfl
  | cons c a ih =>
    show (step mark k n c s).1.toList ++ closed mark k n (a ++ b) (step mark k n c s).2 = _
    rw [ih, ← List.append_assoc]
    rfl

theorem marksAfter_append : marksAfter mark d (a ++ b) = marksAfter mark (marksAfter mark d a) b :=
  List.foldl_append

theorem marksAfter_concat : marksAfter mark d (a ++ [c]) = count mark (marksAfter mark d a) c := by
  rw [marksAfter_append]
  rfl

theorem marksAfter_replicate (d j : Nat) : marksAfter mark d (List.replicate j mark) = d + j := by
  induction j with
  | zero => rfl
  | succ j ih => rw [List.replicate_succ', marksAfter_concat, ih, count_mark, Nat.add_assoc]

theorem quiet_append (d : Nat) : quiet mark k d (a ++ b) =
    (quiet mark k d a && quiet mark k (marksAfter mark d a) b) := by
  induction a generalizing d with
  | nil => rfl
  | cons c a ih =>
    show ((c ≠ mark ∨ d + 1 < k) && quiet mark k (count mark d c) (a ++ b)) = _
    rw [ih, ← Bool.and_assoc]
    rfl

/-- Fewer than `k` marks are no run. -/
theorem quiet_replicate {j : Nat} (h : d + j < k) : quiet mark k d (List.replicate j mark) = true := by
  induction j generalizing d with
  | zero => rfl
  | succ j ih =>
    rw [List.replicate_succ, quiet, count_mark, ih (by omega), Bool.and_true, decide_eq_true_eq]
    exact Or.inr (by omega)

/-- The first byte of a quiet text does not complete a run. -/
theorem count_lt (hk : 0 < k) (h : quiet mark k d (c :: a) = true) : count mark d c < k := by
  simp only [quiet, Bool.and_eq_true, decide_eq_true_eq] at h
  by_cases hc : c = mark
  · rw [hc, count_mark]
    exact h.1.resolve_left (not_not.mpr hc)
  · rw [count_other hc]
    exact hk

theorem quiet_tail (h : quiet mark k d (c :: a) = true) : quiet mark k (count mark d c) a = true := by
  simp only [quiet, Bool.and_eq_true] at h
  exact h.2

/-- The marks are counted whatever the window is. -/
@[simp] theorem step_marks : (step mark k n c s).2.marks = count mark s.marks c := by
  unfold step
  split
  · rfl
  · dsimp only
    split
    · rfl
    · split <;> rfl

/-- A byte that closes a window leaves none open. -/
theorem step_closes {w : List α} (h : (step mark k n c s).1 = some w) :
    (step mark k n c s).2.window = none := by
  rcases s with ⟨d, _ | v⟩
  · cases h
  · simp only [step] at h ⊢
    split at h
    · cases h
    · split at h
      next hle hlen => rw [if_neg hle, if_pos hlen]
      · cases h

theorem after_marks (s : WindowReader α) :
    (after mark k n a s).marks = marksAfter mark s.marks a := by
  induction a generalizing s with
  | nil => rfl
  | cons c a ih =>
    rw [after_cons, ih, step_marks]
    rfl

/-! ## Texts without a run of `k` marks -/

/-- A reader with no window open stays so. -/
theorem idle_quiet (hk : 0 < k) (h : quiet mark k d a = true) :
    closed mark k n a ⟨d, none⟩ = [] ∧
      after mark k n a ⟨d, none⟩ = ⟨marksAfter mark d a, none⟩ := by
  induction a generalizing d with
  | nil => exact ⟨rfl, rfl⟩
  | cons c a ih =>
    have hlt := count_lt hk h
    have hstep : step mark k n c ⟨d, none⟩ = (none, ⟨count mark d c, none⟩) := by
      simp only [step, if_neg (Nat.ne_of_lt hlt)]
    obtain ⟨hclosed, hafter⟩ := ih (quiet_tail h)
    refine ⟨?_, ?_⟩
    · rw [closed, hstep, hclosed]
      rfl
    · rw [after_cons, hstep, hafter]
      rfl

/-- An open window takes every byte while there is room. -/
theorem open_quiet (hk : 0 < k) (h : quiet mark k d a = true) {w : List α}
    (hroom : w.length + a.length < n) :
    closed mark k n a ⟨d, some w⟩ = [] ∧
      after mark k n a ⟨d, some w⟩ = ⟨marksAfter mark d a, some (w ++ a)⟩ := by
  induction a generalizing d w with
  | nil => exact ⟨rfl, by rw [List.append_nil]; rfl⟩
  | cons c a ih =>
    have hlt := count_lt hk h
    have hne : (w ++ [c]).length ≠ n := by
      simp only [List.length_append, List.length_cons, List.length_nil] at hroom ⊢
      omega
    have hstep : step mark k n c ⟨d, some w⟩ = (none, ⟨count mark d c, some (w ++ [c])⟩) := by
      simp only [step, if_neg (Nat.not_le.mpr hlt), if_neg hne]
    have hroom' : (w ++ [c]).length + a.length < n := by
      simp only [List.length_append, List.length_cons, List.length_nil] at hroom ⊢
      omega
    obtain ⟨hclosed, hafter⟩ := ih (quiet_tail h) hroom'
    refine ⟨?_, ?_⟩
    · rw [closed, hstep, hclosed]
      rfl
    · rw [after_cons, hstep, hafter, List.append_assoc]
      rfl

/-- An open window closes with the byte that fills it. -/
theorem closing_quiet (hk : 0 < k) (h : quiet mark k d a = true) (hne : a ≠ []) {w : List α}
    (hfull : w.length + a.length = n) :
    closed mark k n a ⟨d, some w⟩ = [w ++ a] ∧
      after mark k n a ⟨d, some w⟩ = ⟨marksAfter mark d a, none⟩ := by
  obtain ⟨b, c, rfl⟩ : ∃ b c, a = b ++ [c] := ⟨_, _, (List.dropLast_concat_getLast hne).symm⟩
  rw [quiet_append, Bool.and_eq_true] at h
  have hlt := count_lt hk h.2
  simp only [List.length_append, List.length_cons, List.length_nil] at hfull
  obtain ⟨hclosed, hafter⟩ := @open_quiet _ _ mark k n d b hk h.1 w (by omega)
  have hlen : (w ++ b ++ [c]).length = n := by
    simp only [List.length_append, List.length_cons, List.length_nil]
    omega
  have hstep : step mark k n c ⟨marksAfter mark d b, some (w ++ b)⟩ =
      (some (w ++ b ++ [c]), ⟨count mark (marksAfter mark d b) c, none⟩) := by
    simp only [step, if_neg (Nat.not_le.mpr hlt), if_pos hlen]
  refine ⟨?_, ?_⟩
  · rw [closed_append, hclosed, hafter, List.nil_append, closed, hstep, ← List.append_assoc]
    rfl
  · rw [after_append, hafter, after_cons, hstep, marksAfter_concat]
    rfl

omit [DecidableEq α] in
/-- A text without `c` stands in front of it or behind it. -/
theorem infix_around {x : List α} (hc : c ∉ x) (h : x <:+: a ++ c :: b) : x <:+: a ∨ x <:+: b := by
  obtain ⟨p, q, heq⟩ := h
  rw [List.append_assoc] at heq
  rcases List.append_eq_append_iff.mp heq with ⟨a', ha, hxq⟩ | ⟨p', hp, hcb⟩
  · rcases List.append_eq_append_iff.mp hxq with ⟨y, hy, -⟩ | ⟨y, hy, hcons⟩
    · exact Or.inl ⟨p, y, by rw [ha, hy, List.append_assoc]⟩
    · cases y with
      | nil => exact Or.inl ⟨p, [], by rw [ha, hy]; simp⟩
      | cons z y =>
        obtain ⟨rfl, -⟩ := List.cons.inj hcons
        exact absurd (by rw [hy]; simp) hc
  · cases p' with
    | nil =>
      cases x with
      | nil => exact Or.inl (List.nil_infix)
      | cons z x =>
        obtain ⟨rfl, -⟩ := List.cons.inj hcb
        exact absurd List.mem_cons_self hc
    | cons z p' =>
      obtain ⟨rfl, hb⟩ := List.cons.inj hcb
      exact Or.inr ⟨p', q, by rw [List.append_assoc]; exact hb.symm⟩

/-- A quiet text is one in which no `k` marks stand in a row. -/
theorem quiet_iff (hd : d < k) : quiet mark k d a = true ↔
    ¬ List.replicate k mark <:+: List.replicate d mark ++ a := by
  induction a generalizing d with
  | nil =>
    refine iff_of_true rfl fun h => ?_
    have hle := h.length_le
    rw [List.append_nil, List.length_replicate, List.length_replicate] at hle
    omega
  | cons c a ih =>
    by_cases hc : c = mark
    · subst hc
      have hshift : List.replicate d c ++ c :: a = List.replicate (d + 1) c ++ a := by
        rw [List.replicate_succ', List.append_assoc]
        rfl
      rw [hshift]
      simp only [quiet, count_mark, ne_eq, not_true, false_or, Bool.and_eq_true, decide_eq_true_eq]
      rcases Nat.lt_or_ge (d + 1) k with hlt | hle
      · rw [← ih hlt]
        exact and_iff_right hlt
      · obtain rfl : k = d + 1 := by omega
        exact iff_of_false (fun h => absurd h.1 (Nat.lt_irrefl _))
          (not_not.mpr (List.prefix_append _ _).isInfix)
    · have hk : 0 < k := by omega
      have hmem : c ∉ List.replicate k mark := fun h => hc (List.eq_of_mem_replicate h)
      simp only [quiet, count_other hc, ne_eq, hc, not_false_eq_true, true_or, decide_true, Bool.true_and]
      rw [ih hk, not_iff_not]
      refine ⟨fun h => ?_, fun h => ?_⟩
      · obtain ⟨p, q, heq⟩ := h
        rw [List.replicate_zero, List.nil_append] at heq
        exact ⟨List.replicate d mark ++ c :: p, q, by rw [← heq]; simp⟩
      · rcases infix_around hmem h with h | h
        · have hle := h.length_le
          rw [List.length_replicate, List.length_replicate] at hle
          omega
        · simpa using h

/-! ## What a window holds -/

/-- An open window holds no run of `k` marks and has room; it is empty only
within the run that opened it. -/
structure Sound (mark : α) (k n : Nat) (s : WindowReader α) : Prop where
  quiet : ∀ w ∈ s.window, quiet mark k 0 w = true
  marks : ∀ w ∈ s.window, marksAfter mark 0 w ≤ s.marks
  room : ∀ w ∈ s.window, w.length < n ∨ n = 0
  empty : some [] = s.window → k ≤ s.marks

theorem sound_idle (d : Nat) : Sound mark k n ⟨d, none⟩ where
  quiet := fun _ h => (by cases h)
  marks := fun _ h => (by cases h)
  room := fun _ h => (by cases h)
  empty := fun h => (by cases h)

theorem quiet_concat {w : List α} (hw : quiet mark k 0 w = true)
    (hmarks : marksAfter mark 0 w ≤ s.marks) (hlt : count mark s.marks c < k) :
    quiet mark k 0 (w ++ [c]) = true := by
  rw [quiet_append, hw]
  by_cases hc : c = mark
  · subst hc
    rw [count_mark] at hlt
    have hroom : marksAfter c 0 w + 1 < k := by omega
    simp [quiet, hroom]
  · simp [quiet, hc]

/-- One byte keeps this, and the window it closes is `n` bytes without a run. -/
theorem step_sound (hk : 0 < k) (h : Sound mark k n s) :
    Sound mark k n (step mark k n c s).2 ∧
      ∀ w ∈ (step mark k n c s).1, quiet mark k 0 w = true ∧ w.length = n ∧ w ≠ [] := by
  rcases s with ⟨d, _ | w⟩
  · refine ⟨?_, fun w hw => by cases hw⟩
    simp only [step]
    split
    next hmarks =>
      refine ⟨?_, ?_, ?_, fun _ => Nat.le_of_eq hmarks.symm⟩
      · rintro w hw
        cases hw
        rfl
      · rintro w hw
        cases hw
        exact Nat.zero_le _
      · rintro w hw
        cases hw
        exact (Nat.eq_zero_or_pos n).symm
    next => exact sound_idle _
  · have hwq := h.quiet w rfl
    have hwm := h.marks w rfl
    simp only [step]
    split
    next hle =>
      refine ⟨⟨?_, ?_, ?_, fun _ => hle⟩, fun w hw => by cases hw⟩
      · rintro w hw
        cases hw
        exact hwq
      · rintro w hw
        cases hw
        -- the run goes on: another byte would have reset the count
        have hc : c = mark := by
          by_contra hc
          rw [count_other hc] at hle
          omega
        rw [hc, count_mark]
        exact Nat.le_succ_of_le hwm
      · rintro w hw
        cases hw
        exact h.room w rfl
    next hlt =>
      have hquiet := quiet_concat hwq hwm (Nat.not_le.mp hlt)
      split
      next hlen =>
        refine ⟨sound_idle _, ?_⟩
        rintro w hw
        cases hw
        exact ⟨hquiet, hlen, List.concat_ne_nil _ _⟩
      next hlen =>
        refine ⟨⟨?_, ?_, ?_, ?_⟩, fun w hw => by cases hw⟩
        · rintro w hw
          cases hw
          exact hquiet
        · rintro w hw
          cases hw
          rw [marksAfter_concat]
          show count mark (marksAfter mark 0 w) c ≤ count mark d c
          have hle : marksAfter mark 0 w ≤ d := hwm
          unfold count
          split <;> omega
        · rintro w hw
          cases hw
          have hroom := h.room w rfl
          simp only [List.length_append, List.length_cons, List.length_nil] at hlen ⊢
          omega
        · intro hnil
          exact absurd (Option.some.inj hnil).symm (List.concat_ne_nil _ _)

theorem after_sound (hk : 0 < k) (h : Sound mark k n s) : Sound mark k n (after mark k n a s) := by
  induction a generalizing s with
  | nil => exact h
  | cons c a ih => exact ih (step_sound hk h).1

/-- **No window holds a run of `k` marks.** -/
theorem closed_isQuiet (hk : 0 < k) (h : Sound mark k n s) :
    ∀ w ∈ closed mark k n a s, quiet mark k 0 w = true ∧ w.length = n ∧ w ≠ [] := by
  induction a generalizing s with
  | nil =>
    intro w hw
    cases hw
  | cons c a ih =>
    intro w hw
    obtain ⟨hsound, hstep⟩ := @step_sound _ _ mark k n s c hk h
    rcases List.mem_append.mp hw with hw | hw
    · exact hstep w (Option.mem_toList.mp hw)
    · exact ih hsound w hw

/-! ## A delimiter -/

/-- With its last byte, and with no earlier one, the text closes a window that holds `r`. -/
def FoundLast (mark : α) (k : Nat) (r text : List α) (s : WindowReader α) : Prop :=
  ∀ j ≤ text.length, r ∈ closed mark k r.length (text.take j) s ↔ j = text.length

/-- What is closed is closed with every longer text. -/
theorem closed_take {j : Nat} (r : List α) (h : r ∈ closed mark k n (a.take j) s) :
    r ∈ closed mark k n a s := by
  rw [← List.take_append_drop j a, closed_append]
  exact List.mem_append_left _ h

/-- Behind `k` marks that opened a window, exactly `r` closes it. -/
theorem closed_open_take {r : List α} (hk : 0 < k) (hr : quiet mark k k r = true) (hne : r ≠ [])
    (j : Nat) : closed mark k r.length (r.take j) ⟨k, some []⟩ = if r.length ≤ j then [r] else [] := by
  split
  next h =>
    rw [List.take_of_length_le h]
    exact (@closing_quiet _ _ mark k r.length k r hk hr hne [] (Nat.zero_add _)).1
  next h =>
    have htake : quiet mark k k (r.take j) = true := by
      rw [← List.take_append_drop j r, quiet_append, Bool.and_eq_true] at hr
      exact hr.1
    refine (@open_quiet _ _ mark k r.length k _ hk htake [] ?_).1
    rw [List.length_take, List.length_nil]
    omega

/-- The rest of a delimiter begins with another byte, so the marks in front do not matter. -/
theorem quiet_behind {r : List α} (hhead : r.head? ≠ some mark) (h : quiet mark k 0 r = true) (d : Nat) :
    quiet mark k d r = true := by
  cases r with
  | nil => rfl
  | cons c r =>
    have hc : c ≠ mark := fun heq => hhead (by rw [heq]; rfl)
    have htail := quiet_tail h
    rw [count_other hc] at htail
    simp [quiet, hc, count_other hc, htail]

/-- Behind the `k`-th mark a window is open: the one that was, or a new one. -/
theorem closed_behind {r text : List α} (hmarks : marksAfter mark s.marks text + 1 = k) (j : Nat) :
    closed mark k n ((text ++ mark :: r).take (text.length + 1 + j)) s =
      closed mark k n text s ++
        closed mark k n (r.take j) ⟨k, some ((after mark k n text s).window.getD [])⟩ := by
  have hafter := @after_marks _ _ mark k n text s
  have hcount : count mark (marksAfter mark s.marks text) mark = k := by rw [count_mark, hmarks]
  have htake : (text ++ mark :: r).take (text.length + 1 + j) = text ++ mark :: r.take j := by
    rw [Nat.add_assoc, List.take_length_add_append, Nat.add_comm 1 j, List.take_succ_cons]
  have hstep : step mark k n mark (after mark k n text s) =
      (none, ⟨k, some ((after mark k n text s).window.getD [])⟩) := by
    unfold step
    rw [hafter, hcount]
    cases (after mark k n text s).window with
    | none => simp
    | some w => simp
  rw [htake, closed_append, closed, hstep]
  rfl

/-- A window that holds some bytes closes within `r`, and no other one does. -/
theorem closed_late {r w : List α} (hk : 0 < k) (hr : quiet mark k k r = true) (hw : w ≠ [])
    (hroom : w.length < r.length) :
    ∃ i < r.length, ∃ x, closed mark k r.length (r.take i) ⟨k, some w⟩ = [x] ∧
      closed mark k r.length r ⟨k, some w⟩ = [x] ∧
      (after mark k r.length r ⟨k, some w⟩).window = none := by
  have hpos : 0 < w.length := List.length_pos_iff.mpr hw
  have hlen : (r.take (r.length - w.length)).length = r.length - w.length := by
    rw [List.length_take]
    omega
  have hne : r.take (r.length - w.length) ≠ [] := List.ne_nil_of_length_pos (by omega)
  have hsplit : quiet mark k k (r.take (r.length - w.length) ++ r.drop (r.length - w.length)) = true := by
    rwa [List.take_append_drop]
  rw [quiet_append, Bool.and_eq_true] at hsplit
  obtain ⟨hclosed, hafter⟩ := @closing_quiet _ _ mark k r.length k _ hk hsplit.1 hne w (by omega)
  obtain ⟨hrest, hrestAfter⟩ := @idle_quiet _ _ mark k r.length _ _ hk hsplit.2
  refine ⟨r.length - w.length, by omega, _, hclosed, ?_, ?_⟩
  · have h := @closed_append _ _ mark k r.length (r.take (r.length - w.length))
      (r.drop (r.length - w.length)) ⟨k, some w⟩
    rwa [List.take_append_drop, hclosed, hafter, hrest] at h
  · have h := @after_append _ _ mark k r.length ⟨k, some w⟩ (r.take (r.length - w.length))
      (r.drop (r.length - w.length))
    rw [List.take_append_drop, hafter, hrestAfter] at h
    rw [h]

/-- **A delimiter is found with its last byte exactly when** it can be found, nothing
in front of its `k`-th mark is taken for it, and no window is open there. -/
theorem found_iff {r text : List α} (hk : 0 < k) (hhead : r.head? ≠ some mark)
    (hs : Sound mark k r.length s) (hmarks : marksAfter mark s.marks text + 1 = k) :
    FoundLast mark k r (text ++ mark :: r) s ↔
      r ≠ [] ∧ quiet mark k 0 r = true ∧ r ∉ closed mark k r.length text s ∧
        (after mark k r.length text s).window = none := by
  have hlen : (text ++ mark :: r).length = text.length + 1 + r.length := by
    rw [List.length_append, List.length_cons]
    omega
  have hclosed := @closed_behind _ _ mark k r.length s r text hmarks
  have hall := hclosed r.length
  rw [← hlen, List.take_length, List.take_length] at hall
  refine ⟨fun h => ?_, fun ⟨hne, hr, hno, hidle⟩ => ?_⟩
  · have hmem : r ∈ closed mark k r.length (text ++ mark :: r) s := by
      have hlast := (h _ (Nat.le_refl _)).mpr rfl
      rwa [List.take_length] at hlast
    obtain ⟨hr, -, hne⟩ := closed_isQuiet hk hs r hmem
    have hno : r ∉ closed mark k r.length text s := by
      intro hin
      have heq := (h text.length (by omega)).mp (by rwa [List.take_left' rfl])
      omega
    refine ⟨hne, hr, hno, ?_⟩
    cases hw : (after mark k r.length text s).window with
    | none => rfl
    | some w =>
      exfalso
      have hsound := @after_sound _ _ mark k r.length s text hk hs
      have hwne : w ≠ [] := by
        intro hnil
        have hle := hsound.empty (by rw [hw, hnil])
        rw [after_marks] at hle
        omega
      have hpos : 0 < r.length := List.length_pos_iff.mpr hne
      have hroom : w.length < r.length := (hsound.room w hw).resolve_right (by omega)
      obtain ⟨i, hi, x, hearly, hlate, -⟩ := closed_late hk (quiet_behind hhead hr k) hwne hroom
      rw [hall, hw, Option.getD_some, hlate] at hmem
      -- it closes in front of the last byte, where `r` must not be found
      have hin := (List.mem_append.mp hmem).resolve_left hno
      rw [← hearly] at hin
      have heq := (h (text.length + 1 + i) (by omega)).mp (by
        rw [hclosed, hw, Option.getD_some]
        exact List.mem_append_right _ hin)
      omega
  · intro j hj
    have hopen := @closed_open_take _ _ mark k r hk (quiet_behind hhead hr k) hne
    refine ⟨fun hin => ?_, fun heq => ?_⟩
    · by_contra hlt
      rcases Nat.lt_or_ge j (text.length + 1) with hlt' | hle
      · rw [List.take_append_of_le_length (by omega)] at hin
        exact hno (closed_take r hin)
      · obtain ⟨i, rfl⟩ := Nat.exists_eq_add_of_le hle
        rw [hclosed, hidle, Option.getD_none, hopen, if_neg (by omega), List.append_nil] at hin
        exact hno hin
    · have hlast := hopen r.length
      rw [List.take_length, if_pos (Nat.le_refl _)] at hlast
      rw [heq, List.take_length, hall, hidle, Option.getD_none, hlast]
      exact List.mem_append_right _ (List.mem_singleton.mpr rfl)

/-- Behind a delimiter that was found no window is open. -/
theorem found_after {r text : List α} (hk : 0 < k) (hhead : r.head? ≠ some mark) (hne : r ≠ [])
    (hr : quiet mark k 0 r = true) (hmarks : marksAfter mark s.marks text + 1 = k)
    (hidle : (after mark k r.length text s).window = none) :
    after mark k r.length (text ++ mark :: r) s = ⟨marksAfter mark k r, none⟩ := by
  have hafter := @after_marks _ _ mark k r.length text s
  have hcount : count mark (marksAfter mark s.marks text) mark = k := by rw [count_mark, hmarks]
  have hstep : step mark k r.length mark (after mark k r.length text s) = (none, ⟨k, some []⟩) := by
    unfold step
    rw [hafter, hcount, hidle]
    simp
  rw [after_append, after_cons, hstep]
  exact (@closing_quiet _ _ mark k r.length k r hk (quiet_behind hhead hr k) hne []
    (Nat.zero_add _)).2

/-- Behind a delimiter, found or missed, no window is open. -/
theorem idle_behind {r text : List α} (hk : 0 < k) (hhead : r.head? ≠ some mark) (hne : r ≠ [])
    (hr : quiet mark k 0 r = true) (hs : Sound mark k r.length s)
    (hmarks : marksAfter mark s.marks text + 1 = k) :
    (after mark k r.length (text ++ mark :: r) s).window = none := by
  have hafter := @after_marks _ _ mark k r.length text s
  have hcount : count mark (marksAfter mark s.marks text) mark = k := by rw [count_mark, hmarks]
  cases hw : (after mark k r.length text s).window with
  | none => rw [found_after hk hhead hne hr hmarks hw]
  | some w =>
    have hsound := @after_sound _ _ mark k r.length s text hk hs
    have hwne : w ≠ [] := by
      intro hnil
      have hle := hsound.empty (by rw [hw, hnil])
      rw [after_marks] at hle
      omega
    have hpos : 0 < r.length := List.length_pos_iff.mpr hne
    have hroom : w.length < r.length := (hsound.room w hw).resolve_right (by omega)
    have hstep : step mark k r.length mark (after mark k r.length text s) = (none, ⟨k, some w⟩) := by
      unfold step
      rw [hafter, hcount, hw]
      simp
    obtain ⟨-, -, -, -, -, hlate⟩ := closed_late hk (quiet_behind hhead hr k) hwne hroom
    rw [after_append, after_cons, hstep]
    exact hlate

theorem step_mem (w : List α) (h : (step mark k n c s).1 = some w ∨ (step mark k n c s).2.window = some w) :
    ∀ x ∈ w, x = c ∨ ∃ v ∈ s.window, x ∈ v := by
  intro x hx
  have hconcat : ∀ v, x ∈ v ++ [c] → x ∈ v ∨ x = c := fun v hv => by simpa using hv
  rcases s with ⟨d, _ | v⟩
  · rcases h with h | h
    · cases h
    · simp only [step] at h
      split at h
      · cases h
        cases hx
      · cases h
  · simp only [step] at h
    split at h
    · rcases h with h | h
      · cases h
      · cases h
        exact Or.inr ⟨_, rfl, hx⟩
    · split at h
      · rcases h with h | h
        · cases h
          exact (hconcat v hx).symm.imp_right fun hv => ⟨v, rfl, hv⟩
        · cases h
      · rcases h with h | h
        · cases h
        · cases h
          exact (hconcat v hx).symm.imp_right fun hv => ⟨v, rfl, hv⟩

/-- What a window holds comes from the text, or from the window that was open in front of it. -/
theorem closed_mem : ∀ w ∈ closed mark k n a s, ∀ x ∈ w, x ∈ a ∨ ∃ v ∈ s.window, x ∈ v := by
  induction a generalizing s with
  | nil =>
    intro w hw
    cases hw
  | cons c a ih =>
    intro w hw x hx
    rcases List.mem_append.mp hw with hw | hw
    · rcases step_mem w (Or.inl (Option.mem_toList.mp hw)) x hx with rfl | h
      · exact Or.inl List.mem_cons_self
      · exact Or.inr h
    · rcases ih w hw x hx with h | ⟨v, hv, hxv⟩
      · exact Or.inl (List.mem_cons_of_mem _ h)
      · rcases step_mem v (Or.inr hv) x hxv with rfl | h
        · exact Or.inl List.mem_cons_self
        · exact Or.inr h

end

end WindowReader
end Lib
