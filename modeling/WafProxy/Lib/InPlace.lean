import WafProxy.Lib.Cells

/-
  Loops that rewrite a text in its own array

  The loop reads the text from `i` on and writes behind `count`, in the same array.
  Each turn consumes some of the text and emits no more than it consumed, so
  `count` stays at or in front of `i`, and nothing is overwritten before it is read.

  Rules:
    1. `TurnLog` — the log of turns that consumed the text between two indices; one
       rule for each access, and one for turns behind each other.
    2. `ends_rewrite` — a loop whose turns do what `step` does with the text leaves
       what `rewritten` makes of it; `rewriting_cons` unfolds that by one turn.
    3. `ends_scan` — going on to the first cell that fails a test.
    4. `ends_emit`, `ends_copyOut` — a turn that emits one element, and a stretch
       that is copied.
-/

namespace Lib
variable {ν β : Type}

/-- The log of turns that consumed the array from `i` up to `i'`. -/
structure TurnLog (size : ν → Int) (i i' : Int) (log : List (Event ν)) : Prop where
  inside : Prog.Inside size log
  readFirst : Prog.ReadFirst log
  readsFrom : Prog.ReadsFrom i log
  writesBelow : Prog.WritesBelow i' log

namespace TurnLog
variable {size : ν → Int} {a : ν} {i i' j k k' : Int} {log l r : List (Event ν)}

theorem append (hl : TurnLog size i j l) (hr : TurnLog size j k r) (hij : i ≤ j) (hjk : j ≤ k) :
    TurnLog size i k (l ++ r) where
  inside := Prog.inside_append.mpr ⟨hl.inside, hr.inside⟩
  readFirst := hl.readFirst.append hr.readFirst hl.writesBelow hr.readsFrom
  readsFrom := hl.readsFrom.append (hr.readsFrom.mono hij)
  writesBelow := (hl.writesBelow.mono hjk).append hr.writesBelow

/-- Accesses in front that only read. -/
theorem behind (hr : TurnLog size i k r) (hl : ∀ k, TurnLog size i k l) : TurnLog size i k (l ++ r) where
  inside := Prog.inside_append.mpr ⟨(hl k).inside, hr.inside⟩
  readFirst := (hl k).readFirst.append hr.readFirst (hl i).writesBelow hr.readsFrom
  readsFrom := (hl k).readsFrom.append hr.readsFrom
  writesBelow := (hl k).writesBelow.append hr.writesBelow

theorem nil : TurnLog size i i' [] := ⟨by simp, by simp, by simp, by simp⟩

theorem read (h : TurnLog size i i' log) (hi : i ≤ j) (hj : 0 ≤ j ∧ j < size a) :
    TurnLog size i i' (.read a j :: log) where
  inside := Prog.inside_read.mpr ⟨hj, h.inside⟩
  readFirst := Prog.readFirst_read.mpr h.readFirst
  readsFrom := Prog.readsFrom_read.mpr ⟨hi, h.readsFrom⟩
  writesBelow := Prog.writesBelow_read.mpr h.writesBelow

theorem write (h : TurnLog size i i' log) (hlater : .read a j ∉ log) (hi : j < i')
    (hj : 0 ≤ j ∧ j < size a) : TurnLog size i i' (.write a j :: log) where
  inside := Prog.inside_write.mpr ⟨hj, h.inside⟩
  readFirst := Prog.readFirst_write.mpr ⟨hlater, h.readFirst⟩
  readsFrom := Prog.readsFrom_write.mpr h.readsFrom
  writesBelow := Prog.writesBelow_write.mpr ⟨hi, h.writesBelow⟩

theorem mono (h : TurnLog size i i' log) (hk : k ≤ i) (hk' : i' ≤ k') : TurnLog size k k' log :=
  ⟨h.inside, h.readFirst, h.readsFrom.mono hk, h.writesBelow.mono hk'⟩

/-- What is written in front of all reads of the log. -/
theorem notRead (h : TurnLog size i i' log) (hj : j < i) : .read a j ∉ log := fun hmem => by
  have hle := h.readsFrom a j hmem
  omega

end TurnLog

/-- What the turns emit of a text, at most `n` of them. -/
def rewritten (step : List β → List β × List β) : Nat → List β → List β
  | 0, _ => []
  | _ + 1, [] => []
  | n + 1, b :: text => (step (b :: text)).1 ++ rewritten step n (step (b :: text)).2

/-- Every turn consumes an element. -/
def Consumes (step : List β → List β × List β) : Prop := ∀ b text, (step (b :: text)).2.length ≤ text.length

/-- What the turns emit of a whole text. -/
def rewriting (step : List β → List β × List β) (text : List β) : List β := rewritten step text.length text

/-- As many turns as elements are enough. -/
theorem rewritten_fuel {step : List β → List β × List β} (h : Consumes step) : ∀ (n m : Nat) (text : List β),
    text.length ≤ n → text.length ≤ m → rewritten step n text = rewritten step m text := by
  intro n
  induction n with
  | zero =>
    intro m text hn _
    obtain rfl := List.eq_nil_of_length_eq_zero (Nat.le_zero.mp hn)
    cases m <;> rfl
  | succ n ih =>
    intro m text hn hm
    cases text with
    | nil => cases m <;> rfl
    | cons b text =>
      rw [List.length_cons] at hn hm
      obtain ⟨m, rfl⟩ : ∃ k, m = k + 1 := ⟨m - 1, by omega⟩
      have hle := h b text
      rw [rewritten, rewritten, ih m _ (by omega) (by omega)]

theorem rewriting_cons {step : List β → List β × List β} (h : Consumes step) (b : β) (text : List β) :
    rewriting step (b :: text) = (step (b :: text)).1 ++ rewriting step (step (b :: text)).2 := by
  have hle := h b text
  unfold rewriting
  rw [List.length_cons, rewritten, rewritten_fuel h text.length _ _ hle (Nat.le_refl _)]

/-- What a turn at `i` and `count` leaves when it does what `step` does with the text at `i`. -/
def Emits (a : ν) (size : ν → Int) (i count : Int) (text : List β) (out : List β × List β) (c : Cells ν β)
    (r : (Int × Int) ⊕ Int) (c' : Cells ν β) (log : List (Event ν)) : Prop :=
  ∃ used, text = used ++ out.2 ∧ used ≠ [] ∧ out.1.length ≤ used.length ∧
    r = .inl (i + used.length, count + out.1.length) ∧ c'.At a count out.1 ∧
    Cells.Within a count (count + out.1.length) c c' ∧ TurnLog size i (i + used.length) log

/-- Accesses in front that only read. -/
theorem Emits.behind {a : ν} {size : ν → Int} {i count : Int} {text : List β} {out : List β × List β}
    {c c' : Cells ν β} {r : (Int × Int) ⊕ Int} {l log : List (Event ν)}
    (h : Emits a size i count text out c r c' log) (hl : ∀ k, TurnLog size i k l) :
    Emits a size i count text out c r c' (l ++ log) := by
  obtain ⟨used, htext, hused, hle, hr, hat, hwithin, hlog⟩ := h
  exact ⟨used, htext, hused, hle, hr, hat, hwithin, hlog.behind hl⟩

/-- The turns of a loop that rewrites a text which ends at `len`, with `stop` behind it. -/
structure Rewriter (turn : Int × Int → Prog ν β ((Int × Int) ⊕ Int)) (a : ν) (len : Int) (size : ν → Int)
    (stop : β) (step : List β → List β × List β) : Prop where
  last : ∀ count, turn (len, count) = pure (.inr count)
  next : ∀ (b : β) (text : List β) (i count : Int) (c : Cells ν β), c.At a i (b :: text ++ [stop]) →
    i + (b :: text).length = len → 0 ≤ count ∧ count ≤ i →
    Prog.Ends (turn (i, count)) c (Emits a size i count (b :: text) (step (b :: text)) c)

section
variable {turn : Int × Int → Prog ν β ((Int × Int) ⊕ Int)} {a : ν} {len : Int} {size : ν → Int} {stop : β}
  {step : List β → List β × List β}

theorem Rewriter.ends_last (h : Rewriter turn a len size stop step) (n : Nat) (i' count : Int)
    (c : Cells ν β) : Prog.Ends (Prog.loop turn (n + 1) (len, count)) c fun r c' log =>
      r = count ∧ c' = c ∧ TurnLog size len i' log := by
  rw [Prog.loop_succ, h.last, Prog.ends_bind, Prog.ends_pure]
  show Prog.Ends (pure count) c _
  rw [Prog.ends_pure]
  exact ⟨rfl, rfl, TurnLog.nil⟩

/-- **Rewriting in place.** What is left of the text is rewritten behind what is there. -/
theorem ends_rewrite (h : Rewriter turn a len size stop step) : ∀ (n : Nat) (text : List β) (i count : Int)
    (c : Cells ν β), c.At a i (text ++ [stop]) → i + text.length = len → 0 ≤ count ∧ count ≤ i →
    text.length ≤ n →
    Prog.Ends (Prog.loop turn (n + 1) (i, count)) c fun r c' log =>
      r = count + (rewritten step n text).length ∧ r ≤ len ∧ c'.At a count (rewritten step n text) ∧
        Cells.Within a count len c c' ∧ TurnLog size i len log := by
  have hnil : ∀ (n : Nat) (i count : Int) (c : Cells ν β), i + ([] : List β).length = len → count ≤ i →
      Prog.Ends (Prog.loop turn (n + 1) (i, count)) c fun r c' log =>
        r = count + (rewritten step n []).length ∧ r ≤ len ∧ c'.At a count (rewritten step n []) ∧
          Cells.Within a count len c c' ∧ TurnLog size i len log := by
    intro n i count c hi hcount
    have hempty : rewritten step n [] = [] := by cases n <;> rfl
    rw [List.length_nil] at hi
    obtain rfl : i = len := by omega
    rw [hempty]
    refine (h.ends_last n i count c).mono ?_
    rintro r c' log ⟨rfl, rfl, hlog⟩
    exact ⟨by simp, hcount, trivial, Cells.Within.refl _ _ _ _, hlog⟩
  intro n
  induction n with
  | zero =>
    intro text i count c _ hlen hcount hn
    obtain rfl := List.eq_nil_of_length_eq_zero (Nat.le_zero.mp hn)
    exact hnil 0 i count c hlen hcount.2
  | succ n ih =>
    intro text i count c hat hlen hcount hn
    cases text with
    | nil => exact hnil (n + 1) i count c hlen hcount.2
    | cons b text =>
      rw [Prog.loop_succ, rewritten]
      refine (h.next b text i count c hat hlen hcount).bind ?_
      rintro r c' log ⟨used, htext, hused, hemit, rfl, hat', hwithin, hlog⟩
      have hpos := List.length_pos_iff.mpr hused
      have hall := congrArg List.length htext
      rw [List.length_append] at hall
      have hrest : c'.At a (i + used.length) ((step (b :: text)).2 ++ [stop]) := by
        rw [htext, List.append_assoc, Cells.at_append] at hat
        exact hat.2.within hwithin (Or.inr (Or.inr (by omega)))
      refine (ih _ _ _ c' hrest (by omega) (by omega) (by omega)).mono ?_
      rintro r c'' log' ⟨rfl, hle, hat'', hwithin', hlog'⟩
      refine ⟨?_, hle, ?_, ?_, ?_⟩
      · rw [List.length_append]
        omega
      · exact Cells.at_append.mpr ⟨hat'.within hwithin' (Or.inr (Or.inl (Int.le_refl _))), hat''⟩
      · exact (hwithin.mono (Int.le_refl _) (by omega)).trans (hwithin'.mono (by omega) (Int.le_refl _))
      · exact hlog.append hlog' (by omega) (by omega)

end

/-! ## Looking ahead -/

/-- The first index from `j` on, in front of `stop`, whose cell fails the test. -/
def scan (p : β → Bool) (a : ν) (stop : Int) : Nat → Int → Prog ν β Int
  | 0, j => pure j
  | n + 1, j =>
    if j < stop then do
      let b ← Prog.read a j
      if p b then scan p a stop n (j + 1) else pure j
    else pure j

/-- The cells that pass the test are gone through. -/
theorem ends_scan {p : β → Bool} {a : ν} {stop : Int} {size : ν → Int} (hsize : stop ≤ size a) :
    ∀ (l : List β) (j : Int) (c : Cells ν β), c.At a j l → j + l.length = stop → 0 ≤ j →
    Prog.Ends (scan p a stop l.length j) c fun k c' log =>
      k = j + (l.takeWhile p).length ∧ c' = c ∧ ∀ i', TurnLog size j i' log := by
  intro l
  induction l with
  | nil =>
    intro j c _ _ _
    exact Prog.ends_pure.mpr ⟨by simp, rfl, fun _ => TurnLog.nil⟩
  | cons b l ih =>
    intro j c h hstop hj
    rw [List.length_cons] at hstop ⊢
    rw [scan, if_pos (by omega), List.takeWhile_cons]
    simp only [Prog.ends_bind, Prog.ends_read, h.1]
    cases p b with
    | false =>
      rw [if_neg Bool.false_ne_true]
      exact Prog.ends_pure.mpr ⟨by simp, rfl, fun _ => TurnLog.nil.read (Int.le_refl j) (by omega)⟩
    | true =>
      rw [if_pos rfl]
      refine (ih (j + 1) c h.2 (by omega) (by omega)).mono ?_
      rintro k c' log ⟨rfl, rfl, hlog⟩
      refine ⟨?_, rfl, fun i' => ?_⟩
      · rw [if_pos rfl, List.length_cons]
        omega
      · exact ((hlog i').mono (show j ≤ j + 1 by omega) (Int.le_refl i')).read (Int.le_refl j) (by omega)

/-! ## Emitting -/

section
variable [DecidableEq ν] {a : ν} {size : ν → Int} {i count len : Int} {c : Cells ν β} {b : β}

/-- One element is written at `count`, and `k` are consumed. -/
theorem ends_emit (hsize : len < size a) (hcount : 0 ≤ count ∧ count ≤ i) {k : Int} (hk : 1 ≤ k ∧ i + k ≤ len) :
    Prog.Ends (Prog.write a count b >>= fun _ => pure (.inl (i + k, count + 1) : (Int × Int) ⊕ Int)) c
      fun r c' log => r = .inl (i + k, count + 1) ∧ c'.At a count [b] ∧
        Cells.Within a count (count + 1) c c' ∧ TurnLog size i (i + k) log := by
  simp only [Prog.ends_bind, Prog.ends_write, Prog.ends_pure, true_and]
  refine ⟨?_, ?_, ?_⟩
  · exact Cells.at_singleton.mpr Cells.set_same
  · exact (Cells.Within.refl _ _ _ _).set (Int.le_refl _) (by omega)
  · exact TurnLog.nil.write List.not_mem_nil (by omega) (by omega)

/-- At most `n` elements from `i` on to `count`, as long as `count` is in front of `len`. -/
def copyOut (a : ν) (len : Int) : Nat → Int × Int → Prog ν β (Int × Int)
  | 0, s => pure s
  | n + 1, (i, count) =>
    if count < len then do
      let b ← Prog.read a i
      Prog.write a count b
      copyOut a len n (i + 1, count + 1)
    else pure (i, count)

/-- A stretch is copied to its place behind what is there. -/
theorem ends_copyOut (hsize : len < size a) : ∀ (l : List β) (i count : Int) (c : Cells ν β), c.At a i l →
    i + l.length ≤ len → 0 ≤ count ∧ count ≤ i →
    Prog.Ends (copyOut a len l.length (i, count)) c fun r c' log =>
      r = (i + l.length, count + l.length) ∧ c'.At a count l ∧
        Cells.Within a count (count + l.length) c c' ∧ TurnLog size i (i + l.length) log := by
  intro l
  induction l with
  | nil =>
    intro i count c _ _ _
    exact Prog.ends_pure.mpr ⟨by simp, trivial, Cells.Within.refl _ _ _ _, TurnLog.nil⟩
  | cons b l ih =>
    intro i count c hat hlen hcount
    rw [List.length_cons] at hlen ⊢
    rw [copyOut, if_pos (by omega)]
    simp only [Prog.ends_bind, Prog.ends_read, Prog.ends_write, hat.1]
    have hrest : (c.set a count b).At a (i + 1) l := hat.2.set (Or.inr (Or.inl (by omega)))
    refine (ih (i + 1) (count + 1) _ hrest (by omega) (by omega)).mono ?_
    rintro r c' log ⟨rfl, hat', hwithin, hlog⟩
    refine ⟨?_, ⟨?_, hat'⟩, ?_, ?_⟩
    · rw [Prod.mk.injEq]
      omega
    · rw [hwithin a count (Or.inr (Or.inl (by omega)))]
      exact Cells.set_same
    · have hstep : Cells.Within a count (count + ((l.length + 1 : Nat) : Int)) c (c.set a count b) :=
        (Cells.Within.refl _ _ _ _).set (Int.le_refl _) (by omega)
      exact hstep.trans (hwithin.mono (by omega) (by omega))
    · have hlog' := hlog.mono (show i ≤ i + 1 by omega)
        (show i + 1 + (l.length : Int) ≤ i + ((l.length + 1 : Nat) : Int) by omega)
      exact (hlog'.write (hlog.notRead (by omega)) (by omega) (by omega)).read (Int.le_refl i) (by omega)

end

end Lib
