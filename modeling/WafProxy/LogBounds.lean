import Mathlib.Logic.Function.Basic
import WafProxy.LogText

/-
  The attack log — where the escaper stops

  `_escape_append_str` tests for room once for each character, and a quote takes
  two bytes: one that meets the last byte of the limit writes the byte behind it.
  For `url`, `agent` and `raw` the limit leaves one byte for a NUL, which such a
  quote takes; `cookie` is given its whole size, without one.

  What is proved:
    1. `escapeAppendLoop_eq`, `escapeAppendLoop_mem` — the loop returns how much it wrote, and writes what
       `escapeAppendStr` says.
    2. `staysInside_iff` — a call keeps to its limit exactly when no quote meets
       the last byte of it.
    3. `escaped_lt_iff` — when a text that is limited by the size of its field
       leaves a byte of it.
    4. `escaping_bounded_iff` — both, for a call and for the four fields of
       `log_attack`.

  Correspondence (C ↔ Lean):
    the loop of `_escape_append_str`   ↔ `escapeAppendLoop`
-/

namespace WafProxy
open Lib Function

/-! ## The loop -/

/-- `_escape_append_str` to `des`, from the `n`-th byte on: what it returns, and the memory it leaves. -/
def escapeAppendLoop (des max : Nat) : Nat → List Byte → AlogMem → Nat × AlogMem
  | n, [], m => (n, m)
  | n, c :: s, m =>
    if c = 0 ∨ max ≤ n then (n, m)
    else if c = dquote then
      escapeAppendLoop des max (n + 2) s (update (update m (des + n) backslash) (des + (n + 1)) dquote)
    else escapeAppendLoop des max (n + 1) s (update m (des + n) c)

/-- The call writes only `des[0..max)`, and returns at most `max`. -/
def StaysInside (max : Nat) (s : List Byte) : Prop :=
  ∀ des m, (escapeAppendLoop des max 0 s m).1 ≤ max ∧
    ∀ j, j < des ∨ des + max ≤ j → (escapeAppendLoop des max 0 s m).2 j = m j

/-- In front of the end of the text there is a quote that is copied to the last byte of the limit. -/
def QuoteAtLimit (max : Nat) (s : List Byte) : Prop :=
  ∃ front rest, s = front ++ dquote :: rest ∧ 0 ∉ front ∧ front.length + front.count dquote + 1 = max

/-- The bytes a text takes, escaped. -/
def escapedLength (s : List Byte) : Nat := (cString s).length + (cString s).count dquote

/-- An array holds a NUL. -/
def HoldsNul (m : AlogMem) (off size : Nat) : Prop := ∃ j, j < size ∧ m (off + j) = 0

/-- Every escaped array of the structure holds one. -/
structure Terminated (m : AlogMem) : Prop where
  url : HoldsNul m urlAt 127
  agent : HoldsNul m agentAt 128
  cookie : HoldsNul m cookieAt 512
  raw : HoldsNul m rawAt 2047

/-- What the request must be for that. -/
structure LeavesRoom (r : AttackRequest) : Prop where
  url : ¬ QuoteAtLimit 126 r.url
  agent : ¬ QuoteAtLimit 127 r.agent
  cookie : escapedLength r.cookie < 512
  raw : ¬ (2046 ≤ r.pkt.length ∧ QuoteAtLimit 2046 r.pkt)

section
variable {max n : Nat} {s : List Byte}

theorem putBytes_nil (m : AlogMem) (off : Nat) : putBytes m off [] = m := by
  funext j
  rcases Nat.lt_or_ge j off with hlt | hge
  · exact putBytes_lt hlt
  · exact putBytes_ge hge

/-- The first byte, and then the others. -/
theorem putBytes_cons (m : AlogMem) (off : Nat) (b : Byte) (bytes : List Byte) :
    putBytes (update m off b) (off + 1) bytes = putBytes m off (b :: bytes) := by
  funext j
  rcases Nat.lt_trichotomy j off with hlt | rfl | hgt
  · rw [putBytes_lt (Nat.lt_succ_of_lt hlt), putBytes_lt hlt, update_of_ne (Nat.ne_of_lt hlt)]
  · rw [putBytes_lt (Nat.lt_succ_self j), update_self, putBytes_in (Nat.le_refl j) (by simp)]
    simp
  · by_cases hin : j < off + 1 + bytes.length
    · have hsub : j - off = j - (off + 1) + 1 := by omega
      rw [putBytes_in hgt hin, putBytes_in (Nat.le_of_lt hgt) (by rw [List.length_cons]; omega), hsub]
      rfl
    · rw [putBytes_ge (by omega), putBytes_ge (by rw [List.length_cons]; omega), update_of_ne (Nat.ne_of_gt hgt)]

/-- **The loop** returns how much it wrote, and writes what `escapeBytes` says. -/
theorem escapeAppendLoop_eq (des max : Nat) (s : List Byte) : ∀ (n : Nat) (m : AlogMem),
    escapeAppendLoop des max n s m =
      (n + (escapeBytes max n s).length, putBytes m (des + n) (escapeBytes max n s)) := by
  induction s with
  | nil =>
    intro n m
    rw [escapeAppendLoop, escapeBytes, putBytes_nil, List.length_nil, Nat.add_zero]
  | cons c s ih =>
    intro n m
    rw [escapeAppendLoop, escapeBytes]
    by_cases hend : c = 0 ∨ max ≤ n
    · rw [if_pos hend, if_pos hend, putBytes_nil, List.length_nil, Nat.add_zero]
    · rw [if_neg hend, if_neg hend]
      by_cases hc : c = dquote
      · rw [if_pos hc, if_pos hc, ih, ← putBytes_cons, ← putBytes_cons, List.length_cons, List.length_cons]
        refine Prod.ext ?_ rfl
        show n + 2 + _ = _
        omega
      · rw [if_neg hc, if_neg hc, ih, ← putBytes_cons, List.length_cons]
        refine Prod.ext ?_ rfl
        show n + 1 + _ = _
        omega

/-- What the call in the model of `log_attack` leaves. -/
theorem escapeAppendLoop_mem (des max : Nat) (s : List Byte) (m : AlogMem) :
    (escapeAppendLoop des max 0 s m).2 = escapeAppendStr m des s max := by
  rw [escapeAppendLoop_eq]
  rfl

/-! ## The limit -/

theorem quoteAtLimit_quote : QuoteAtLimit 1 (dquote :: s) :=
  ⟨[], s, rfl, List.not_mem_nil, rfl⟩

/-- The bytes that a text takes, with one more byte in front of it. -/
theorem taken_cons (c : Byte) (front : List Byte) : (c :: front).length + (c :: front).count dquote =
    front.length + front.count dquote + if c = dquote then 2 else 1 := by
  rw [List.length_cons]
  by_cases hc : c = dquote
  · rw [if_pos hc, hc, List.count_cons_self]
    omega
  · rw [if_neg hc, List.count_cons_of_ne hc]
    omega

/-- Behind a byte the same question with less room; a quote takes two bytes of it. -/
theorem quoteAtLimit_cons {c : Byte} (hzero : c ≠ 0) (k : Nat) :
    QuoteAtLimit (k + if c = dquote then 2 else 1) (c :: s) ↔ QuoteAtLimit k s := by
  constructor
  · intro h
    obtain ⟨front, rest, heq, hno, hlen⟩ := h
    cases front with
    | nil =>
      rw [if_pos (List.cons.inj heq).1] at hlen
      exact absurd hlen (by simp)
    | cons b front =>
      obtain ⟨rfl, rfl⟩ := List.cons.inj heq
      rw [taken_cons] at hlen
      exact ⟨front, rest, rfl, fun hmem => hno (List.mem_cons_of_mem c hmem), by omega⟩
  · intro h
    obtain ⟨front, rest, heq, hno, hlen⟩ := h
    refine ⟨c :: front, rest, by rw [heq]; rfl, ?_, ?_⟩
    · exact fun hmem => (List.mem_cons.mp hmem).elim (fun h => hzero h.symm) hno
    · rw [taken_cons]
      omega

/-- **The room is enough** unless a quote meets the last byte of it. -/
theorem escapeBytes_le_iff (s : List Byte) : ∀ (n k : Nat),
    (escapeBytes (n + k) n s).length ≤ k ↔ ¬ QuoteAtLimit k s := by
  induction s with
  | nil =>
    intro n k
    refine iff_of_true (Nat.zero_le k) fun h => ?_
    obtain ⟨front, rest, heq, -⟩ := h
    exact absurd heq (by simp)
  | cons c s ih =>
    intro n k
    rw [escapeBytes]
    by_cases hend : c = 0 ∨ n + k ≤ n
    · -- the text ends here, or the room is used up
      rw [if_pos hend]
      refine iff_of_true (Nat.zero_le k) fun h => ?_
      obtain ⟨front, rest, heq, hno, hlen⟩ := h
      have hzero : c = 0 := hend.resolve_right (by omega)
      cases front with
      | nil => exact absurd (hzero.symm.trans (List.cons.inj heq).1) (by decide)
      | cons b front => exact hno (hzero.symm.trans (List.cons.inj heq).1 ▸ List.mem_cons_self)
    · have hzero : c ≠ 0 := fun h => hend (Or.inl h)
      have hpos : 0 < k := by omega
      rw [if_neg hend]
      by_cases hc : c = dquote
      · -- a quote has the last byte to itself, or both of its bytes fit
        rw [if_pos hc, hc, List.length_cons, List.length_cons]
        by_cases hone : k = 1
        · rw [hone]
          exact iff_of_false (by omega) (fun hno => hno quoteAtLimit_quote)
        · obtain ⟨j, rfl⟩ : ∃ j, k = j + 2 := ⟨k - 2, by omega⟩
          have hsum : n + (j + 2) = n + 2 + j := by omega
          have hrest : QuoteAtLimit (j + 2) (dquote :: s) ↔ QuoteAtLimit j s := quoteAtLimit_cons (by decide) j
          rw [hrest, hsum, ← ih (n + 2) j]
          omega
      · obtain ⟨j, rfl⟩ : ∃ j, k = j + 1 := ⟨k - 1, by omega⟩
        have hsum : n + (j + 1) = n + 1 + j := by omega
        have hrest := quoteAtLimit_cons (s := s) hzero j
        rw [if_neg hc] at hrest
        rw [if_neg hc, List.length_cons, hrest, hsum, ← ih (n + 1) j]
        omega

/-- **A call keeps to its limit** unless a quote meets the last byte of it. -/
theorem staysInside_iff (max : Nat) (s : List Byte) : StaysInside max s ↔ ¬ QuoteAtLimit max s := by
  have hlimit := escapeBytes_le_iff s 0 max
  rw [Nat.zero_add] at hlimit
  rw [← hlimit]
  constructor
  · intro h
    have hle := (h 0 fun _ => 0).1
    rwa [escapeAppendLoop_eq, Nat.zero_add] at hle
  · intro hle des m
    rw [escapeAppendLoop_eq]
    refine ⟨by omega, fun j hj => ?_⟩
    rcases hj with hlt | hge
    · exact putBytes_lt hlt
    · exact putBytes_ge (by omega)

/-! ## The fields -/

theorem escapedLength_cons {c : Byte} (hzero : c ≠ 0) :
    escapedLength (c :: s) = escapedLength s + if c = dquote then 2 else 1 := by
  have hfirst : cString (c :: s) = c :: cString s := List.takeWhile_cons_of_pos (by simp [hzero])
  unfold escapedLength
  rw [hfirst, taken_cons]

/-- **A byte of the limit is left** exactly when the whole text takes less. -/
theorem escaped_lt_iff (s : List Byte) : ∀ (n k : Nat),
    (escapeBytes (n + k) n s).length < k ↔ escapedLength s < k := by
  induction s with
  | nil => exact fun _ _ => Iff.rfl
  | cons c s ih =>
    intro n k
    rw [escapeBytes]
    by_cases hzero : c = 0
    · rw [if_pos (Or.inl hzero), hzero]
      exact Iff.rfl
    · by_cases hk : k = 0
      · rw [hk]
        exact iff_of_false (Nat.not_lt_zero _) (Nat.not_lt_zero _)
      · have hend : ¬ (c = 0 ∨ n + k ≤ n) := fun h => h.elim hzero (by omega)
        rw [if_neg hend, escapedLength_cons hzero]
        by_cases hc : c = dquote
        · rw [if_pos hc, if_pos hc, List.length_cons, List.length_cons]
          by_cases hone : k = 1
          · omega
          · obtain ⟨j, rfl⟩ : ∃ j, k = j + 2 := ⟨k - 2, by omega⟩
            have hsum : n + (j + 2) = n + 2 + j := by omega
            have hrest := ih (n + 2) j
            rw [hsum]
            omega
        · obtain ⟨j, rfl⟩ : ∃ j, k = j + 1 := ⟨k - 1, by omega⟩
          have hsum : n + (j + 1) = n + 1 + j := by omega
          have hrest := ih (n + 1) j
          rw [if_neg hc, if_neg hc, List.length_cons, hsum]
          omega

/-- No byte that is written is a NUL. -/
theorem zero_notMem_escapeBytes (max n : Nat) (s : List Byte) : (0 : Byte) ∉ escapeBytes max n s := by
  rw [escapeBytes_eq]
  exact zero_notMem_escape (zero_notMem_copied max s n)

/-- **An array holds a NUL** exactly when what was written to it is shorter. -/
theorem holdsNul_iff {m : AlogMem} {off size : Nat} {bytes : List Byte} (hno : 0 ∉ bytes)
    (hm : ∀ j, j < size → m (off + j) = bytes.getD j 0) : HoldsNul m off size ↔ bytes.length < size := by
  constructor
  · intro h
    obtain ⟨j, hj, hzero⟩ := h
    rw [hm j hj] at hzero
    apply Nat.lt_of_le_of_lt (Nat.le_of_not_lt fun hlt => ?_) hj
    rw [List.getD_eq_getElem?_getD, List.getElem?_eq_getElem hlt, Option.getD_some] at hzero
    exact hno (hzero ▸ List.getElem_mem hlt)
  · intro hlt
    refine ⟨bytes.length, hlt, ?_⟩
    rw [hm _ hlt, List.getD_eq_getElem?_getD, List.getElem?_eq_none (Nat.le_refl _), Option.getD_none]

end

section
variable {r : AttackRequest} {slog : Sublog}

/-- An escaped field in front of `raw`. -/
theorem holdsNul_field {k off size lim : Nat} {s : List Byte}
    (hk : (alogWrites r slog)[k]? = some (off, escapeBytes lim 0 s)) (hstop : fieldEnds[k]? = some (off + size))
    (hraw : off + size ≤ rawAt) :
    HoldsNul (alogOf r slog).mem off size ↔ (escapeBytes lim 0 s).length < size := by
  apply holdsNul_iff (zero_notMem_escapeBytes lim 0 s)
  intro j hj
  rw [alog_field (Or.inl (by omega)) hk hstop (Nat.le_add_right _ _) (by omega), Nat.add_sub_cancel_left]

theorem holdsNul_url : HoldsNul (alogOf r slog).mem urlAt 127 ↔ ¬ QuoteAtLimit 126 r.url := by
  rw [@holdsNul_field r slog 1 urlAt 127 126 r.url rfl rfl (by decide), ← escapeBytes_le_iff r.url 0 126]
  exact Nat.lt_succ_iff

theorem holdsNul_agent : HoldsNul (alogOf r slog).mem agentAt 128 ↔ ¬ QuoteAtLimit 127 r.agent := by
  rw [@holdsNul_field r slog 6 agentAt 128 127 r.agent rfl rfl (by decide), ← escapeBytes_le_iff r.agent 0 127]
  exact Nat.lt_succ_iff

/-- The limit of `cookie` is its size. -/
theorem holdsNul_cookie : HoldsNul (alogOf r slog).mem cookieAt 512 ↔ escapedLength r.cookie < 512 := by
  rw [@holdsNul_field r slog 7 cookieAt 512 512 r.cookie rfl rfl (by decide), ← escaped_lt_iff r.cookie 0 512]

/-- The limit of `raw` is the length of the packet, and at most 2046. -/
theorem raw_lt_iff (r : AttackRequest) : (escapeBytes (rawMax r) 0 r.pkt).length < 2047 ↔
    ¬ (2046 ≤ r.pkt.length ∧ QuoteAtLimit 2046 r.pkt) := by
  by_cases hlong : 2046 ≤ r.pkt.length
  · have hmax : rawMax r = 0 + 2046 := by
      unfold rawMax
      split <;> omega
    rw [hmax, Nat.lt_succ_iff, escapeBytes_le_iff r.pkt 0 2046]
    exact not_congr (and_iff_right hlong).symm
  · have hlen := length_escapeBytes (rawMax r) r.pkt 0
    have hmax : rawMax r = r.pkt.length := if_neg (by omega)
    exact iff_of_true (by omega) fun h => hlong h.1

/-- The first byte of `raw` may be the last one of the cookie, when nothing is written over it. -/
theorem holdsNul_raw : HoldsNul (alogOf r slog).mem rawAt 2047 ↔
    ¬ (2046 ≤ r.pkt.length ∧ QuoteAtLimit 2046 r.pkt) := by
  have hrest : ∀ j, 0 < j → j < 2047 →
      (alogOf r slog).mem (rawAt + j) = (escapeBytes (rawMax r) 0 r.pkt).getD j 0 := by
    intro j hpos hj
    have hstop : rawAt + j < sizeofAlog := by
      unfold rawAt sizeofAlog
      omega
    rw [@alog_field r slog 8 rawAt sizeofAlog (rawAt + j) _ (Or.inl (by omega)) rfl rfl (by omega) hstop,
      Nat.add_sub_cancel_left]
  rw [← raw_lt_iff]
  by_cases hnil : escapeBytes (rawMax r) 0 r.pkt = []
  · rw [hnil] at hrest ⊢
    exact iff_of_true ⟨1, by decide, hrest 1 Nat.one_pos (by decide)⟩ (by decide)
  · apply holdsNul_iff (zero_notMem_escapeBytes _ 0 _)
    intro j hj
    rcases Nat.eq_zero_or_pos j with rfl | hpos
    · -- the packet is written last
      obtain ⟨m, hm⟩ : ∃ m, (alogOf r slog).mem = putBytes m rawAt (escapeBytes (rawMax r) 0 r.pkt) := ⟨_, rfl⟩
      have hin : rawAt + 0 < rawAt + (escapeBytes (rawMax r) 0 r.pkt).length :=
        Nat.add_lt_add_left (List.length_pos_iff.mpr hnil) rawAt
      rw [hm, putBytes_in (Nat.le_add_right rawAt 0) hin, Nat.add_sub_cancel_left]
    · exact hrest j hpos hj

/-- **The escaper keeps to its limit** unless a quote meets the last byte of it, and
every array that `log_attack` escapes to is left with a NUL exactly when no quote
does so, and the cookie is shorter than its array. -/
theorem escaping_bounded_iff (max : Nat) (s : List Byte) (r : AttackRequest) (slog : Sublog) :
    (StaysInside max s ↔ ¬ QuoteAtLimit max s) ∧ (Terminated (alogOf r slog).mem ↔ LeavesRoom r) := by
  refine ⟨staysInside_iff max s, fun h => ?_, fun h => ?_⟩
  · exact ⟨holdsNul_url.mp h.url, holdsNul_agent.mp h.agent, holdsNul_cookie.mp h.cookie, holdsNul_raw.mp h.raw⟩
  · exact ⟨holdsNul_url.mpr h.url, holdsNul_agent.mpr h.agent, holdsNul_cookie.mpr h.cookie,
      holdsNul_raw.mpr h.raw⟩

/-- A url whose quote is its 126th byte. -/
def urlToLimit : List Byte := List.replicate 125 (ch 'a') ++ [dquote]

theorem urlToLimit_quote : QuoteAtLimit 126 urlToLimit := by
  have hzero : ¬ (0 : Byte) = ch 'a' := by decide
  have hquote : ¬ ch 'a' = dquote := by decide
  refine ⟨List.replicate 125 (ch 'a'), [], rfl, fun hmem => hzero (List.eq_of_mem_replicate hmem), ?_⟩
  rw [List.length_replicate, List.count_replicate, if_neg (by simpa using hquote)]

/-- It is written behind its limit, and leaves no NUL in its array. -/
theorem urlToLimit_unbounded : ¬ StaysInside 126 urlToLimit ∧
    ¬ HoldsNul (alogOf { plainRequest with url := urlToLimit } ruleOne).mem urlAt 127 :=
  ⟨fun h => (staysInside_iff 126 urlToLimit).mp h urlToLimit_quote, fun h => holdsNul_url.mp h urlToLimit_quote⟩

end

end WafProxy
