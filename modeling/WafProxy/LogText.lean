import Mathlib.Tactic.IntervalCases
import WafProxy.Log

/-
  The attack log — what a request can do to its literals

  `_escape_append_str` puts a backslash in front of every quote, but a backslash
  of the request goes into the statement as it is, and the host is not escaped
  at all.

  1. `escapeBytes_eq` — the escaper works byte by byte on the part of the text
     it copies; `content_escape`: that part comes back out of its literal as a
     front of the text exactly when it is `Tame`.
  2. `alog_…` — which bytes stand where in the structure, `textAt_…` — which
     texts `%s` finds in it.
  3. `literals_hold` — when no text fills its field: every value of the
     statement ends at its own quote exactly when the host is the whole of a
     literal and what is copied of the other fields is tame.
-/

namespace WafProxy
open Lib

/-! ## What the escaper copies -/

/-- The front of a text that `_escape_append_str` copies. -/
def copied (max : Nat) : Nat → List Byte → List Byte
  | _, [] => []
  | n, c :: s =>
    if c = 0 ∨ max ≤ n then []
    else c :: copied max (n + if c = dquote then 2 else 1) s

/-- A backslash in front of every quote. -/
def escape (c : List Byte) : List Byte :=
  c.flatMap fun b => if b = dquote then [backslash, dquote] else [b]

theorem escape_cons (b : Byte) (c : List Byte) :
    escape (b :: c) = (if b = dquote then [backslash, dquote] else [b]) ++ escape c := rfl

theorem escapeBytes_eq (max : Nat) (s : List Byte) :
    ∀ n, escapeBytes max n s = escape (copied max n s) := by
  induction s with
  | nil =>
    intro n
    rfl
  | cons b s ih =>
    intro n
    rw [escapeBytes, copied]
    by_cases hend : b = 0 ∨ max ≤ n
    · rw [if_pos hend, if_pos hend]
      rfl
    · rw [if_neg hend, if_neg hend, escape_cons]
      by_cases hb : b = dquote
      · rw [if_pos hb, if_pos hb, if_pos hb, ih]
        rfl
      · rw [if_neg hb, if_neg hb, if_neg hb, ih]
        rfl

theorem copied_front (max : Nat) (s : List Byte) : ∀ n, copied max n s <+: cString s := by
  induction s with
  | nil =>
    intro n
    exact List.prefix_refl _
  | cons b s ih =>
    intro n
    rw [copied]
    by_cases hend : b = 0 ∨ max ≤ n
    · rw [if_pos hend]
      exact List.nil_prefix
    · rw [if_neg hend]
      have hb : b ≠ 0 := fun heq => hend (Or.inl heq)
      unfold cString
      rw [List.takeWhile_cons_of_pos (by simp [hb]), List.cons_prefix_cons]
      exact ⟨rfl, ih _⟩

/-- The escaper writes at most one byte more than its limit. -/
theorem length_escapeBytes (lim : Nat) (s : List Byte) :
    ∀ n, (escapeBytes lim n s).length ≤ lim + 1 - n := by
  induction s with
  | nil =>
    intro n
    exact Nat.zero_le _
  | cons b s ih =>
    intro n
    rw [escapeBytes]
    by_cases hend : b = 0 ∨ lim ≤ n
    · rw [if_pos hend]
      exact Nat.zero_le _
    · rw [if_neg hend]
      have hn : ¬ lim ≤ n := fun hle => hend (Or.inr hle)
      by_cases hb : b = dquote
      · have hrest := ih (n + 2)
        rw [if_pos hb]
        simp only [List.length_cons]
        omega
      · have hrest := ih (n + 1)
        rw [if_neg hb]
        simp only [List.length_cons]
        omega

/-! ## What comes back out of a literal -/

/-- Every backslash stands in front of `%` or `_`, but for an even number of
backslashes at the end. -/
def Tame : List Byte → Prop
  | [] => True
  | [b] => b ≠ backslash
  | b :: c :: s =>
    if b = backslash then
      if c = ch '%' ∨ c = ch '_' then Tame s
      else c = backslash ∧ ∃ k, s = List.replicate (2 * k) backslash
    else Tame (c :: s)

/-- In front of a quote the escaper has put a backslash. -/
theorem escape_head (s : List Byte) : (escape s).head? ≠ some dquote := by
  cases s with
  | nil => simp [escape]
  | cons b s =>
    rw [escape_cons]
    by_cases hb : b = dquote
    · rw [if_pos hb]
      intro heq
      exact absurd (Option.some.inj heq) (by decide)
    · rw [if_neg hb]
      simp [hb]

/-- A quote that is left bare ends the literal. -/
theorem content_bare (s : List Byte) : content (dquote :: escape s) = none := by
  have hhead := escape_head s
  cases hs : escape s with
  | nil => decide
  | cons b l =>
    rw [hs] at hhead
    have hb : b ≠ dquote := fun heq => hhead (by rw [heq]; rfl)
    rw [content, if_neg (by decide), if_pos rfl, if_neg hb]

theorem content_plain {b : Byte} (l : List Byte) (hb : b ≠ backslash) (hq : b ≠ dquote) :
    content (b :: l) = (content l).map (b :: ·) := by
  cases l with
  | nil =>
    show (if b = backslash ∨ b = dquote then none else some [b]) = _
    rw [if_neg (by simp [hb, hq])]
    rfl
  | cons c l => rw [content, if_neg hb, if_neg hq]

theorem content_backslash (c : Byte) (l : List Byte) :
    content (backslash :: c :: l) = (content l).map (unescape c ++ ·) := by
  rw [content, if_pos rfl]

theorem content_quote (l : List Byte) :
    content (backslash :: dquote :: l) = (content l).map (dquote :: ·) := content_backslash dquote l

/-- A text of backslashes. -/
theorem content_backslashes (k : Nat) :
    content (List.replicate (2 * k) backslash) = some (List.replicate k backslash) := by
  induction k with
  | zero => rfl
  | succ k ih =>
    rw [Nat.mul_succ, List.replicate_succ, List.replicate_succ, content_backslash, ih]
    rfl

theorem escape_backslashes (k : Nat) :
    escape (List.replicate k backslash) = List.replicate k backslash := by
  induction k with
  | zero => rfl
  | succ k ih =>
    rw [List.replicate_succ, escape_cons, if_neg (by decide), ih]
    rfl

/-- What a backslash in front of a plain byte stands for is no backslash. -/
theorem unescape_ne {c : Byte} (hc : c ≠ backslash) (hp : ¬ (c = ch '%' ∨ c = ch '_')) :
    ∃ b, unescape c = [b] ∧ b ≠ backslash := by
  unfold unescape
  split
  · exact ⟨0, rfl, by decide⟩
  split
  · exact ⟨8, rfl, by decide⟩
  split
  · exact ⟨10, rfl, by decide⟩
  split
  · exact ⟨13, rfl, by decide⟩
  split
  · exact ⟨9, rfl, by decide⟩
  split
  · exact ⟨26, rfl, by decide⟩
  exact ⟨c, rfl, hc⟩

theorem content_escape_plain {b : Byte} (s : List Byte) (hb : b ≠ backslash) :
    content (escape (b :: s)) = (content (escape s)).map (b :: ·) := by
  rw [escape_cons]
  by_cases hq : b = dquote
  · rw [if_pos hq, hq]
    exact content_quote _
  · rw [if_neg hq]
    exact content_plain _ hb hq

theorem content_escape_backslash {c : Byte} (s : List Byte) (hc : c ≠ dquote) :
    content (escape (backslash :: c :: s)) = (content (escape s)).map (unescape c ++ ·) := by
  rw [escape_cons, if_neg (by decide), escape_cons, if_neg hc]
  exact content_backslash _ _

/-- The escaper's backslash is itself escaped, and its quote is bare. -/
theorem content_escape_quote (s : List Byte) :
    content (escape (backslash :: dquote :: s)) = none := by
  rw [escape_cons, if_neg (by decide), escape_cons, if_pos rfl]
  show content (backslash :: backslash :: dquote :: escape s) = none
  rw [content_backslash, content_bare]
  rfl

/-- Behind a lost backslash only backslashes come back as what they were. -/
theorem content_shifted : ∀ (s : List Byte) {m : Nat} {v more : List Byte},
    content (escape s) = some v → v <+: List.replicate (m + 1) backslash ++ (s ++ more) →
    ∃ k, s = List.replicate (2 * k) backslash
  | [], _, _, _, _, _ => ⟨0, rfl⟩
  | [b], m, v, more, hv, hpre => by
    exfalso
    by_cases hb : b = backslash
    · subst hb
      cases hv
    · rw [content_escape_plain _ hb] at hv
      cases hv
      exact hb (List.cons_prefix_cons.mp hpre).1
  | b :: c :: s, m, v, more, hv, hpre => by
    by_cases hb : b = backslash
    · subst hb
      by_cases hq : c = dquote
      · rw [hq, content_escape_quote] at hv
        cases hv
      · rw [content_escape_backslash _ hq] at hv
        obtain ⟨w, hw, rfl⟩ := Option.map_eq_some_iff.mp hv
        by_cases hp : c = ch '%' ∨ c = ch '_'
        · -- `\%` stands for itself, one place too early
          exfalso
          have hun : unescape c = [backslash, c] := by
            rcases hp with rfl | rfl <;> rfl
          have hcb : c ≠ backslash := by
            rcases hp with rfl | rfl <;> decide
          rw [hun] at hpre
          have hpre := (List.cons_prefix_cons.mp hpre).2
          cases m with
          | zero => exact hcb (List.cons_prefix_cons.mp hpre).1
          | succ m => exact hcb (List.cons_prefix_cons.mp hpre).1
        · by_cases hc : c = backslash
          · subst hc
            have hpre := (List.cons_prefix_cons.mp hpre).2
            have hnext : w <+: List.replicate (m + 1 + 1) backslash ++ (s ++ more) := by
              have heq : List.replicate m backslash ++ (backslash :: backslash :: s ++ more) =
                  List.replicate (m + 1 + 1) backslash ++ (s ++ more) := by
                rw [List.replicate_succ', List.replicate_succ']
                simp
              rw [← heq]
              exact hpre
            obtain ⟨k, rfl⟩ := content_shifted s hw hnext
            exact ⟨k + 1, by rw [Nat.mul_succ, List.replicate_succ, List.replicate_succ]⟩
          · exfalso
            obtain ⟨d, hd, hne⟩ := unescape_ne hc hp
            rw [hd] at hpre
            exact hne (List.cons_prefix_cons.mp hpre).1
    · exfalso
      rw [content_escape_plain _ hb] at hv
      obtain ⟨w, -, rfl⟩ := Option.map_eq_some_iff.mp hv
      exact hb (List.cons_prefix_cons.mp hpre).1

/-- **What the escaper copied comes back as a front of the text exactly when it
is tame.** -/
theorem content_escape : ∀ (s more : List Byte),
    (∃ v, content (escape s) = some v ∧ v <+: s ++ more) ↔ Tame s
  | [], more => by
    constructor
    · intro _
      trivial
    · intro _
      exact ⟨[], rfl, List.nil_prefix⟩
  | [b], more => by
    constructor
    · intro h hb
      obtain ⟨v, hv, -⟩ := h
      rw [hb] at hv
      cases hv
    · intro hb
      exact ⟨[b], content_escape_plain _ hb, List.prefix_append _ _⟩
  | b :: c :: s, more => by
    have hrest := content_escape (c :: s) more
    by_cases hb : b = backslash
    · subst hb
      rw [Tame, if_pos rfl]
      by_cases hp : c = ch '%' ∨ c = ch '_'
      · have hbehind := content_escape s more
        have hq : c ≠ dquote := by
          rcases hp with rfl | rfl <;> decide
        have hun : unescape c = [backslash, c] := by
          rcases hp with rfl | rfl <;> rfl
        rw [if_pos hp, ← hbehind, content_escape_backslash _ hq, hun]
        constructor
        · intro h
          obtain ⟨v, hv, hpre⟩ := h
          obtain ⟨w, hw, rfl⟩ := Option.map_eq_some_iff.mp hv
          exact ⟨w, hw, (List.prefix_append_right_inj [backslash, c]).mp hpre⟩
        · intro h
          obtain ⟨w, hw, hpre⟩ := h
          exact ⟨_, by rw [hw]; rfl, (List.prefix_append_right_inj [backslash, c]).mpr hpre⟩
      · rw [if_neg hp]
        constructor
        · intro h
          obtain ⟨v, hv, hpre⟩ := h
          have hq : c ≠ dquote := by
            intro hq
            rw [hq, content_escape_quote] at hv
            cases hv
          rw [content_escape_backslash _ hq] at hv
          obtain ⟨w, hw, rfl⟩ := Option.map_eq_some_iff.mp hv
          have hc : c = backslash := by
            apply Decidable.byContradiction
            intro hc
            obtain ⟨d, hd, hne⟩ := unescape_ne hc hp
            rw [hd] at hpre
            exact hne (List.cons_prefix_cons.mp hpre).1
          subst hc
          have hnext : w <+: List.replicate (0 + 1) backslash ++ (s ++ more) :=
            (List.cons_prefix_cons.mp hpre).2
          exact ⟨rfl, content_shifted s hw hnext⟩
        · intro h
          obtain ⟨rfl, k, rfl⟩ := h
          refine ⟨List.replicate (k + 1) backslash, ?_, ?_⟩
          · have heq : backslash :: backslash :: List.replicate (2 * k) backslash =
                List.replicate (2 * (k + 1)) backslash := rfl
            rw [heq, escape_backslashes, content_backslashes]
          · refine ⟨List.replicate (k + 1) backslash ++ more, ?_⟩
            rw [← List.append_assoc, ← List.replicate_add]
            have heq : k + 1 + (k + 1) = 2 * k + 1 + 1 := by omega
            rw [heq]
            rfl
    · have htame : Tame (b :: c :: s) = Tame (c :: s) := by
        rw [Tame, if_neg hb]
      rw [htame, ← hrest, content_escape_plain _ hb]
      constructor
      · intro h
        obtain ⟨v, hv, hpre⟩ := h
        obtain ⟨w, hw, rfl⟩ := Option.map_eq_some_iff.mp hv
        exact ⟨w, hw, (List.cons_prefix_cons.mp hpre).2⟩
      · intro h
        obtain ⟨w, hw, hpre⟩ := h
        exact ⟨b :: w, by rw [hw]; rfl, List.cons_prefix_cons.mpr ⟨rfl, hpre⟩⟩

/-! ## Bytes of the structure -/

@[simp] theorem length_padded (src : List Byte) (n : Nat) : (padded src n).length = n := by
  unfold padded
  rw [List.length_append, List.length_take, List.length_replicate]
  omega

theorem padded_getD {src : List Byte} {n i : Nat} (h : i < n) :
    (padded src n).getD i 0 = (cString src).getD i 0 := by
  unfold padded
  simp only [List.getD_eq_getElem?_getD]
  by_cases hi : i < (cString src).length
  · rw [List.getElem?_append_left (by rw [List.length_take]; omega), List.getElem?_take_of_lt h]
  · have hlen : ((cString src).take n).length ≤ i := by
      rw [List.length_take]
      omega
    rw [List.getElem?_append_right hlen, List.getElem?_eq_none (Nat.le_of_not_lt hi),
      List.getElem?_replicate]
    split <;> rfl

theorem mem_padded {src : List Byte} {n i : Nat} :
    (padded src n).getD i 0 = 0 ∨ (padded src n).getD i 0 ∈ src := by
  by_cases hi : i < n
  · rw [padded_getD hi, List.getD_eq_getElem?_getD]
    cases hget : (cString src)[i]? with
    | none => exact Or.inl rfl
    | some b =>
      right
      exact (List.takeWhile_prefix _).subset (List.mem_of_getElem? hget)
  · left
    rw [List.getD_eq_getElem?_getD, List.getElem?_eq_none (by rw [length_padded]; omega)]
    rfl

/-- Writes that do not touch `j`. -/
theorem foldl_putBytes_off {j : Nat} (ws : List (Nat × List Byte)) : ∀ {m : AlogMem},
    (∀ w ∈ ws, j < w.1 ∨ w.1 + w.2.length ≤ j) →
    ws.foldl (fun m w => putBytes m w.1 w.2) m j = m j := by
  induction ws with
  | nil =>
    intro m _
    rfl
  | cons w ws ih =>
    intro m h
    rw [List.foldl_cons, ih fun v hv => h v (List.mem_cons_of_mem _ hv)]
    rcases h w List.mem_cons_self with hlt | hge
    · exact putBytes_lt hlt
    · exact putBytes_ge hge

/-- The one write that touches `j`. -/
theorem foldl_putBytes_field {j off : Nat} {bytes : List Byte} {pre post : List (Nat × List Byte)}
    (hoff : off ≤ j) (hpre : ∀ w ∈ pre, j < w.1 ∨ w.1 + w.2.length ≤ j)
    (hpost : ∀ w ∈ post, j < w.1 ∨ w.1 + w.2.length ≤ j) :
    (pre ++ (off, bytes) :: post).foldl (fun m w => putBytes m w.1 w.2) (fun _ => 0) j =
      bytes.getD (j - off) 0 := by
  rw [List.foldl_append, List.foldl_cons, foldl_putBytes_off post hpost]
  exact putBytes_field hoff (foldl_putBytes_off pre hpre)

/-- What `log_attack` writes, in its order. -/
def alogWrites (r : AttackRequest) (slog : Sublog) : List (Nat × List Byte) :=
  [(hostAt, padded r.host 128), (urlAt, escapeBytes 126 0 r.url),
    (methodAt, padded (methodName r.method) 10), (srcIpAt, padded r.cliaddr 24),
    (idAt, padded slog.id 32), (catalogAt, padded slog.catalog 32),
    (agentAt, escapeBytes 127 0 r.agent), (cookieAt, escapeBytes 512 0 r.cookie),
    (rawAt, escapeBytes (rawMax r) 0 r.pkt)]

theorem alogOf_mem (r : AttackRequest) (slog : Sublog) :
    (alogOf r slog).mem = (alogWrites r slog).foldl (fun m w => putBytes m w.1 w.2) fun _ => 0 := rfl

/-- Where the field of each write ends; behind `raw` there is only padding. -/
def fieldEnds : List Nat := [urlAt, srcIpAt, msgAt, dstIpAt, catalogAt, catalogAt + 32, cookieAt, rawAt, sizeofAlog]

theorem alog_at {r : AttackRequest} {slog : Sublog} {j k off : Nat} {bytes : List Byte}
    (hk : (alogWrites r slog)[k]? = some (off, bytes)) (hoff : off ≤ j)
    (hapart : ∀ w ∈ (alogWrites r slog).take k ++ (alogWrites r slog).drop (k + 1),
      j < w.1 ∨ w.1 + w.2.length ≤ j) : (alogOf r slog).mem j = bytes.getD (j - off) 0 := by
  have hsplit : alogWrites r slog =
      (alogWrites r slog).take k ++ (off, bytes) :: (alogWrites r slog).drop (k + 1) := by
    obtain ⟨hlt, hget⟩ := List.getElem?_eq_some_iff.mp hk
    rw [← hget, ← List.drop_eq_getElem_cons hlt, List.take_append_drop]
  rw [alogOf_mem, hsplit]
  apply foldl_putBytes_field hoff
  · exact fun w hw => hapart w (List.mem_append_left _ hw)
  · exact fun w hw => hapart w (List.mem_append_right _ hw)

section Fields
variable {r : AttackRequest} {slog : Sublog}

/-- In a field stands what was written to it; only the first byte of `raw` may be the
last one of the cookie. -/
theorem alog_field {k off stop j : Nat} {bytes : List Byte}
    (hcookie : j ≠ rawAt ∨ (escapeBytes 512 0 r.cookie).length ≤ 512)
    (hk : (alogWrites r slog)[k]? = some (off, bytes)) (hstop : fieldEnds[k]? = some stop)
    (hlo : off ≤ j) (hhi : j < stop) : (alogOf r slog).mem j = bytes.getD (j - off) 0 := by
  have hurl := length_escapeBytes 126 r.url 0
  have hagent := length_escapeBytes 127 r.agent 0
  have hfull := length_escapeBytes 512 r.cookie 0
  have hlt : k < 9 := (List.getElem?_eq_some_iff.mp hstop).1
  apply alog_at hk hlo
  interval_cases k
  all_goals
    cases hk
    cases hstop
    simp only [hostAt, urlAt, srcIpAt, dstIpAt, idAt, catalogAt, methodAt, msgAt, agentAt, cookieAt,
      rawAt, sizeofAlog] at hcookie hlo hhi
    simp only [alogWrites, List.take_succ_cons, List.take_zero, List.drop_succ_cons, List.drop_zero,
      List.nil_append, List.cons_append, List.forall_mem_cons, length_padded, hostAt, urlAt, srcIpAt,
      idAt, catalogAt, methodAt, agentAt, cookieAt, rawAt]
    simp
    omega

/-- The fields that are never written, and the one behind `catalog`. -/
theorem alog_zero {j : Nat} (hj : j = dstIpAt ∨ j = catalogAt + 32 ∨ j = msgAt) :
    (alogOf r slog).mem j = 0 := by
  have hurl := length_escapeBytes 126 r.url 0
  have hagent := length_escapeBytes 127 r.agent 0
  rw [alogOf_mem, foldl_putBytes_off]
  simp only [alogWrites, List.forall_mem_cons, length_padded]
  unfold hostAt urlAt srcIpAt idAt catalogAt methodAt agentAt cookieAt rawAt at *
  unfold dstIpAt msgAt at hj
  simp
  omega

end Fields

/-! ## Texts of the structure -/

theorem zero_notMem_copied (lim : Nat) (s : List Byte) : ∀ n, (0 : Byte) ∉ copied lim n s := by
  induction s with
  | nil =>
    intro n
    exact List.not_mem_nil
  | cons b s ih =>
    intro n hmem
    rw [copied] at hmem
    by_cases hend : b = 0 ∨ lim ≤ n
    · rw [if_pos hend] at hmem
      cases hmem
    · rw [if_neg hend] at hmem
      rcases List.mem_cons.mp hmem with rfl | hmem
      · exact hend (Or.inl rfl)
      · exact ih _ hmem

theorem zero_notMem_escape {s : List Byte} (h : (0 : Byte) ∉ s) : (0 : Byte) ∉ escape s := by
  intro hmem
  obtain ⟨b, hb, h0⟩ := List.mem_flatMap.mp hmem
  by_cases hq : b = dquote
  · rw [if_pos hq] at h0
    exact absurd h0 (by decide)
  · rw [if_neg hq] at h0
    exact h (List.mem_singleton.mp h0 ▸ hb)

/-- No text of the request fills its field. -/
structure Fits (r : AttackRequest) : Prop where
  host : (cString r.host).length ≤ 127
  url : (escapeBytes 126 0 r.url).length ≤ 126
  agent : (escapeBytes 127 0 r.agent).length ≤ 127
  cookie : (escapeBytes 512 0 r.cookie).length ≤ 511

/-- A text without quotes and backslashes. -/
def PlainText (t : List Byte) : Prop := ∀ b ∈ t, b ≠ dquote ∧ b ≠ backslash

theorem content_plainText : ∀ {t : List Byte}, PlainText t → content t = some t
  | [], _ => rfl
  | b :: t, h => by
    obtain ⟨hq, hb⟩ := h b List.mem_cons_self
    rw [content_plain t hb hq, content_plainText fun c hc => h c (List.mem_cons_of_mem _ hc)]
    rfl

theorem rawMax_le (r : AttackRequest) : rawMax r ≤ 2046 := by
  unfold rawMax
  split <;> omega

section Texts
variable {r : AttackRequest} {slog : Sublog} (hr : Fits r)
include hr

theorem cookie_le : (escapeBytes 512 0 r.cookie).length ≤ 512 := by
  have h := hr.cookie
  omega

/-- A text that does not fill its field is what `%s` prints. -/
theorem textAt_field {k off stop : Nat} {bytes text : List Byte}
    (hk : (alogWrites r slog)[k]? = some (off, bytes)) (hstop : fieldEnds[k]? = some stop)
    (hlen : off + text.length < stop) (hno : 0 ∉ text)
    (heq : ∀ i, i ≤ text.length → bytes.getD i 0 = text.getD i 0) :
    textAt (alogOf r slog).mem sizeofAlog off = text := by
  have hsize : stop ≤ sizeofAlog := by
    have hends : ∀ e ∈ fieldEnds, e ≤ sizeofAlog := by decide
    exact hends stop (List.mem_of_getElem? hstop)
  apply textAt_eq (by omega) hno
  intro i hi
  rw [alog_field (Or.inr (cookie_le hr)) hk hstop (Nat.le_add_right _ _) (by omega), Nat.add_sub_cancel_left]
  exact heq i hi

theorem textAt_host : textAt (alogOf r slog).mem sizeofAlog hostAt = cString r.host := by
  have hlen := hr.host
  apply @textAt_field r slog hr 0 hostAt _ _ _ rfl rfl
  · show 8 + _ < 136
    omega
  · exact zero_notMem_cString _
  · intro i hi
    exact padded_getD (by omega)

/-- The texts that are escaped. -/
theorem textAt_escaped {k off stop lim : Nat} {s : List Byte}
    (hk : (alogWrites r slog)[k]? = some (off, escapeBytes lim 0 s)) (hstop : fieldEnds[k]? = some stop)
    (hlen : off + (escapeBytes lim 0 s).length < stop) :
    textAt (alogOf r slog).mem sizeofAlog off = escape (copied lim 0 s) := by
  rw [← escapeBytes_eq]
  apply textAt_field hr hk hstop hlen
  · rw [escapeBytes_eq]
    exact zero_notMem_escape (zero_notMem_copied _ _ _)
  · exact fun i _ => rfl

theorem textAt_url : textAt (alogOf r slog).mem sizeofAlog urlAt = escape (copied 126 0 r.url) := by
  have hlen := hr.url
  apply @textAt_escaped r slog hr 1 urlAt _ _ _ rfl rfl
  show 136 + _ < 263
  omega

theorem textAt_agent : textAt (alogOf r slog).mem sizeofAlog agentAt = escape (copied 127 0 r.agent) := by
  have hlen := hr.agent
  apply @textAt_escaped r slog hr 6 agentAt _ _ _ rfl rfl
  show 526 + _ < 654
  omega

theorem textAt_cookie :
    textAt (alogOf r slog).mem sizeofAlog cookieAt = escape (copied 512 0 r.cookie) := by
  have hlen := hr.cookie
  apply @textAt_escaped r slog hr 7 cookieAt _ _ _ rfl rfl
  show 654 + _ < 1166
  omega

theorem textAt_raw :
    textAt (alogOf r slog).mem sizeofAlog rawAt = escape (copied (rawMax r) 0 r.pkt) := by
  have hlen := length_escapeBytes (rawMax r) r.pkt 0
  have hmax := rawMax_le r
  apply @textAt_escaped r slog hr 8 rawAt _ _ _ rfl rfl
  show 1166 + _ < 3216
  omega

omit hr in
theorem textAt_nul {off : Nat} (h : (alogOf r slog).mem off = 0) :
    textAt (alogOf r slog).mem sizeofAlog off = [] := by
  show textAt _ (3215 + 1) off = []
  rw [textAt, if_pos h]

omit hr in
/-- The other texts are cut from what has no quote and no backslash in it. -/
theorem textAt_plain {off stop : Nat} (hstop : (alogOf r slog).mem stop = 0) (hle : off ≤ stop)
    (hplain : ∀ j, off ≤ j → j < stop → (alogOf r slog).mem j = 0 ∨
      ((alogOf r slog).mem j ≠ dquote ∧ (alogOf r slog).mem j ≠ backslash)) :
    PlainText (textAt (alogOf r slog).mem sizeofAlog off) ∧
      (textAt (alogOf r slog).mem sizeofAlog off).length ≤ stop - off := by
  obtain ⟨hlen, hmem⟩ := @textAt_until (alogOf r slog).mem stop hstop sizeofAlog off hle
  refine ⟨?_, hlen⟩
  intro b hb
  obtain ⟨hne, j, hlo, hhi, rfl⟩ := hmem b hb
  exact (hplain j hlo hhi).resolve_left hne

omit hr in
theorem padded_plain {src : List Byte} {n i : Nat} (h : PlainText src) :
    (padded src n).getD i 0 = 0 ∨
      ((padded src n).getD i 0 ≠ dquote ∧ (padded src n).getD i 0 ≠ backslash) := by
  rcases @mem_padded src n i with hzero | hmem
  · exact Or.inl hzero
  · exact Or.inr (h _ hmem)

theorem textAt_srcIp (haddr : PlainText r.cliaddr) :
    PlainText (textAt (alogOf r slog).mem sizeofAlog srcIpAt) ∧
      (textAt (alogOf r slog).mem sizeofAlog srcIpAt).length ≤ 24 := by
  apply @textAt_plain r slog srcIpAt dstIpAt (alog_zero (Or.inl rfl)) (by decide)
  intro j hlo hhi
  rw [@alog_field r slog 3 srcIpAt dstIpAt j _ (Or.inr (cookie_le hr)) rfl rfl hlo hhi]
  exact padded_plain haddr

theorem textAt_catalog (hcatalog : PlainText slog.catalog) :
    PlainText (textAt (alogOf r slog).mem sizeofAlog catalogAt) ∧
      (textAt (alogOf r slog).mem sizeofAlog catalogAt).length ≤ 32 := by
  apply @textAt_plain r slog catalogAt (catalogAt + 32) (alog_zero (Or.inr (Or.inl rfl))) (by decide)
  intro j hlo hhi
  rw [@alog_field r slog 5 catalogAt (catalogAt + 32) j _ (Or.inr (cookie_le hr)) rfl rfl hlo hhi]
  exact padded_plain hcatalog

/-- An id of 32 bytes runs on into the catalog. -/
theorem textAt_id (hid : PlainText slog.id) (hcatalog : PlainText slog.catalog) :
    PlainText (textAt (alogOf r slog).mem sizeofAlog idAt) ∧
      (textAt (alogOf r slog).mem sizeofAlog idAt).length ≤ 64 := by
  apply @textAt_plain r slog idAt (catalogAt + 32) (alog_zero (Or.inr (Or.inl rfl))) (by decide)
  intro j hlo hhi
  by_cases hj : j < catalogAt
  · rw [@alog_field r slog 4 idAt catalogAt j _ (Or.inr (cookie_le hr)) rfl rfl hlo hj]
    exact padded_plain hid
  · rw [@alog_field r slog 5 catalogAt (catalogAt + 32) j _ (Or.inr (cookie_le hr)) rfl rfl (Nat.le_of_not_lt hj)
      hhi]
    exact padded_plain hcatalog

omit hr in
theorem methodName_plain (m : HttpMethod) : PlainText (methodName m) := by
  cases m <;> (unfold PlainText; decide +kernel)

theorem textAt_method : PlainText (textAt (alogOf r slog).mem sizeofAlog methodAt) ∧
    (textAt (alogOf r slog).mem sizeofAlog methodAt).length ≤ 10 := by
  apply @textAt_plain r slog methodAt msgAt (alog_zero (Or.inr (Or.inr rfl))) (by decide)
  intro j hlo hhi
  rw [@alog_field r slog 2 methodAt msgAt j _ (Or.inr (cookie_le hr)) rfl rfl hlo hhi]
  exact padded_plain (methodName_plain _)

end Texts

/-! ## Numbers -/

theorem isNumByte_digit {c : Char} (h : c.isDigit = true) : isNumByte (ch c) = true := by
  have hall : ∀ n < 58, 48 ≤ n → isNumByte n.toUInt8 = true := by decide
  simp only [Char.isDigit, Bool.and_eq_true, decide_eq_true_eq] at h
  apply hall c.toNat
  · exact Nat.lt_succ_of_le h.2
  · exact h.1

theorem decimal_num (n : Int) : decimal n ≠ [] ∧ ∀ b ∈ decimal n, isNumByte b = true := by
  have hdigits : ∀ b ∈ (Nat.toDigits 10 n.natAbs).map ch, isNumByte b = true := by
    intro b hb
    obtain ⟨c, hc, rfl⟩ := List.mem_map.mp hb
    exact isNumByte_digit (Nat.isDigit_of_mem_toDigits (by decide) (by decide) hc)
  unfold decimal
  split
  · refine ⟨List.cons_ne_nil _ _, ?_⟩
    intro b hb
    rcases List.mem_cons.mp hb with rfl | hb
    · decide
    · exact hdigits b hb
  · exact ⟨by simp [Nat.toDigits_ne_nil], hdigits⟩

theorem length_decimal {n : Int} (h : n.natAbs < 10 ^ 10) : (decimal n).length ≤ 11 := by
  have hle : (Nat.toDigits 10 n.natAbs).length ≤ 10 :=
    (Nat.length_toDigits_le_iff (by decide) (by decide)).mpr h
  unfold decimal
  split
  · rw [List.length_cons, List.length_map]
    omega
  · rw [List.length_map]
    omega

/-! ## The statement -/

/-- The values of an `INSERT` into the log, each with what is behind it. -/
def readInsert (l : List Byte) : Option (List (SqlValue × List Byte)) :=
  if insertHeader.isPrefixOf l then readItems l.length (l.drop insertHeader.length) else none

/-- The statement is one `INSERT` of fifteen values, each of which ends where
`log_data` ended it, and what is read for the url, the agent, the cookie and the
packet is a front of it. -/
def LiteralsHold (r : AttackRequest) (slog : Sublog) : Prop :=
  ∃ vs, readInsert (logAttack r slog) = some vs ∧ vs.length = 15 ∧
    vs.map Prod.snd = restsOf (alogItems (alogOf r slog)) ∧
    ∀ p ∈ [(2, cString r.url), (12, cString r.agent), (13, cString r.cookie), (14, r.pkt)],
      ∃ c, (vs.map Prod.fst)[p.1]? = some (.text c) ∧ c <+: p.2

theorem length_insertHeader : insertHeader.length = 131 := by decide +kernel

theorem alogItems_plain (log : Alog) : ∀ i ∈ alogItems log, i.Plain := by
  have hnum : ∀ n, (SqlItem.num (decimal n)).Plain := fun n =>
    ⟨0, decimal n, rfl, (decimal_num n).1, (decimal_num n).2⟩
  have hblank : (SqlItem.num (ch ' ' :: decimal 0)).Plain :=
    ⟨1, decimal 0, rfl, (decimal_num 0).1, (decimal_num 0).2⟩
  unfold alogItems
  simp only [List.forall_mem_cons]
  exact ⟨hnum _, trivial, trivial, trivial, trivial, hnum _, hblank, trivial, trivial, hnum _, trivial,
    trivial, trivial, trivial, trivial, by simp⟩

theorem length_decimal_time (n : Int) : (decimal (toInt32 n)).length ≤ 11 := by
  apply length_decimal
  have hle := @Int.bmod_le n (2 ^ 32) (by decide)
  have hge := @Int.le_bmod n (2 ^ 32) (by decide)
  unfold toInt32
  omega

section Statement
variable {r : AttackRequest} {slog : Sublog} (hr : Fits r) (haddr : PlainText r.cliaddr)
  (hid : PlainText slog.id) (hcatalog : PlainText slog.catalog)
include hr haddr hid hcatalog

/-- The statement fits its buffer. -/
theorem length_statement :
    (insertHeader ++ renderItems (alogItems (alogOf r slog))).length ≤ 4095 := by
  have htime := length_decimal_time r.time
  have hport : (decimal (r.cliport.toNat : Int)).length ≤ 11 := by
    apply length_decimal
    have hlt := UInt16.toNat_lt r.cliport
    omega
  have hzero : (decimal 0).length = 1 := by decide
  have hhost := hr.host
  have hurl := hr.url
  have hagent := hr.agent
  have hcookie := hr.cookie
  have hraw := length_escapeBytes (rawMax r) r.pkt 0
  have hmax := rawMax_le r
  have hsrc := (@textAt_srcIp r slog hr haddr).2
  have hdst := @textAt_nul r slog _ (alog_zero (Or.inl rfl))
  have hmsg := @textAt_nul r slog _ (alog_zero (Or.inr (Or.inr rfl)))
  have hids := (textAt_id hr hid hcatalog).2
  have hcat := (textAt_catalog hr hcatalog).2
  have hmeth := (@textAt_method r slog hr).2
  rw [escapeBytes_eq] at hurl hagent hcookie hraw
  unfold alogItems
  simp only [renderItems, SqlItem.render, List.length_append, List.length_cons, List.length_nil,
    length_insertHeader, textAt_host hr, textAt_url hr, textAt_agent hr, textAt_cookie hr,
    textAt_raw hr, hdst, hmsg]
  have htime' : (decimal (toInt32 (alogOf r slog).time)).length ≤ 11 := htime
  have hport' : (decimal (alogOf r slog).srcPort).length ≤ 11 := hport
  omega

omit hr haddr hid hcatalog in
/-- What is read for an escaped text is a front of it exactly when what is copied
is tame. -/
theorem reads_escaped {lim : Nat} {s field : List Byte} (hfront : copied lim 0 s <+: field) :
    (∃ c, (SqlItem.text (escape (copied lim 0 s))).Reads (.text c) ∧ c <+: field) ↔
      Tame (copied lim 0 s) := by
  obtain ⟨more, rfl⟩ := hfront
  rw [← content_escape _ more]
  constructor
  · intro h
    obtain ⟨c, ⟨d, hd, heq⟩, hpre⟩ := h
    cases heq
    exact ⟨c, hd, hpre⟩
  · intro h
    obtain ⟨c, hc, hpre⟩ := h
    exact ⟨c, ⟨c, hc, rfl⟩, hpre⟩

omit hr haddr hid hcatalog in
/-- The packet need not end with a NUL. -/
theorem copied_pkt (r : AttackRequest) : copied (rawMax r) 0 r.pkt <+: r.pkt :=
  (copied_front _ _ _).trans (List.takeWhile_prefix _)

/-- The values that are read, one for each that was written. -/
theorem literalsHold_iff : LiteralsHold r slog ↔
    ∃ values, List.Forall₂ SqlItem.Reads (alogItems (alogOf r slog)) values ∧
      ∀ p ∈ [(2, cString r.url), (12, cString r.agent), (13, cString r.cookie), (14, r.pkt)],
        ∃ c, values[p.1]? = some (.text c) ∧ c <+: p.2 := by
  have hwhole : logAttack r slog = insertHeader ++ renderItems (alogItems (alogOf r slog)) :=
    List.take_of_length_le (length_statement hr haddr hid hcatalog)
  have hread : readInsert (logAttack r slog) =
      readItems (logAttack r slog).length (renderItems (alogItems (alogOf r slog))) := by
    unfold readInsert
    rw [hwhole, if_pos (List.isPrefixOf_iff_prefix.mpr (List.prefix_append _ _)), List.drop_left]
  have hfuel : (alogItems (alogOf r slog)).length ≤ (logAttack r slog).length := by
    show 15 ≤ _
    rw [hwhole, List.length_append, length_insertHeader]
    omega
  have hiff := @exists_readItems (alogItems (alogOf r slog)) _ (by simp [alogItems])
    (alogItems_plain _) hfuel fun values =>
      ∀ p ∈ [(2, cString r.url), (12, cString r.agent), (13, cString r.cookie), (14, r.pkt)],
        ∃ c, values[p.1]? = some (.text c) ∧ c <+: p.2
  rw [← hiff]
  unfold LiteralsHold
  rw [hread]
  constructor
  · intro h
    obtain ⟨vs, hvs, -, hrests, hp⟩ := h
    exact ⟨vs, hvs, hrests, hp⟩
  · intro h
    obtain ⟨vs, hvs, hrests, hp⟩ := h
    have hlen := congrArg List.length hrests
    rw [List.length_map, length_restsOf] at hlen
    exact ⟨vs, hvs, hlen, hrests, hp⟩

/-- **What a request can do to its literals.** When no text fills its field,
the statement is read as it was meant exactly when the host is the whole of a
literal and what is copied of the other fields is tame. -/
theorem literals_hold : LiteralsHold r slog ↔
    (content (cString r.host)).isSome = true ∧ Tame (copied 126 0 r.url) ∧
      Tame (copied 127 0 r.agent) ∧ Tame (copied 512 0 r.cookie) ∧
      Tame (copied (rawMax r) 0 r.pkt) := by
  rw [literalsHold_iff hr haddr hid hcatalog]
  have hurl := @reads_escaped 126 r.url (cString r.url) (copied_front _ _ _)
  have hagent := @reads_escaped 127 r.agent (cString r.agent) (copied_front _ _ _)
  have hcookie := @reads_escaped 512 r.cookie (cString r.cookie) (copied_front _ _ _)
  have hraw := @reads_escaped (rawMax r) r.pkt r.pkt (copied_pkt r)
  have hitems : alogItems (alogOf r slog) =
      [.num (decimal (toInt32 r.time)), .text (cString r.host),
        .text (escape (copied 126 0 r.url)), .text (textAt (alogOf r slog).mem sizeofAlog srcIpAt),
        .text [], .num (decimal (r.cliport.toNat : Int)), .num (ch ' ' :: decimal 0),
        .text (textAt (alogOf r slog).mem sizeofAlog idAt),
        .text (textAt (alogOf r slog).mem sizeofAlog catalogAt), .num (decimal 0),
        .text (textAt (alogOf r slog).mem sizeofAlog methodAt), .text [],
        .text (escape (copied 127 0 r.agent)), .text (escape (copied 512 0 r.cookie)),
        .text (escape (copied (rawMax r) 0 r.pkt))] := by
    unfold alogItems
    dsimp only
    rw [textAt_host hr, textAt_url hr, textAt_agent hr, textAt_cookie hr, textAt_raw hr,
      textAt_nul (alog_zero (Or.inl rfl)), textAt_nul (alog_zero (Or.inr (Or.inr rfl)))]
    rfl
  rw [hitems]
  constructor
  · intro h
    obtain ⟨values, hvalues, hp⟩ := h
    -- the value at `k`, which is a front of `field`
    have hfield : ∀ {k : Nat} {t field : List Byte},
        (∃ c, values[k]? = some (.text c) ∧ c <+: field) →
        (∃ v, values[k]? = some v ∧ (SqlItem.text t).Reads v) →
        ∃ c, (SqlItem.text t).Reads (.text c) ∧ c <+: field := by
      intro k t field hc hv
      obtain ⟨c, hck, hpre⟩ := hc
      obtain ⟨v, hvk, hreads⟩ := hv
      rw [hck] at hvk
      cases hvk
      exact ⟨c, hreads, hpre⟩
    have hat := fun {k x} => @forall₂_getElem? _ _ _ _ _ hvalues k x
    simp only [List.forall_mem_cons] at hp
    obtain ⟨hp2, hp12, hp13, hp14, -⟩ := hp
    refine ⟨?_, hurl.mp ?_, hagent.mp ?_, hcookie.mp ?_, hraw.mp ?_⟩
    · obtain ⟨v, -, c, hc, -⟩ := @hat 1 _ rfl
      rw [hc]
      rfl
    · exact hfield hp2 (@hat 2 _ rfl)
    · exact hfield hp12 (@hat 12 _ rfl)
    · exact hfield hp13 (@hat 13 _ rfl)
    · exact hfield hp14 (@hat 14 _ rfl)
  · intro h
    obtain ⟨hhost, hurl', hagent', hcookie', hraw'⟩ := h
    obtain ⟨host, hhost⟩ := Option.isSome_iff_exists.mp hhost
    obtain ⟨u, hu, hupre⟩ := hurl.mpr hurl'
    obtain ⟨a, ha, hapre⟩ := hagent.mpr hagent'
    obtain ⟨c, hc, hcpre⟩ := hcookie.mpr hcookie'
    obtain ⟨w, hw, hwpre⟩ := hraw.mpr hraw'
    have hplain : ∀ {t}, PlainText t → (SqlItem.text t).Reads (.text t) :=
      fun ht => ⟨_, content_plainText ht, rfl⟩
    have hnum : ∀ t, (SqlItem.num t).Reads (.num (t.dropWhile (· = ch ' '))) := fun _ => rfl
    refine ⟨_, .cons (hnum _) (.cons ⟨host, hhost, rfl⟩ (.cons hu
      (.cons (hplain (textAt_srcIp hr haddr).1) (.cons ⟨[], rfl, rfl⟩ (.cons (hnum _) (.cons (hnum _)
      (.cons (hplain (textAt_id hr hid hcatalog).1) (.cons (hplain (textAt_catalog hr hcatalog).1)
      (.cons (hnum _) (.cons (hplain (textAt_method hr).1) (.cons ⟨[], rfl, rfl⟩ (.cons ha (.cons hc
      (.cons hw .nil)))))))))))))), ?_⟩
    simp only [List.forall_mem_cons]
    exact ⟨⟨u, rfl, hupre⟩, ⟨a, rfl, hapre⟩, ⟨c, rfl, hcpre⟩, ⟨w, rfl, hwpre⟩, by simp⟩

end Statement

/-- A request that says little about itself. -/
def plainRequest : AttackRequest where
  time := 0
  host := str "h"
  url := str "/"
  method := .get
  cliaddr := str "10.0.0.1"
  cliport := 1024
  agent := str "a"
  cookie := []
  pkt := str "G"

def ruleOne : Sublog where
  id := str "1"
  catalog := str "sql"

theorem literals_hold_plain : LiteralsHold plainRequest ruleOne :=
  (@literals_hold plainRequest ruleOne ⟨by decide, by decide, by decide, by decide⟩
    (by unfold PlainText; decide +kernel) (by unfold PlainText; decide +kernel)
    (by unfold PlainText; decide +kernel)).mpr
    ⟨rfl, by show ch '/' ≠ backslash; decide, by show ch 'a' ≠ backslash; decide, trivial,
      by show ch 'G' ≠ backslash; decide⟩

/-- The url `/\"x`: the escaper's backslash is escaped by the one in front of it,
so the quote ends the literal, and `x` stands in the statement itself. -/
def quoteRequest : AttackRequest := { plainRequest with url := str "/\\\"x" }

theorem quote_ends_literal : ¬ LiteralsHold quoteRequest ruleOne := by
  have hnone : (readInsert (logAttack quoteRequest ruleOne)).isNone = true := by decide +kernel
  intro h
  obtain ⟨vs, hvs, -⟩ := h
  rw [hvs] at hnone
  cases hnone

end WafProxy
