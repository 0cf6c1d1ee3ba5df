import WafProxy.Lib.InPlace

/-
  Decoders of marked sequences

  A decoder copies a text, each element as its image, up to a mark. Behind a mark
  it looks for a sequence that stands for one element; there is no mark in such a
  sequence. Two decoders with one mark are compared: if one of them never consumes
  less than the other, it never emits more.

  Rules:
    1. `decode_mark`, `decode_append` — the next turn, and a text without a mark.
    2. `decode_induction` — induction on a text, with all that is left behind a mark.
    3. `Greedier.decode_length_le` — the greedier decoder emits no more.
    4. `Greedier.decode_eq_iff` — the two agree on a text exactly when they agree
       behind every mark of it.
-/

namespace Lib
variable {β : Type}

/-- `r` is left of `l` behind some elements, none of which is the mark. -/
def Consumed (mark : β) (l r : List β) : Prop := ∃ used, l = used ++ r ∧ ∀ c ∈ used, c ≠ mark

namespace Consumed
variable {mark c : β} {l m r : List β}

theorem refl (mark : β) (l : List β) : Consumed mark l l := ⟨[], rfl, fun _ h => absurd h List.not_mem_nil⟩

theorem cons (h : Consumed mark l r) (hc : c ≠ mark) : Consumed mark (c :: l) r := by
  obtain ⟨used, rfl, hused⟩ := h
  exact ⟨c :: used, rfl, List.forall_mem_cons.mpr ⟨hc, hused⟩⟩

theorem trans (h : Consumed mark l m) (h' : Consumed mark m r) : Consumed mark l r := by
  obtain ⟨used, rfl, hused⟩ := h
  obtain ⟨used', rfl, hused'⟩ := h'
  refine ⟨used ++ used', (List.append_assoc _ _ _).symm, ?_⟩
  exact fun c hc => (List.mem_append.mp hc).elim (hused c) (hused' c)

theorem length_le (h : Consumed mark l r) : r.length ≤ l.length := by
  obtain ⟨used, rfl, _⟩ := h
  rw [List.length_append]
  omega

/-- What is left is the text itself, or shorter. -/
theorem eq_or_lt (h : Consumed mark l r) : r = l ∨ r.length < l.length := by
  obtain ⟨used, rfl, _⟩ := h
  cases used with
  | nil => exact Or.inl rfl
  | cons c used =>
    refine Or.inr ?_
    rw [List.length_append, List.length_cons]
    omega

end Consumed

/-- Behind a mark, `escape` gives the element that stands there and what is left of the text. -/
structure Decoder (β : Type) where
  mark : β
  other : β → β
  escape : List β → Option (β × List β)
  consumed : ∀ text b rest, escape text = some (b, rest) → Consumed mark text rest

namespace Decoder
variable [DecidableEq β] (d : Decoder β)

def step : List β → List β × List β
  | [] => ([], [])
  | c :: text =>
    if c = d.mark then
      match d.escape text with
      | some (b, rest) => ([b], rest)
      | none => ([c], text)
    else ([d.other c], text)

/-- The decoded text. -/
def decode (text : List β) : List β := rewriting d.step text

theorem step_consumes : Consumes d.step := by
  intro c text
  unfold step
  dsimp only
  split
  · cases h : d.escape text with
    | none => exact Nat.le_refl _
    | some r => exact (d.consumed text r.1 r.2 h).length_le
  · exact Nat.le_refl _

@[simp] theorem decode_nil : d.decode [] = [] := rfl

theorem decode_mark (text : List β) : d.decode (d.mark :: text) =
    match d.escape text with
    | some (b, rest) => b :: d.decode rest
    | none => d.mark :: d.decode text := by
  rw [decode, rewriting_cons d.step_consumes]
  unfold step
  dsimp only
  rw [if_pos rfl]
  cases d.escape text <;> rfl

theorem decode_other {c : β} (hc : c ≠ d.mark) (text : List β) :
    d.decode (c :: text) = d.other c :: d.decode text := by
  rw [decode, rewriting_cons d.step_consumes]
  unfold step
  dsimp only
  rw [if_neg hc]
  rfl

/-- Elements in front of the first mark. -/
theorem decode_append {l : List β} (hl : ∀ c ∈ l, c ≠ d.mark) (text : List β) :
    d.decode (l ++ text) = l.map d.other ++ d.decode text := by
  induction l with
  | nil => rfl
  | cons c l ih =>
    obtain ⟨hc, hl⟩ := List.forall_mem_cons.mp hl
    rw [List.cons_append, d.decode_other hc, ih hl]
    rfl

variable {d}

/-- What is consumed of a text without a mark is emitted otherwise. -/
theorem decode_consumed {l r : List β} (h : Consumed d.mark l r) :
    (d.decode l).length + r.length = (d.decode r).length + l.length := by
  obtain ⟨used, rfl, hused⟩ := h
  rw [d.decode_append hused, List.length_append, List.length_append, List.length_map]
  omega

variable (d)

/-- Induction on the text; behind a mark, on all that may be left. -/
theorem decode_induction {P : List β → Prop} (hnil : P [])
    (hother : ∀ c text, c ≠ d.mark → P text → P (c :: text))
    (hmark : ∀ text, (∀ rest : List β, rest.length ≤ text.length → P rest) → P (d.mark :: text)) :
    ∀ text, P text := by
  have hall : ∀ (n : Nat) (text : List β), text.length ≤ n → P text := by
    intro n
    induction n with
    | zero =>
      intro text h
      rw [List.eq_nil_of_length_eq_zero (Nat.le_zero.mp h)]
      exact hnil
    | succ n ih =>
      intro text h
      cases text with
      | nil => exact hnil
      | cons c text =>
        rw [List.length_cons] at h
        by_cases hc : c = d.mark
        · rw [hc]
          exact hmark text fun rest hrest => ih rest (by omega)
        · exact hother c text hc (ih text (by omega))
  exact fun text => hall text.length text (Nat.le_refl _)

end Decoder

/-- `d` never consumes less than `e`. -/
structure Greedier (d e : Decoder β) : Prop where
  mark : e.mark = d.mark
  other : e.other = d.other
  nothing : ∀ text, d.escape text = none → e.escape text = none
  behind : ∀ text b rest b' rest', d.escape text = some (b, rest) → e.escape text = some (b', rest') →
    Consumed d.mark rest' rest
  more : ∀ text b rest, d.escape text = some (b, rest) → e.escape text = none → rest.length < text.length

/-- Two decoders find the same behind every mark of the text. -/
def Alike [DecidableEq β] (d e : Decoder β) : List β → Prop
  | [] => True
  | c :: text => (c = d.mark → d.escape text = e.escape text) ∧ Alike d e text

section
variable [DecidableEq β] {d e : Decoder β}

theorem alike_append {l : List β} (hl : ∀ c ∈ l, c ≠ d.mark) (text : List β) :
    Alike d e (l ++ text) ↔ Alike d e text := by
  induction l with
  | nil => exact Iff.rfl
  | cons c l ih =>
    obtain ⟨hc, hl⟩ := List.forall_mem_cons.mp hl
    rw [List.cons_append, Alike, ih hl]
    exact ⟨And.right, fun h => ⟨fun heq => absurd heq hc, h⟩⟩

namespace Greedier

/-- **The greedier decoder emits no more.** -/
theorem decode_length_le (h : Greedier d e) (text : List β) : (d.decode text).length ≤ (e.decode text).length := by
  induction text using d.decode_induction with
  | hnil => exact Nat.le_refl _
  | hother c text hc ih =>
    rw [d.decode_other hc, e.decode_other (h.mark.symm ▸ hc)]
    exact Nat.succ_le_succ ih
  | hmark text ih =>
    have hspec := e.decode_mark text
    rw [h.mark] at hspec
    rw [d.decode_mark, hspec]
    cases hd : d.escape text with
    | none =>
      rw [h.nothing text hd]
      exact Nat.succ_le_succ (ih text (Nat.le_refl _))
    | some r =>
      obtain ⟨b, rest⟩ := r
      have hle := (d.consumed text b rest hd).length_le
      have hrest := ih rest hle
      cases he : e.escape text with
      | none =>
        have hemits := Decoder.decode_consumed (d := e) (h.mark.symm ▸ d.consumed text b rest hd)
        dsimp only
        rw [List.length_cons, List.length_cons]
        omega
      | some r' =>
        have hbehind := h.behind text b rest r'.1 r'.2 hd he
        have hemits := Decoder.decode_consumed (d := e) (h.mark.symm ▸ hbehind)
        have hless := hbehind.length_le
        dsimp only
        rw [List.length_cons, List.length_cons]
        omega

/-- **The two agree on a text** exactly when they find the same behind each mark. -/
theorem decode_eq_iff (h : Greedier d e) (text : List β) : d.decode text = e.decode text ↔ Alike d e text := by
  induction text using d.decode_induction with
  | hnil => exact ⟨fun _ => trivial, fun _ => rfl⟩
  | hother c text hc ih =>
    rw [d.decode_other hc, e.decode_other (h.mark.symm ▸ hc), h.other, Alike, ← ih]
    simp [hc]
  | hmark text ih =>
    have hspec := e.decode_mark text
    rw [h.mark] at hspec
    rw [d.decode_mark, hspec, Alike]
    cases hd : d.escape text with
    | none =>
      rw [h.nothing text hd, ← ih text (Nat.le_refl _)]
      simp
    | some r =>
      obtain ⟨b, rest⟩ := r
      have hconsumed := d.consumed text b rest hd
      have hle := h.decode_length_le rest
      have hrest := ih rest hconsumed.length_le
      obtain ⟨used, htext, hused⟩ := hconsumed
      have hskip : Alike d e text ↔ Alike d e rest := by
        rw [htext]
        exact alike_append hused rest
      cases he : e.escape text with
      | none =>
        -- the copied mark and what stands in front of `rest` make the difference
        have hlt := h.more text b rest hd he
        have hemits := Decoder.decode_consumed (d := e) (h.mark.symm ▸ d.consumed text b rest hd)
        refine ⟨fun heq => absurd (congrArg List.length heq) ?_, fun halike => (by cases halike.1 rfl)⟩
        dsimp only
        rw [List.length_cons, List.length_cons]
        omega
      | some r' =>
        obtain ⟨b', rest'⟩ := r'
        have hbehind := h.behind text b rest b' rest' hd he
        have hemits := Decoder.decode_consumed (d := e) (h.mark.symm ▸ hbehind)
        dsimp only
        rw [hskip, ← hrest, List.cons.injEq, Option.some.injEq, Prod.mk.injEq]
        rcases hbehind.eq_or_lt with rfl | hlt
        · simp
        · refine ⟨fun heq => absurd (congrArg List.length heq.2) (by omega), fun halike => ?_⟩
          rw [(halike.1 rfl).2] at hlt
          exact absurd hlt (Nat.lt_irrefl _)

end Greedier

end

end Lib
