import Mathlib.Data.List.Forall2
import WafProxy.Lib.CString

/-
  SQL text — MySQL's double-quoted literals and lists of values

  A literal ends at a quote that neither a backslash nor another quote stands
  in front of; a backslash escapes the byte behind it, and two quotes are one.

  1. `readLiteral` — a literal from behind its opening quote: its value, and
     what is behind its closing quote.
  2. `content` — the value of a text that is the whole of a literal;
     `readLiteral_iff`: a text between two quotes is read as such exactly when
     it has one.
  3. `renderItems`, `readItems` — a list of values as it is written and as it
     is read; `readItems_render`: every value ends where it was written to end
     exactly when every text is the whole of its literal.
-/

namespace Lib

def dquote : UInt8 := ch '"'

def backslash : UInt8 := ch '\\'

/-! ## Literals -/

/-- What a backslash in front of `c` stands for. -/
def unescape (c : UInt8) : List UInt8 :=
  if c = ch '0' then [0]
  else if c = ch 'b' then [8]
  else if c = ch 'n' then [10]
  else if c = ch 'r' then [13]
  else if c = ch 't' then [9]
  else if c = ch 'Z' then [26]
  else if c = ch '%' ∨ c = ch '_' then [backslash, c]
  else [c]

/-- A literal from behind its opening quote. -/
def readLiteral : List UInt8 → Option (List UInt8 × List UInt8)
  | [] => none
  | [b] => if b = dquote then some ([], []) else none
  | b :: c :: l =>
    if b = backslash then (readLiteral l).map fun r => (unescape c ++ r.1, r.2)
    else if b = dquote then
      if c = dquote then (readLiteral l).map fun r => (dquote :: r.1, r.2) else some ([], c :: l)
    else (readLiteral (c :: l)).map fun r => (b :: r.1, r.2)

/-- The value of a text that is the whole of a literal. -/
def content : List UInt8 → Option (List UInt8)
  | [] => some []
  | [b] => if b = backslash ∨ b = dquote then none else some [b]
  | b :: c :: l =>
    if b = backslash then (content l).map (unescape c ++ ·)
    else if b = dquote then
      if c = dquote then (content l).map (dquote :: ·) else none
    else (content (c :: l)).map (b :: ·)

/-- A literal takes at least its closing quote. -/
theorem readLiteral_length (l : List UInt8) : ∀ {c r : List UInt8},
    readLiteral l = some (c, r) → r.length < l.length := by
  induction l using readLiteral.induct with
  | case1 =>
    intro c r h
    cases h
  | case2 =>
    intro c r h
    rw [readLiteral, if_pos rfl] at h
    cases h
    exact Nat.zero_lt_one
  | case3 b hb =>
    intro c r h
    rw [readLiteral, if_neg hb] at h
    cases h
  | case4 c l ih =>
    intro v r h
    rw [readLiteral, if_pos rfl] at h
    obtain ⟨⟨v', r'⟩, hl, heq⟩ := Option.map_eq_some_iff.mp h
    cases heq
    have hlt := ih hl
    simp only [List.length_cons]
    omega
  | case5 l hb ih =>
    intro v r h
    rw [readLiteral, if_neg hb, if_pos rfl, if_pos rfl] at h
    obtain ⟨⟨v', r'⟩, hl, heq⟩ := Option.map_eq_some_iff.mp h
    cases heq
    have hlt := ih hl
    simp only [List.length_cons]
    omega
  | case6 c l hc hb =>
    intro v r h
    rw [readLiteral, if_neg hb, if_pos rfl, if_neg hc] at h
    cases h
    simp
  | case7 b c l hb hq ih =>
    intro v r h
    rw [readLiteral, if_neg hb, if_neg hq] at h
    obtain ⟨⟨v', r'⟩, hl, heq⟩ := Option.map_eq_some_iff.mp h
    cases heq
    have hlt := ih hl
    simp only [List.length_cons] at hlt ⊢
    omega

/-- The closing quote, when no other quote is behind it. -/
theorem readLiteral_close {rest : List UInt8} (h : rest.head? ≠ some dquote) :
    readLiteral (dquote :: rest) = some ([], rest) := by
  cases rest with
  | nil => rfl
  | cons c l =>
    have hc : c ≠ dquote := fun heq => h (by rw [heq]; rfl)
    rw [readLiteral, if_neg (by decide), if_pos rfl, if_neg hc]

/-- What is read in front of the text does not change where it ends. -/
theorem map_iff {f : List UInt8 → List UInt8} {o : Option (List UInt8 × List UInt8)} {p : Option (List UInt8)}
    {rest : List UInt8}
    (h : ∀ c, o = some (c, rest) ↔ p = some c) (c : List UInt8) :
    (o.map fun r => (f r.1, r.2)) = some (c, rest) ↔ p.map f = some c := by
  constructor
  · intro ho
    obtain ⟨⟨v, r⟩, hv, heq⟩ := Option.map_eq_some_iff.mp ho
    cases heq
    rw [(h v).mp hv]
    rfl
  · intro hp
    obtain ⟨v, hv, rfl⟩ := Option.map_eq_some_iff.mp hp
    rw [(h v).mpr hv]
    rfl

/-- **A text is read up to the quote behind it exactly when it is the whole of a
literal.** -/
theorem readLiteral_iff {rest : List UInt8} (h : rest.head? ≠ some dquote) (t : List UInt8) :
    ∀ c, readLiteral (t ++ dquote :: rest) = some (c, rest) ↔ content t = some c := by
  have hclose := readLiteral_close h
  -- a literal that starts behind the closing quote ends behind it, too
  have hbehind : ∀ {f : List UInt8 → List UInt8} {c},
      (readLiteral rest).map (fun r => (f r.1, r.2)) ≠ some (c, rest) := by
    intro f c hread
    obtain ⟨⟨v, r⟩, hv, heq⟩ := Option.map_eq_some_iff.mp hread
    have hr : r = rest := (Prod.mk.inj heq).2
    have hlt := readLiteral_length rest hv
    rw [hr] at hlt
    exact Nat.lt_irrefl _ hlt
  induction t using content.induct with
  | case1 =>
    intro c
    rw [List.nil_append, hclose, content]
    simp [eq_comm]
  | case2 b hb =>
    intro c
    rw [content, if_pos hb]
    show readLiteral (b :: dquote :: rest) = _ ↔ _
    rw [readLiteral]
    rcases hb with hb | hb
    · rw [if_pos hb]
      simp [hbehind]
    · rw [if_neg (by rw [hb]; decide), if_pos hb, if_pos rfl]
      simp [hbehind]
  | case3 b hb =>
    intro c
    rw [content, if_neg hb]
    show readLiteral (b :: dquote :: rest) = _ ↔ _
    rw [readLiteral, if_neg fun heq => hb (Or.inl heq), if_neg fun heq => hb (Or.inr heq), hclose]
    simp [eq_comm]
  | case4 c l ih =>
    show ∀ v, readLiteral (backslash :: c :: (l ++ dquote :: rest)) = _ ↔ _
    rw [readLiteral, content, if_pos rfl, if_pos rfl]
    exact map_iff ih
  | case5 l hb ih =>
    show ∀ v, readLiteral (dquote :: dquote :: (l ++ dquote :: rest)) = _ ↔ _
    rw [readLiteral, content, if_neg hb, if_pos rfl, if_pos rfl, if_neg hb, if_pos rfl, if_pos rfl]
    exact map_iff ih
  | case6 c l hc hb =>
    intro v
    show readLiteral (dquote :: c :: (l ++ dquote :: rest)) = _ ↔ _
    rw [readLiteral, content, if_neg hb, if_pos rfl, if_neg hc, if_neg hb, if_pos rfl, if_neg hc]
    constructor
    · intro heq
      have hrest := congrArg List.length (Prod.mk.inj (Option.some.inj heq)).2
      simp only [List.length_cons, List.length_append] at hrest
      omega
    · intro heq
      cases heq
  | case7 b c l hb hq ih =>
    show ∀ v, readLiteral (b :: c :: (l ++ dquote :: rest)) = _ ↔ _
    rw [readLiteral, content, if_neg hb, if_neg hq, if_neg hb, if_neg hq]
    exact map_iff ih

/-! ## Lists of values -/

/-- A value as it is written: a number with the blanks in front of it, or a text
between two quotes. -/
inductive SqlItem where
  | num (text : List UInt8)
  | text (text : List UInt8)

/-- A value as it is read. -/
inductive SqlValue where
  | num (digits : List UInt8)
  | text (bytes : List UInt8)
  deriving DecidableEq

def SqlItem.render : SqlItem → List UInt8
  | .num t => t
  | .text t => dquote :: (t ++ [dquote])

/-- Values with commas between them, and the closing bracket. -/
def renderItems : List SqlItem → List UInt8
  | [] => []
  | [i] => i.render ++ [ch ')']
  | i :: is => i.render ++ ch ',' :: renderItems is

/-- What stands behind each value. -/
def restsOf : List SqlItem → List (List UInt8)
  | [] => []
  | [_] => [[ch ')']]
  | _ :: is => (ch ',' :: renderItems is) :: restsOf is

def isNumByte (b : UInt8) : Bool := isdigit b || b = ch '-'

/-- A value and what is behind it. -/
def readItem (l : List UInt8) : Option (SqlValue × List UInt8) :=
  match l.dropWhile (· = ch ' ') with
  | [] => none
  | b :: l =>
    if b = dquote then (readLiteral l).map fun r => (.text r.1, r.2)
    else if isNumByte b then
      some (.num ((b :: l).takeWhile isNumByte), (b :: l).dropWhile isNumByte)
    else none

/-- At most `n` values up to the bracket that ends the statement, each with what
is behind it. -/
def readItems : Nat → List UInt8 → Option (List (SqlValue × List UInt8))
  | 0, _ => none
  | n + 1, l =>
    match readItem l with
    | none => none
    | some (_, []) => none
    | some (v, b :: rest) =>
      if b = ch ')' ∧ rest = [] then some [(v, b :: rest)]
      else if b = ch ',' then (readItems n rest).map ((v, b :: rest) :: ·)
      else none

/-- A number is digits behind blanks. -/
def SqlItem.Plain : SqlItem → Prop
  | .num t => ∃ k digits, t = List.replicate k (ch ' ') ++ digits ∧ digits ≠ [] ∧
      ∀ b ∈ digits, isNumByte b = true
  | .text _ => True

/-- An item is read as `v` up to the end it was written with. -/
def SqlItem.Reads (i : SqlItem) (v : SqlValue) : Prop :=
  match i with
  | .num t => v = .num (t.dropWhile (· = ch ' '))
  | .text t => ∃ c, content t = some c ∧ v = .text c

/-- What may stand behind a value. -/
def Separated (rest : List UInt8) : Prop :=
  ∀ b ∈ rest.head?, b ≠ dquote ∧ isNumByte b = false

theorem separated_comma (l : List UInt8) : Separated (ch ',' :: l) := by
  intro b hb
  cases hb
  decide

theorem separated_bracket : Separated [ch ')'] := by
  intro b hb
  cases hb
  decide

/-- The digits of a number stand in front of what is no digit. -/
theorem span_digits {digits rest : List UInt8} (hnum : ∀ b ∈ digits, isNumByte b = true)
    (hsep : Separated rest) :
    (digits ++ rest).takeWhile isNumByte = digits ∧ (digits ++ rest).dropWhile isNumByte = rest := by
  induction digits with
  | nil =>
    cases rest with
    | nil => exact ⟨rfl, rfl⟩
    | cons b rest =>
      have hb := (hsep b rfl).2
      exact ⟨List.takeWhile_cons_of_neg (by simp [hb]), List.dropWhile_cons_of_neg (by simp [hb])⟩
  | cons d digits ih =>
    have hd := hnum d List.mem_cons_self
    obtain ⟨htake, hdrop⟩ := ih fun b hb => hnum b (List.mem_cons_of_mem _ hb)
    rw [List.cons_append, List.takeWhile_cons_of_pos hd, List.dropWhile_cons_of_pos hd, htake, hdrop]
    exact ⟨rfl, rfl⟩

theorem dropWhile_blanks (k : Nat) (l : List UInt8) :
    (List.replicate k (ch ' ') ++ l).dropWhile (· = ch ' ') = l.dropWhile (· = ch ' ') := by
  induction k with
  | zero => rfl
  | succ k ih =>
    rw [List.replicate_succ, List.cons_append, List.dropWhile_cons_of_pos (by simp), ih]

/-- A value that was written is read up to its end exactly when its text is the
whole of a literal. -/
theorem readItem_iff {i : SqlItem} {rest : List UInt8} (hi : i.Plain) (hsep : Separated rest)
    (v : SqlValue) : readItem (i.render ++ rest) = some (v, rest) ↔ i.Reads v := by
  cases i with
  | num t =>
    obtain ⟨k, digits, rfl, hne, hnum⟩ := hi
    obtain ⟨d, digits, rfl⟩ := List.exists_cons_of_ne_nil hne
    have hd := hnum d List.mem_cons_self
    have hblank : d ≠ ch ' ' := by
      rintro rfl
      exact absurd hd (by decide)
    have hquote : d ≠ dquote := by
      rintro rfl
      exact absurd hd (by decide)
    obtain ⟨htake, hdrop⟩ := span_digits hnum hsep
    have hskip : ∀ l, (List.replicate k (ch ' ') ++ d :: l).dropWhile (· = ch ' ') = d :: l := by
      intro l
      rw [dropWhile_blanks, List.dropWhile_cons_of_neg (by simp [hblank])]
    show readItem (List.replicate k (ch ' ') ++ d :: digits ++ rest) = _ ↔ v = .num _
    rw [hskip, List.append_assoc, readItem, List.cons_append, hskip]
    dsimp only
    rw [if_neg hquote, if_pos hd, ← List.cons_append, htake, hdrop]
    simp [eq_comm]
  | text t =>
    have hhead : rest.head? ≠ some dquote := fun heq => (hsep dquote heq).1 rfl
    have hread := readLiteral_iff hhead t
    have hshape : (SqlItem.text t).render ++ rest = dquote :: (t ++ dquote :: rest) := by
      simp [SqlItem.render]
    rw [hshape, readItem, List.dropWhile_cons_of_neg (by decide)]
    dsimp only
    rw [if_pos rfl]
    constructor
    · intro h
      obtain ⟨⟨c, r⟩, hc, heq⟩ := Option.map_eq_some_iff.mp h
      cases heq
      exact ⟨c, (hread c).mp hc, rfl⟩
    · intro h
      obtain ⟨c, hc, rfl⟩ := h
      rw [(hread c).mpr hc]
      rfl

theorem readItems_cons {n : Nat} {l r : List UInt8} {v : SqlValue} {vs : List (SqlValue × List UInt8)} :
    readItems (n + 1) l = some ((v, r) :: vs) ↔ readItem l = some (v, r) ∧
      ((r = [ch ')'] ∧ vs = []) ∨ ∃ rest, r = ch ',' :: rest ∧ readItems n rest = some vs) := by
  rw [readItems]
  cases readItem l with
  | none => simp
  | some out =>
    obtain ⟨v', r'⟩ := out
    cases r' with
    | nil =>
      simp only [Option.some.injEq, Prod.mk.injEq]
      constructor
      · intro h
        cases h
      · intro h
        obtain ⟨⟨-, rfl⟩, h⟩ := h
        simp at h
    | cons b rest =>
      have hne : ch ')' ≠ ch ',' := by decide
      dsimp only
      by_cases hend : b = ch ')' ∧ rest = []
      · obtain ⟨rfl, rfl⟩ := hend
        rw [if_pos ⟨rfl, rfl⟩]
        constructor
        · intro h
          cases h
          exact ⟨rfl, Or.inl ⟨rfl, rfl⟩⟩
        · intro h
          obtain ⟨heq, h⟩ := h
          cases heq
          rcases h with ⟨-, rfl⟩ | ⟨rest, heq, -⟩
          · rfl
          · exact absurd (List.cons.inj heq).1 hne
      · rw [if_neg hend]
        by_cases hb : b = ch ','
        · subst hb
          rw [if_pos rfl]
          constructor
          · intro h
            obtain ⟨ws, hws, heq⟩ := Option.map_eq_some_iff.mp h
            cases heq
            exact ⟨rfl, Or.inr ⟨rest, rfl, hws⟩⟩
          · intro h
            obtain ⟨heq, h⟩ := h
            cases heq
            rcases h with ⟨heq, -⟩ | ⟨rest', heq, hws⟩
            · exact absurd (List.cons.inj heq).1.symm hne
            · cases heq
              rw [hws]
              rfl
        · rw [if_neg hb]
          constructor
          · intro h
            cases h
          · intro h
            obtain ⟨heq, h⟩ := h
            cases heq
            rcases h with ⟨heq, -⟩ | ⟨rest', heq, -⟩
            · obtain ⟨h1, h2⟩ := List.cons.inj heq
              exact absurd ⟨h1, h2⟩ hend
            · exact absurd (List.cons.inj heq).1 hb

/-- **A list of values is read as it was written exactly when every text is the
whole of its literal.** -/
theorem readItems_render (items : List SqlItem) : ∀ {n : Nat} {vs : List (SqlValue × List UInt8)},
    items ≠ [] → (∀ i ∈ items, i.Plain) → items.length ≤ n → vs.map Prod.snd = restsOf items →
    (readItems n (renderItems items) = some vs ↔ List.Forall₂ SqlItem.Reads items (vs.map Prod.fst)) := by
  induction items with
  | nil =>
    intro n vs hne
    exact absurd rfl hne
  | cons i items ih =>
    intro n vs _ hplain hn hrests
    obtain ⟨n, rfl⟩ : ∃ m, n = m + 1 := ⟨n - 1, by simp only [List.length_cons] at hn; omega⟩
    have hi := hplain i List.mem_cons_self
    cases items with
    | nil =>
      -- the last value, in front of the bracket
      obtain ⟨⟨v, r⟩, vs, rfl⟩ : ∃ p qs, vs = p :: qs := by
        cases vs with
        | nil => cases hrests
        | cons p qs => exact ⟨p, qs, rfl⟩
      obtain ⟨rfl, hvs⟩ := List.cons.inj hrests
      obtain rfl : vs = [] := List.map_eq_nil_iff.mp hvs
      rw [renderItems, readItems_cons, readItem_iff hi separated_bracket]
      simp
    | cons j items =>
      obtain ⟨⟨v, r⟩, vs, rfl⟩ : ∃ p qs, vs = p :: qs := by
        cases vs with
        | nil => cases hrests
        | cons p qs => exact ⟨p, qs, rfl⟩
      obtain ⟨hr, hvs⟩ := List.cons.inj hrests
      have hr : r = ch ',' :: renderItems (j :: items) := hr
      subst hr
      have hrest := @ih n vs (List.cons_ne_nil _ _) (fun k hk => hplain k (List.mem_cons_of_mem _ hk))
        (by simpa using hn) hvs
      show readItems (n + 1) (i.render ++ ch ',' :: renderItems (j :: items)) = _ ↔ _
      rw [readItems_cons, readItem_iff hi (separated_comma _), List.map_cons, List.forall₂_cons,
        ← hrest]
      constructor
      · intro h
        obtain ⟨hv, h⟩ := h
        rcases h with ⟨heq, -⟩ | ⟨rest, heq, hread⟩
        · exact absurd (List.cons.inj heq).1 (by decide)
        · cases heq
          exact ⟨hv, hread⟩
      · intro h
        exact ⟨h.1, Or.inr ⟨_, rfl, h.2⟩⟩

/-- Where a value is written there is one read. -/
theorem forall₂_getElem? {α β : Type} {R : α → β → Prop} {xs : List α} {ys : List β}
    (h : List.Forall₂ R xs ys) : ∀ {k : Nat} {x : α}, xs[k]? = some x → ∃ y, ys[k]? = some y ∧ R x y := by
  induction h with
  | nil =>
    intro k x hx
    cases hx
  | @cons x y xs ys hxy _ ih =>
    intro k z hz
    cases k with
    | zero =>
      cases hz
      exact ⟨y, rfl, hxy⟩
    | succ k => exact ih hz

theorem length_restsOf : ∀ items : List SqlItem, (restsOf items).length = items.length
  | [] => rfl
  | [_] => rfl
  | _ :: j :: is => by
    show (restsOf (j :: is)).length + 1 = _
    rw [length_restsOf (j :: is)]
    rfl

/-- The list is read as written: what every value is, and where it ends. -/
theorem exists_readItems {items : List SqlItem} {n : Nat} (hne : items ≠ [])
    (hplain : ∀ i ∈ items, i.Plain) (hn : items.length ≤ n)
    (P : List SqlValue → Prop) :
    (∃ vs, readItems n (renderItems items) = some vs ∧ vs.map Prod.snd = restsOf items ∧
      P (vs.map Prod.fst)) ↔ ∃ values, List.Forall₂ SqlItem.Reads items values ∧ P values := by
  constructor
  · intro h
    obtain ⟨vs, hread, hrests, hp⟩ := h
    exact ⟨_, (readItems_render items hne hplain hn hrests).mp hread, hp⟩
  · intro h
    obtain ⟨values, hvalues, hp⟩ := h
    have hlen : values.length = (restsOf items).length := by
      rw [length_restsOf, hvalues.length_eq]
    have hfst : (values.zip (restsOf items)).map Prod.fst = values :=
      List.map_fst_zip (Nat.le_of_eq hlen)
    have hsnd : (values.zip (restsOf items)).map Prod.snd = restsOf items :=
      List.map_snd_zip (Nat.le_of_eq hlen.symm)
    refine ⟨values.zip (restsOf items), ?_, hsnd, by rw [hfst]; exact hp⟩
    rw [readItems_render items hne hplain hn hsnd, hfst]
    exact hvalues

end Lib
