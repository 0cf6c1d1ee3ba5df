import Mathlib.Data.List.TakeWhile
import Mathlib.Data.List.Find
import WafProxy.Http.Frame

/-
  The string helpers on a packet

  Where `strlstr` finds a single character, what `strlstrip` takes off, when a
  name is a key of a table, and what `http_set_str` stores.
-/

namespace WafProxy
open Lib

/-! ## One character -/

theorem slice_one (front : List Byte) (c : Byte) (post : List Byte) :
    (Access.slice (front.length : Int) 1).run (Memory.ofList (front ++ c :: post)) = some [c] := by
  simp [Access.slice]

theorem strlstrLoop_first {p : Byte} {post : List Byte} (pre : List Byte) : ∀ {n : Nat}
    {front : List Byte}, p ∉ pre → pre.length < n →
    (strlstrLoop [p] n front.length).run (Memory.ofList (front ++ pre ++ p :: post)) =
      some (some ((front.length + pre.length : Nat) : Int)) := by
  induction pre with
  | nil =>
    intro n front _ hn
    obtain ⟨k, rfl⟩ : ∃ k, n = k + 1 := ⟨n - 1, by simp at hn; omega⟩
    have hone := slice_one front p post
    simp [strlstrLoop, hone]
  | cons c pre ih =>
    intro n front hp hn
    obtain ⟨k, rfl⟩ : ∃ k, n = k + 1 := ⟨n - 1, by simp at hn; omega⟩
    have hc : c ≠ p := fun h => hp (h ▸ List.mem_cons_self)
    have hone := slice_one front c (pre ++ p :: post)
    have hnext := @ih k (front ++ [c]) (fun h => hp (List.mem_cons_of_mem _ h)) (by simpa using hn)
    have hlist : front ++ c :: pre ++ p :: post = front ++ c :: (pre ++ p :: post) := by simp
    have hlist' : front ++ [c] ++ pre ++ p :: post = front ++ c :: (pre ++ p :: post) := by simp
    rw [hlist'] at hnext
    rw [hlist, strlstrLoop, Access.run_bind]
    simp only [List.length_singleton, hone, Option.bind_some, Access.run_ite]
    rw [if_neg (by simpa using hc)]
    have hcast : ((front.length : Nat) : Int) + 1 = ((front ++ [c]).length : Nat) := by simp
    rw [hcast, hnext]
    simp only [List.length_append, List.length_cons, List.length_nil]
    congr 3
    omega

theorem strlstrLoop_none {p : Byte} {post : List Byte} (mid : List Byte) : ∀ {front : List Byte},
    p ∉ mid → (strlstrLoop [p] mid.length front.length).run (Memory.ofList (front ++ mid ++ post)) =
      some none := by
  induction mid with
  | nil =>
    intro front _
    rfl
  | cons c mid ih =>
    intro front hp
    have hc : c ≠ p := fun h => hp (h ▸ List.mem_cons_self)
    have hone := slice_one front c (mid ++ post)
    have hnext := @ih (front ++ [c]) fun h => hp (List.mem_cons_of_mem _ h)
    have hlist : front ++ c :: mid ++ post = front ++ c :: (mid ++ post) := by simp
    have hlist' : front ++ [c] ++ mid ++ post = front ++ c :: (mid ++ post) := by simp
    rw [hlist'] at hnext
    rw [hlist, List.length_cons, strlstrLoop, Access.run_bind]
    simp only [List.length_singleton, hone, Option.bind_some, Access.run_ite]
    rw [if_neg (by simpa using hc)]
    have hcast : ((front.length : Nat) : Int) + 1 = ((front ++ [c]).length : Nat) := by simp
    rw [hcast, hnext]

/-- The first of the characters looked for. -/
theorem strlstr_first {front pre post : List Byte} {p : Byte} {slen : Nat} (hp : p ∉ pre)
    (hlen : pre.length < slen) :
    (strlstr front.length slen [p]).run (Memory.ofList (front ++ pre ++ p :: post)) =
      some (some ((front.length + pre.length : Nat) : Int)) := by
  unfold strlstr
  apply strlstrLoop_first pre hp
  simp only [List.length_singleton]
  omega

/-- None of them in a stretch that is not empty. -/
theorem strlstr_none {front mid post : List Byte} {p : Byte} (hp : p ∉ mid) (hne : mid ≠ []) :
    (strlstr front.length mid.length [p]).run (Memory.ofList (front ++ mid ++ post)) =
      some none := by
  unfold strlstr
  have hpos := List.length_pos_iff.mpr hne
  have hlen : (max 1 ((mid.length : Int) - ([p].length : Int) + 1)).toNat = mid.length := by
    simp only [List.length_singleton]
    omega
  rw [hlen]
  exact strlstrLoop_none mid hp

/-- A text, split at the first of a character that it holds. -/
theorem split_first {p : Byte} {l : List Byte} (h : (l.takeWhile (· ≠ p)).length < l.length) :
    l = l.takeWhile (· ≠ p) ++ p :: l.drop ((l.takeWhile (· ≠ p)).length + 1) := by
  have hsplit : l.takeWhile (· ≠ p) ++ l.dropWhile (· ≠ p) = l := List.takeWhile_append_dropWhile
  have hne : l.dropWhile (· ≠ p) ≠ [] := by
    intro hnil
    rw [hnil, List.append_nil] at hsplit
    rw [hsplit] at h
    exact Nat.lt_irrefl _ h
  obtain ⟨c, q, hq⟩ := List.exists_cons_of_ne_nil hne
  have hc : c = p := by
    have hfirst := List.head?_dropWhile_not (· ≠ p) l
    rw [hq] at hfirst
    simpa using hfirst
  rw [hc] at hq
  have hdrop : l.drop ((l.takeWhile (· ≠ p)).length + 1) = q := by
    have hbehind : ((l.takeWhile (· ≠ p) ++ [p]) ++ q).drop (l.takeWhile (· ≠ p) ++ [p]).length = q :=
      List.drop_left
    rwa [List.append_assoc, List.singleton_append, ← hq, hsplit, List.length_append,
      List.length_singleton] at hbehind
  rw [hdrop, ← hq, hsplit]

/-- A text whose front holds none of the character. -/
theorem takeWhile_first {p : Byte} {pre post : List Byte} (h : p ∉ pre) :
    (pre ++ p :: post).takeWhile (· ≠ p) = pre := by
  have hpre : ∀ c ∈ pre, decide (c ≠ p) = true := fun c hc => decide_eq_true fun heq => h (heq ▸ hc)
  rw [List.takeWhile_append_of_pos hpre, List.takeWhile_cons_of_neg (by simp), List.append_nil]

/-! ## `strlstrip` -/

theorem stripFront_some {m : Memory Byte} (n : Nat) : ∀ {p p' : Int},
    (stripFront n p).run m = some p' →
    p ≤ p' ∧ p' ≤ p + n ∧ ∀ i, p ≤ i → i < p' → ∃ c, m i = some c ∧ stripped c = true := by
  induction n with
  | zero =>
    intro p p' h
    cases h
    exact ⟨Int.le_refl p, by omega, fun i h1 h2 => by omega⟩
  | succ n ih =>
    intro p p' h
    obtain ⟨c, hc, h⟩ := Option.bind_eq_some_iff.mp h
    rw [Access.run_ite] at h
    split at h
    · next hs =>
      obtain ⟨h1, h2, h3⟩ := ih h
      refine ⟨by omega, by omega, ?_⟩
      intro i hi hi'
      by_cases hip : i = p
      · exact ⟨c, hip ▸ hc, hs⟩
      · exact h3 i (by omega) hi'
    · cases h
      exact ⟨Int.le_refl p, by omega, fun i h1 h2 => by omega⟩

theorem stripBack_some {m : Memory Byte} (n : Nat) : ∀ {p p' : Int},
    (stripBack n p).run m = some p' →
    p' ≤ p ∧ p - n ≤ p' ∧ ∀ i, p' ≤ i → i < p → ∃ c, m i = some c ∧ stripped c = true := by
  induction n with
  | zero =>
    intro p p' h
    cases h
    exact ⟨Int.le_refl p, by omega, fun i h1 h2 => by omega⟩
  | succ n ih =>
    intro p p' h
    obtain ⟨c, hc, h⟩ := Option.bind_eq_some_iff.mp h
    rw [Access.run_ite] at h
    split at h
    · next hs =>
      obtain ⟨h1, h2, h3⟩ := ih h
      refine ⟨by omega, by omega, ?_⟩
      intro i hi hi'
      by_cases hip : i = p - 1
      · exact ⟨c, hip ▸ hc, hs⟩
      · exact h3 i hi (by omega)
    · cases h
      exact ⟨Int.le_refl p, by omega, fun i h1 h2 => by omega⟩

/-- `strlstrip` moves its two pointers over stripped bytes only, and keeps every
byte between them that is not one. -/
theorem strlstrip_some {m : Memory Byte} {begin stop begin' stop' : Int}
    (h : (strlstrip begin stop).run m = some (begin', stop')) :
    begin ≤ begin' ∧ stop' ≤ stop ∧
    (∀ i, stop' ≤ i → i < stop → ∃ c, m i = some c ∧ stripped c = true) ∧
    ∀ i c, begin ≤ i → i < stop → m i = some c → stripped c = false → begin' ≤ i ∧ i < stop' := by
  obtain ⟨b, hb, h⟩ := Option.bind_eq_some_iff.mp h
  obtain ⟨e, he, h⟩ := Option.bind_eq_some_iff.mp h
  cases h
  obtain ⟨hb1, hb2, hb3⟩ := stripFront_some _ hb
  obtain ⟨he1, he2, he3⟩ := stripBack_some _ he
  refine ⟨hb1, he1, he3, ?_⟩
  intro i c hi hi' hm hs
  constructor
  · apply Int.not_lt.mp
    intro hlt
    obtain ⟨c', hm', hs'⟩ := hb3 i hi hlt
    rw [hm] at hm'
    cases hm'
    rw [hs] at hs'
    cases hs'
  · apply Int.not_le.mp
    intro hle
    obtain ⟨c', hm', hs'⟩ := he3 i hle hi'
    rw [hm] at hm'
    cases hm'
    rw [hs] at hs'
    cases hs'

/-! ## `strlstrip` on a list -/

section
variable {front post : List Byte}

theorem stripFront_run (mid : List Byte) : ∀ front : List Byte,
    (stripFront mid.length front.length).run (Memory.ofList (front ++ mid ++ post)) =
      some ((front.length + (mid.takeWhile stripped).length : Nat) : Int) := by
  induction mid with
  | nil =>
    intro front
    rfl
  | cons c mid ih =>
    intro front
    have hread : Memory.ofList (front ++ c :: mid ++ post) (front.length : Int) = some c := by
      simp
    have hlist : front ++ c :: mid ++ post = front ++ [c] ++ mid ++ post := by simp
    rw [List.length_cons, stripFront, Access.run_bind, Access.run_read, hread, Option.bind_some,
      Access.run_ite, List.takeWhile_cons]
    split
    · have hnext := ih (front ++ [c])
      have hcast : ((front ++ [c]).length : Int) = front.length + 1 := by simp
      rw [hcast] at hnext
      rw [hlist, hnext]
      congr 2
      simp only [List.length_append, List.length_cons, List.length_nil]
      omega
    · rfl

theorem stripBack_run (l : List Byte) : ∀ post : List Byte,
    (stripBack l.length ((front.length + l.length : Nat) : Int)).run
      (Memory.ofList (front ++ l.reverse ++ post)) =
      some ((front.length + (l.dropWhile stripped).length : Nat) : Int) := by
  induction l with
  | nil =>
    intro post
    rfl
  | cons c l ih =>
    intro post
    have hcast : ((front.length + (c :: l).length : Nat) : Int) - 1 = ((front.length + l.length : Nat) : Int) := by
      rw [List.length_cons]
      omega
    have hread : Memory.ofList (front ++ (c :: l).reverse ++ post) ((front.length + l.length : Nat) : Int) =
        some c := by
      rw [Memory.ofList_natCast, List.reverse_cons]
      simp
    have hlist : front ++ (c :: l).reverse ++ post = front ++ l.reverse ++ (c :: post) := by simp
    rw [List.length_cons, stripBack, ← List.length_cons, hcast, Access.run_bind, Access.run_read, hread,
      Option.bind_some, Access.run_ite, List.dropWhile_cons]
    split
    · rw [hlist, ih]
    · rfl

/-- A text between what `strlstrip` takes off it. -/
theorem stripText_split (l : List Byte) : ∃ trail, l = l.takeWhile stripped ++ stripText l ++ trail ∧
    ∀ c ∈ trail, stripped c = true := by
  refine ⟨((l.dropWhile stripped).reverse.takeWhile stripped).reverse, ?_, ?_⟩
  · rw [stripText, List.append_assoc, ← List.reverse_append, List.takeWhile_append_dropWhile, List.reverse_reverse,
      List.takeWhile_append_dropWhile]
  · intro c hc
    exact List.mem_takeWhile_imp (List.mem_reverse.mp hc)

/-- **`strlstrip` leaves the stripped text.** -/
theorem strlstrip_run (front mid post : List Byte) :
    (strlstrip front.length ((front.length + mid.length : Nat) : Int)).run (Memory.ofList (front ++ mid ++ post)) =
      some (((front ++ mid.takeWhile stripped).length : Int),
        (((front ++ mid.takeWhile stripped).length + (stripText mid).length : Nat) : Int)) := by
  have hsplit : mid.takeWhile stripped ++ mid.dropWhile stripped = mid := List.takeWhile_append_dropWhile
  have hlen := congrArg List.length hsplit
  rw [List.length_append] at hlen
  have hfirst : (((front.length + mid.length : Nat) : Int) - front.length).toNat = mid.length := by omega
  have hsecond : (((front.length + mid.length : Nat) : Int) -
      ((front.length + (mid.takeWhile stripped).length : Nat) : Int)).toNat =
      (mid.dropWhile stripped).reverse.length := by
    rw [List.length_reverse]
    omega
  have hstop : front.length + mid.length =
      (front ++ mid.takeWhile stripped).length + (mid.dropWhile stripped).reverse.length := by
    rw [List.length_append, List.length_reverse]
    omega
  have hlist : front ++ mid ++ post =
      front ++ mid.takeWhile stripped ++ (mid.dropWhile stripped).reverse.reverse ++ post := by
    rw [List.reverse_reverse, List.append_assoc front (mid.takeWhile stripped), hsplit]
  unfold strlstrip
  rw [hfirst, Access.run_bind, stripFront_run, Option.bind_some, hsecond, hstop, hlist,
    Access.run_bind, stripBack_run, Option.bind_some, Access.run_pure, List.length_append, stripText,
    List.length_reverse]

theorem takeWhile_of_head {l : List Byte} (h : ∀ c ∈ l.head?, stripped c = false) : l.takeWhile stripped = [] := by
  cases l with
  | nil => rfl
  | cons c l => rw [List.takeWhile_cons, if_neg (by rw [h c rfl]; exact Bool.false_ne_true)]

theorem dropWhile_of_head {l : List Byte} (h : ∀ c ∈ l.head?, stripped c = false) : l.dropWhile stripped = l := by
  cases l with
  | nil => rfl
  | cons c l => rw [List.dropWhile_cons, if_neg (by rw [h c rfl]; exact Bool.false_ne_true)]

/-- The first byte that is kept is not one to be stripped. -/
theorem head?_dropWhile (l : List Byte) : ∀ c ∈ (l.dropWhile stripped).head?, stripped c = false := by
  intro c hc
  have h := List.head?_dropWhile_not stripped l
  rw [Option.mem_def.mp hc] at h
  simpa using h

theorem getLast?_stripText (l : List Byte) : ∀ c ∈ (stripText l).getLast?, stripped c = false := by
  intro c hc
  rw [stripText, List.getLast?_reverse] at hc
  exact head?_dropWhile _ c hc

theorem head?_stripText (l : List Byte) : ∀ c ∈ (stripText l).head?, stripped c = false := by
  intro c hc
  obtain ⟨rest, hrest⟩ : stripText l <+: l.dropWhile stripped := by
    refine ⟨((l.dropWhile stripped).reverse.takeWhile stripped).reverse, ?_⟩
    rw [stripText, ← List.reverse_append, List.takeWhile_append_dropWhile, List.reverse_reverse]
  apply head?_dropWhile l c
  rw [← hrest, Option.mem_def, List.head?_append, Option.mem_def.mp hc]
  rfl

/-- **A text is left as it is when neither of its ends is a byte to be stripped.** -/
theorem stripText_eq_self {l : List Byte} : stripText l = l ↔
    (∀ c ∈ l.head?, stripped c = false) ∧ ∀ c ∈ l.getLast?, stripped c = false := by
  constructor
  · intro h
    exact ⟨h ▸ head?_stripText l, h ▸ getLast?_stripText l⟩
  · rintro ⟨hfirst, hlast⟩
    rw [stripText, dropWhile_of_head hfirst, dropWhile_of_head (by rwa [List.head?_reverse]), List.reverse_reverse]

theorem stripText_stripText (l : List Byte) : stripText (stripText l) = stripText l :=
  stripText_eq_self.mpr ⟨head?_stripText l, getLast?_stripText l⟩

/-- It leaves a token as it is. -/
theorem strlstrip_token {token : List Byte} (h : ∀ c ∈ token, stripped c = false) (post : List Byte) :
    (strlstrip 0 token.length).run (Memory.ofList (token ++ post)) = some (0, (token.length : Int)) := by
  have hhead : ∀ c ∈ token.head?, stripped c = false := fun _ hc => h _ (List.mem_of_mem_head? hc)
  have hlast : ∀ c ∈ token.getLast?, stripped c = false := fun _ hc => h _ (List.mem_of_mem_getLast? hc)
  have hrun := strlstrip_run [] token post
  rw [takeWhile_of_head hhead, stripText_eq_self.mpr ⟨hhead, hlast⟩, List.append_nil, List.length_nil,
    Nat.zero_add] at hrun
  exact hrun

/-- The first space behind a token. -/
theorem strlstr_space {token : List Byte} {n : Nat} (h : ∀ c ∈ token, stripped c = false) (hn : token.length < n)
    (post : List Byte) : (strlstr 0 n (str " ")).run (Memory.ofList (token ++ ch ' ' :: post)) =
      some (some (token.length : Int)) := by
  have hno : ch ' ' ∉ token := fun hmem => absurd (h _ hmem) (by decide)
  have hfirst := @strlstr_first [] token post (ch ' ') n hno (by omega)
  rw [List.length_nil, Nat.zero_add] at hfirst
  exact hfirst

/-- A second `strlstrip` changes nothing. -/
theorem strlstrip_again (front mid post : List Byte) :
    (strlstrip front.length ((front.length + (stripText mid).length : Nat) : Int)).run
      (Memory.ofList (front ++ stripText mid ++ post)) =
      some ((front.length : Int), ((front.length + (stripText mid).length : Nat) : Int)) := by
  rw [strlstrip_run, takeWhile_of_head (head?_stripText mid), stripText_stripText, List.append_nil]

end

/-! ## Names -/

theorem tolower_httpChar2num : ∀ c, httpChar2num (tolower c) = httpChar2num c := by
  apply forall_byte
  decide +kernel

/-- `strncasecmp` on a list that reaches as far as the constant. -/
theorem strncasecmpEq_run (key : List Byte) : ∀ (front name post : List Byte), name.length = key.length →
    (strncasecmpEq front.length key).run (Memory.ofList (front ++ name ++ post)) =
      some (decide (name.map tolower = key.map tolower)) := by
  induction key with
  | nil =>
    intro front name post hlen
    rw [List.length_eq_zero_iff.mp hlen]
    rfl
  | cons k key ih =>
    intro front name post hlen
    obtain ⟨c, name, rfl⟩ := List.exists_cons_of_ne_nil (List.ne_nil_of_length_eq_add_one hlen)
    have hread : Memory.ofList (front ++ c :: name ++ post) (front.length : Int) = some c := by simp
    have hnext := ih (front ++ [c]) name post (by simpa using hlen)
    have hcast : ((front ++ [c]).length : Int) = front.length + 1 := by simp
    have hlist : front ++ [c] ++ name ++ post = front ++ c :: name ++ post := by simp
    rw [hcast, hlist] at hnext
    rw [strncasecmpEq, Access.run_bind, Access.run_read, hread, Option.bind_some, Access.run_ite, hnext]
    split
    · next h => simp [h]
    · next h => simp [h]

/-- What may stand behind a name in `http_clean_str_cmp`. -/
def endsName (c : Byte) : Bool := c = ch ' ' || c = ch ':' || c = ch '\r' || c = ch '\t' || c = 0

theorem httpCleanStrCmp_run {front name key post : List Byte} (c : Byte) (hlen : name.length = key.length) :
    (httpCleanStrCmp front.length name.length key).run (Memory.ofList (front ++ name ++ c :: post)) =
      some (decide (name.map tolower = key.map tolower) && endsName c) := by
  have hbehind : Memory.ofList (front ++ name ++ c :: post) ((front.length : Int) + key.length) = some c := by
    have hcast : (front.length : Int) + key.length = ((front ++ name).length : Nat) := by
      rw [List.length_append, hlen]
      rfl
    rw [hcast, Memory.ofList_natCast]
    simp
  rw [httpCleanStrCmp, if_neg (by omega), Access.run_bind, strncasecmpEq_run key front name (c :: post) hlen,
    Option.bind_some, Access.run_ite]
  split
  · next h =>
    rw [Access.run_bind, Access.run_read, hbehind, Option.bind_some, Access.run_pure, h, Bool.true_and]
    rfl
  · next h =>
    rw [Bool.not_eq_true] at h
    rw [h]
    rfl

/-! ## Tables of names -/

/-- The hash of a name does not depend on the case of its letters. -/
theorem take_httpChar2num {name key : List Byte} (h : name.map tolower = key.map tolower) (n : Nat) :
    (name.take n).map httpChar2num = (key.take n).map httpChar2num := by
  have hlower : ∀ l : List Byte, (l.map tolower).map httpChar2num = l.map httpChar2num := by
    intro l
    rw [List.map_map]
    exact List.map_congr_left fun c _ => tolower_httpChar2num c
  calc (name.take n).map httpChar2num
      = ((name.map tolower).take n).map httpChar2num := by rw [← List.map_take, hlower]
    _ = ((key.map tolower).take n).map httpChar2num := by rw [h]
    _ = (key.take n).map httpChar2num := by rw [← List.map_take, hlower]

section
variable {α β : Type} {name : List Byte} {table : List (List Byte × α)}

/-- The entry of a table that has a name. -/
def entryOf (name : List Byte) (table : List (List Byte × α)) : Option (List Byte × α) :=
  table.find? fun e => e.1.map tolower = name.map tolower

theorem entryOf_some {e : List Byte × α} (h : entryOf name table = some e) :
    e ∈ table ∧ e.1.map tolower = name.map tolower :=
  ⟨List.mem_of_find?_eq_some h, by simpa using List.find?_some h⟩

theorem entryOf_none (h : entryOf name table = none) : ∀ e ∈ table, e.1.map tolower ≠ name.map tolower := by
  intro e he
  simpa using List.find?_eq_none.mp h e he

theorem map_length_eq {l l' : List Byte} (h : l.map tolower = l'.map tolower) : l.length = l'.length := by
  have hmap := congrArg List.length h
  rwa [List.length_map, List.length_map] at hmap

/-- The cell that the first `n` bytes of a name select holds every entry that has the name. -/
theorem entryOf_cell {n : Nat} {behind hashed : List Byte} (hlong : ∀ e ∈ table, n ≤ e.1.length)
    (hhashed : (name ++ behind).take n = hashed) :
    entryOf name (table.filter fun e => (e.1.take n).map httpChar2num = hashed.map httpChar2num) =
      entryOf name table := by
  unfold entryOf
  rw [List.find?_filter]
  apply List.find?_congr
  intro e he
  rw [decide_eq_decide]
  refine ⟨fun h => by simpa using h.2, fun h => ⟨?_, by simpa using h⟩⟩
  have hlen : n ≤ name.length := map_length_eq h ▸ hlong e he
  rw [decide_eq_true_eq, ← hhashed, List.take_append_of_le_length hlen]
  exact take_httpChar2num h n

/-- **A loop over the slots of a cell** ends at the entry that has the name, if the name ends there. -/
theorem entryOf_run {front post : List Byte} {c : Byte}
    (look : List (List Byte × α) → Packet.Read (Option β)) (g : List Byte × α → β) (hnil : look [] = pure none)
    (hcons : ∀ e table, look (e :: table) =
      if (e.1.length : Int) ≠ name.length then look table
      else do
        if ← httpCleanStrCmp front.length name.length e.1 then pure (some (g e)) else look table)
    (table : List (List Byte × α)) :
    (look table).run (Memory.ofList (front ++ name ++ c :: post)) =
      some (if endsName c then (entryOf name table).map g else none) := by
  induction table with
  | nil =>
    rw [hnil, entryOf, List.find?_nil, Option.map_none, ite_self]
    rfl
  | cons e table ih =>
    rw [hcons, Access.run_ite, entryOf, List.find?_cons]
    split
    · next hlen =>
      have hne : ¬ e.1.map tolower = name.map tolower := fun h => hlen (congrArg Nat.cast (map_length_eq h))
      rw [decide_eq_false hne, ih]
      rfl
    · next hlen =>
      rw [Access.run_bind, httpCleanStrCmp_run c (by omega), Option.bind_some, Access.run_ite, ih]
      by_cases h : e.1.map tolower = name.map tolower
      · cases hc : endsName c <;> simp [h]
      · simp [h, Ne.symm h, entryOf]

end

/-! ## `http_set_str` on a list -/

/-- What `http_set_str` leaves: a text of length 0 changes nothing. -/
def XStr.store (tmpFlag : DecodeFlag) (x : XStr) (text : List Byte) : XStr :=
  if text = [] then x else XStr.ofText tmpFlag text

theorem httpSetStr_run (tmpFlag : DecodeFlag) (x : XStr) (front text post : List Byte) :
    (httpSetStr tmpFlag x front.length text.length).run (Memory.ofList (front ++ text ++ post)) =
      some (x.store tmpFlag text) := by
  unfold httpSetStr XStr.store
  rw [Access.run_ite]
  by_cases htext : text = []
  · rw [if_pos htext, if_pos (by rw [htext]; decide)]
    rfl
  · have hpos := List.length_pos_iff.mpr htext
    rw [if_neg htext, if_neg (by omega), Access.run_bind, Int.toNat_natCast, Access.slice_ofList]
    rfl

/-- Without a flag the text is stored as it is. -/
theorem ofText_raw {flag : DecodeFlag} (h : flag.needDecode = false) (text : List Byte) :
    XStr.ofText flag text = { p := some text, nul := text.length } := by
  simp [XStr.ofText, h, List.set_eq_of_length_le]

theorem store_raw {flag : DecodeFlag} (h : flag.needDecode = false) {x : XStr} {text : List Byte}
    (hne : text ≠ []) : x.store flag text = { p := some text, nul := text.length } := by
  rw [XStr.store, if_neg hne, ofText_raw h]

/-- A text stored as it is into an empty string. -/
theorem store_raw_some {flag : DecodeFlag} (h : flag.needDecode = false) {text t : List Byte}
    (hp : (({} : XStr).store flag text).p = some t) : text = t := by
  by_cases htext : text = []
  · rw [XStr.store, if_pos htext] at hp
    cases hp
  · rw [store_raw h htext] at hp
    exact Option.some.inj hp

theorem store_raw_text {flag : DecodeFlag} (h : flag.needDecode = false) (text : List Byte) :
    (({} : XStr).store flag text).p.getD [] = text := by
  by_cases htext : text = []
  · rw [XStr.store, if_pos htext, htext]
    rfl
  · rw [store_raw h htext]
    rfl

end WafProxy
