import WafProxy.Http.ArgRecords
import WafProxy.Http.HeadEnd
import WafProxy.Http.LineScan

/-
  The request line of a packet

  A request line has a method, a target with or without a query, and eight bytes
  of version. The line cutter of `http_parse_head` finds it (`headLines_first`),
  and `parse_method` puts the entries of the query's arguments into the argument
  table (`parseMethod_records`). White space and colons at the end of the query
  are stripped off it.
-/

namespace WafProxy
open Lib

/-- A request line. -/
structure RequestLine where
  method : List Byte
  path : List Byte
  query : Option (List Byte)
  version : List Byte
  method_ne : method ≠ []
  method_token : ∀ c ∈ method, stripped c = false
  path_plain : ch '?' ∉ path ∧ ch '\r' ∉ path ∧ ch '\n' ∉ path
  query_plain : ∀ q ∈ query, ch '\r' ∉ q ∧ ch '\n' ∉ q
  version_plain : ch '?' ∉ version ∧ ch '\r' ∉ version ∧ ch '\n' ∉ version
  version_length : version.length = 8

namespace RequestLine

def target (l : RequestLine) : List Byte :=
  match l.query with
  | none => l.path
  | some q => l.path ++ ch '?' :: q

def text (l : RequestLine) : List Byte :=
  (l.method ++ [ch ' ']) ++ l.target ++ (ch ' ' :: l.version)

/-- The number of arguments of the query. -/
def args (l : RequestLine) : Nat :=
  match l.query with
  | none => 0
  | some q => argCount q

theorem target_plain (l : RequestLine) : ch '\r' ∉ l.target ∧ ch '\n' ∉ l.target := by
  obtain ⟨-, hr, hn⟩ := l.path_plain
  have hq := l.query_plain
  unfold target
  cases hquery : l.query with
  | none => exact ⟨hr, hn⟩
  | some q =>
    obtain ⟨hr', hn'⟩ := hq q (by simp [hquery])
    simp only [List.mem_append, List.mem_cons, not_or]
    exact ⟨⟨hr, by decide, hr'⟩, ⟨hn, by decide, hn'⟩⟩

theorem text_plain (l : RequestLine) : ∀ c ∈ l.text, c ≠ ch '\r' ∧ c ≠ ch '\n' := by
  intro c hc
  obtain ⟨htr, htn⟩ := l.target_plain
  obtain ⟨-, hvr, hvn⟩ := l.version_plain
  simp only [text, List.mem_append, List.mem_cons, List.not_mem_nil, or_false] at hc
  rcases hc with ((hc | rfl) | hc) | rfl | hc
  · have hs := l.method_token c hc
    constructor
    · intro h
      rw [h] at hs
      cases hs
    · intro h
      rw [h] at hs
      cases hs
  · decide
  · exact ⟨fun h => htr (h ▸ hc), fun h => htn (h ▸ hc)⟩
  · decide
  · exact ⟨fun h => hvr (h ▸ hc), fun h => hvn (h ▸ hc)⟩

theorem text_ne (l : RequestLine) : l.text ≠ [] := by
  intro h
  simp [text] at h

end RequestLine

/-! ## The query -/

theorem stripped_amp : stripped (ch '&') = false := by decide

theorem stripped_question : stripped (ch '?') = false := by decide

/-- The entries of the arguments of a query with `rest` behind it: of its text without the
white space and the colons that are stripped off its end. -/
def QueryEntries (query : Option (List Byte)) (rest : List Byte) (l : List (Option (List Byte × List Byte))) :
    Prop :=
  match query with
  | none => l = []
  | some q => ∃ text trail, q = text ++ trail ∧ (∀ c ∈ trail, stripped c = true) ∧
      l = argEntries (trail ++ rest) true (pieces text)

/-- A text has one argument more than it has `&`. -/
theorem pieces_length (d : List Byte) : (pieces d).length = argCount d := by
  unfold pieces argCount
  induction d with
  | nil => rfl
  | cons c d ih =>
    obtain ⟨p, ps, hp, -⟩ := pieces_spec d
    unfold pieces at hp
    rw [List.splitOn_cons_eq_if_modifyHead, hp, List.count_cons]
    rw [hp] at ih
    by_cases hc : (c == ch '&') = true
    · rw [if_pos hc, if_pos hc, List.length_cons, ih]
    · rw [if_neg hc, if_neg hc, List.modifyHead_cons, List.length_cons]
      exact ih

theorem argEntries_length (rest : List Byte) (closed : Bool) (ps : List (List Byte)) :
    (argEntries rest closed ps).length = ps.length := by
  induction ps with
  | nil => rfl
  | cons p ps ih =>
    cases ps with
    | nil => rfl
    | cons q ps => exact congrArg (· + 1) ih

/-- What is stripped off a query holds no `&`. -/
theorem QueryEntries.length {query : Option (List Byte)} {rest : List Byte}
    {l : List (Option (List Byte × List Byte))} (h : QueryEntries query rest l) :
    l.length = (query.map argCount).getD 0 := by
  cases query with
  | none => exact congrArg List.length (show l = [] from h)
  | some q =>
    obtain ⟨text, trail, rfl, htrail, rfl⟩ := h
    have hnone : trail.count (ch '&') = 0 := by
      apply List.count_eq_zero_of_not_mem
      intro hmem
      have hs := htrail _ hmem
      rw [stripped_amp] at hs
      cases hs
    show _ = argCount (text ++ trail)
    rw [argEntries_length, pieces_length, argCount, argCount, List.count_append, hnone]

section
variable {l : RequestLine} {info r : Http} {post : List Byte}

/-- The bytes of the target, from the packet. -/
theorem target_getElem {front : List Byte} {path q rest : List Byte} {j : Nat} {c : Byte}
    (h : q[j]? = some c) :
    Memory.ofList (front ++ path ++ ch '?' :: (q ++ rest))
      ((front.length + path.length + 1 + j : Nat) : Int) = some c := by
  have hlt := (List.getElem?_eq_some_iff.mp h).1
  rw [Memory.ofList_natCast, List.getElem?_append_right (by simp; omega)]
  have hidx : front.length + path.length + 1 + j - (front ++ path).length = j + 1 := by
    simp
    omega
  rw [hidx, List.getElem?_cons_succ, List.getElem?_append_left hlt, h]

/-- The bytes of the query from `k` on, when the packet has stripped ones there. -/
theorem query_trail {front path q rest : List Byte} {k : Nat}
    (h : ∀ j, k ≤ j → j < q.length → ∃ c, Memory.ofList (front ++ path ++ ch '?' :: (q ++ rest))
      ((front.length + path.length + 1 + j : Nat) : Int) = some c ∧ stripped c = true) :
    ∀ c ∈ q.drop k, stripped c = true := by
  intro c hmem
  obtain ⟨j, hj⟩ := List.getElem?_of_mem hmem
  rw [List.getElem?_drop] at hj
  obtain ⟨c', hc', hs⟩ := h (k + j) (Nat.le_add_right k j) (List.getElem?_eq_some_iff.mp hj).1
  rw [target_getElem hj] at hc'
  cases hc'
  exact hs

/-- Without a query there is no question mark to be found. -/
theorem strlstr_target {front : List Byte} (hquery : l.query = none) :
    (strlstr front.length (l.target.length + 9 : Nat) (str "?")).run
      (Memory.ofList (front ++ l.target ++ (ch ' ' :: l.version) ++ post)) = some none := by
  have hno : ch '?' ∉ l.target ++ (ch ' ' :: l.version) := by
    simp only [RequestLine.target, hquery, List.mem_append, List.mem_cons, not_or]
    exact ⟨l.path_plain.1, by decide, l.version_plain.1⟩
  have hnone := @strlstr_none front _ post _ hno (by simp)
  have hlen : (l.target ++ (ch ' ' :: l.version)).length = l.target.length + 9 := by
    simp [l.version_length]
  rw [hlen, ← List.append_assoc] at hnone
  exact hnone

/-- What the request line leaves in the table. -/
structure LineEntries (l : RequestLine) (rest : List Byte) (a : HttpArgCtrl) : Prop where
  entries : ∃ es, QueryEntries l.query rest es ∧ a.entries = es.take 32
  maxNum : a.maxNum = 32
  cur : a.cur = none

/-- `http_myparse_method` on the text behind the method and its space. -/
theorem httpMyparseMethod_records {front : List Byte} (harg : info.arg = { maxNum := 32 })
    (h : (httpMyparseMethod front.length (l.target.length + 9 : Nat) info).run
      (Memory.ofList (front ++ l.target ++ (ch ' ' :: l.version) ++ post)) = some r) :
    LineEntries l (ch ' ' :: l.version ++ post) r.arg := by
  obtain ⟨⟨b1, e1⟩, hs1, h⟩ := Option.bind_eq_some_iff.mp h
  obtain ⟨⟨b2, e2⟩, hs2, h⟩ := Option.bind_eq_some_iff.mp h
  obtain ⟨rawUrl, -, h⟩ := Option.bind_eq_some_iff.mp h
  obtain ⟨urlAndArg, -, h⟩ := Option.bind_eq_some_iff.mp h
  obtain ⟨tmp, htmp, h⟩ := Option.bind_eq_some_iff.mp h
  obtain ⟨url, -, h⟩ := Option.bind_eq_some_iff.mp h
  obtain ⟨hb1, he1, hoff1, hkeep1⟩ := strlstrip_some hs1
  obtain ⟨hb2, he2, hoff2, hkeep2⟩ := strlstrip_some hs2
  cases hquery : l.query with
  | none =>
    rw [strlstr_target hquery] at htmp
    cases htmp
    cases h
    show LineEntries l _ info.arg
    rw [harg]
    refine ⟨⟨[], ?_, rfl⟩, rfl, rfl⟩
    rw [hquery]
    rfl
  | some q =>
    have htarget : l.target = l.path ++ ch '?' :: q := by simp [RequestLine.target, hquery]
    have hlist : front ++ l.target ++ (ch ' ' :: l.version) ++ post =
        front ++ l.path ++ ch '?' :: (q ++ (ch ' ' :: l.version ++ post)) := by
      rw [htarget]
      simp
    have hlen : l.target.length = l.path.length + 1 + q.length := by
      rw [htarget]
      simp
      omega
    rw [hlist] at htmp h hoff1 hoff2 hkeep1 hkeep2
    have hfind := @strlstr_first front _ (q ++ (ch ' ' :: l.version ++ post)) _
      (l.target.length + 9) l.path_plain.1 (by omega)
    have hmark : str "?" = [ch '?'] := by decide
    rw [hmark, hfind] at htmp
    cases htmp
    -- the question mark is not stripped, so both strips stop behind it
    have hat : Memory.ofList (front ++ l.path ++ ch '?' :: (q ++ (ch ' ' :: l.version ++ post)))
        ((front.length + l.path.length : Nat) : Int) = some (ch '?') := by
      rw [Memory.ofList_natCast]
      simp
    obtain ⟨-, hlt1⟩ := hkeep1 _ _ (by omega) (by omega) hat stripped_question
    obtain ⟨hbe1, -⟩ := hkeep1 _ _ (by omega) (by omega) hat stripped_question
    obtain ⟨-, hlt2⟩ := hkeep2 _ _ hbe1 hlt1 hat stripped_question
    dsimp only at h
    obtain ⟨r', hr', h⟩ := Option.bind_eq_some_iff.mp h
    cases h
    have hcast : ((front.length + l.path.length : Nat) : Int) + 1 =
        ((front ++ l.path ++ [ch '?']).length : Nat) := by simp [Int.add_assoc]
    have hsplit : front ++ l.path ++ ch '?' :: (q ++ (ch ' ' :: l.version ++ post)) =
        front ++ l.path ++ [ch '?'] ++ (q ++ (ch ' ' :: l.version ++ post)) := by simp
    rw [Access.run_atPtr, hcast, hsplit, Memory.above_ofList] at hr'
    generalize hkdef : (e2 - ((front ++ l.path ++ [ch '?']).length : Nat)).toNat = k
    have hfrontlen : (front ++ l.path ++ [ch '?']).length = front.length + l.path.length + 1 := by
      simp only [List.length_append, List.length_singleton]
    have hk : k ≤ q.length := by omega
    have htrail : ∀ c ∈ q.drop k, stripped c = true := by
      apply @query_trail front l.path _ (ch ' ' :: l.version ++ post)
      intro j hj hjlt
      by_cases hlt : ((front.length + l.path.length + 1 + j : Nat) : Int) < e1
      · exact hoff2 _ (by omega) hlt
      · exact hoff1 _ (by omega) (by omega)
    have hmem : q ++ (ch ' ' :: l.version ++ post) = q.take k ++ (q.drop k ++ (ch ' ' :: l.version ++ post)) := by
      rw [← List.append_assoc (q.take k), List.take_append_drop]
    rw [hmem] at hr'
    obtain ⟨hrec, hmax⟩ := httpParseArgs_records (by simp [Http.withStr, harg]) (by simp [Http.withStr, harg])
      (by simp [Http.withStr, harg]) (by rw [hkdef, List.length_take_of_le hk]) hr'
    refine ⟨⟨argEntries (q.drop k ++ (ch ' ' :: l.version ++ post)) true (pieces (q.take k)), ?_, ?_⟩, hmax, rfl⟩
    · rw [hquery]
      exact ⟨q.take k, q.drop k, (List.take_append_drop k q).symm, htrail, rfl⟩
    · show r'.arg.entries = _
      rw [hrec]
      simp [Http.withStr, harg, HttpArgCtrl.entries]

end

theorem httpFindMethod_length {begin len : Int} (table : List (List Byte × HttpMethod)) :
    (httpFindMethod begin len table).Ensures fun found => ∀ key ∈ found, (key.length : Int) = len := by
  induction table with
  | nil => exact Access.ensures_pure fun key h => by cases h
  | cons e table ih =>
    unfold httpFindMethod
    split
    · exact ih
    · next hlen =>
      apply Access.ensures_then
      intro same
      split
      · exact Access.ensures_pure fun key h => by
          cases h
          exact Decidable.not_not.mp hlen
      · exact ih

theorem RequestLine.text_split (l : RequestLine) (post : List Byte) :
    l.text ++ post = l.method ++ (ch ' ' :: (l.target ++ (ch ' ' :: l.version) ++ post)) := by
  simp [RequestLine.text]

theorem RequestLine.text_length (l : RequestLine) :
    l.text.length = l.method.length + 1 + (l.target.length + 9) := by
  simp [RequestLine.text, l.version_length]
  omega

/-- The first space of a request line stands behind the method. -/
theorem RequestLine.space (l : RequestLine) (post : List Byte) :
    (strlstr 0 l.text.length (str " ")).run (Memory.ofList (l.text ++ post)) =
      some (some (l.method.length : Int)) := by
  have hlen := l.text_length
  rw [l.text_split]
  exact strlstr_space l.method_token (by omega) _

/-- **The request line puts the arguments of its query into the table.** -/
theorem parseMethod_records {l : RequestLine} {info r : Http} {post : List Byte}
    (harg : info.arg = { maxNum := 32 })
    (h : (parseMethod 0 l.text.length info).run (Memory.ofList (l.text ++ post)) = some r) :
    LineEntries l (ch ' ' :: l.version ++ post) r.arg := by
  have hlen := l.text_length
  have hfront : ((l.method.length : Nat) : Int) + 1 = ((l.method ++ [ch ' ']).length : Nat) := by simp
  have hlist := l.text_split post
  have hfind := l.space post
  obtain ⟨found, hfound, h⟩ := Option.bind_eq_some_iff.mp h
  rw [hfind] at hfound
  cases hfound
  obtain ⟨⟨begin, stop⟩, hstrip, h⟩ := Option.bind_eq_some_iff.mp h
  rw [hlist, strlstrip_token l.method_token] at hstrip
  cases hstrip
  obtain ⟨a, -, h⟩ := Option.bind_eq_some_iff.mp h
  obtain ⟨b, -, h⟩ := Option.bind_eq_some_iff.mp h
  obtain ⟨found, hfound, h⟩ := Option.bind_eq_some_iff.mp h
  -- the rest of the line, wherever the method stands in the table
  have hrest : ∀ q : Http, q.arg = { maxNum := 32 } →
      (httpMyparseMethod ((l.method.length : Int) + 1)
        ((l.text.length : Int) - l.method.length - 1) q).run (Memory.ofList (l.text ++ post)) = some r →
      LineEntries l (ch ' ' :: l.version ++ post) r.arg := by
    intro q hq hrun
    have hn : (l.text.length : Int) - l.method.length - 1 = ((l.target.length + 9 : Nat) : Int) := by
      omega
    rw [hfront, hn] at hrun
    exact httpMyparseMethod_records hq hrun
  cases found with
  | none =>
    apply hrest _ _ (by simpa using h)
    exact harg
  | some key =>
    have hkey := httpFindMethod_length _ _ _ hfound key rfl
    have hk : (key.length : Int) = l.method.length := by omega
    have hlt : (key.length : Int) + 1 < l.text.length - (0 - 0) := by omega
    dsimp only at h
    rw [if_pos hlt] at h
    apply hrest _ _ (by simpa [hk] using h)
    exact harg

end WafProxy
