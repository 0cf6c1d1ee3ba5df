import Mathlib.Data.List.TakeWhile
import WafProxy.Http.RequestLine

/-
  The parts of a request line — `parse_method` of http_header.c

  The target is found by taking the version's fixed length and a space off the
  end of the line, and `strlstrip` takes white space and colons off its ends.
  The method is looked up by the hash of its first two bytes; the value that is
  stored is the one of the first slot of the cell.

  What is proved:
    1. `parseMethod_run` — `parse_method` up to the arguments, then the call of
       `_http_parse_args`.
    2. `parseMethodUrl_method` — the method stored is the registered one, but
       `connect` for `copy` (`storedMethod`).
    3. `methodLine_iff` — the line is decomposed as it stands exactly when the
       target neither starts nor ends with a colon and the method is not `copy`.

  Correspondence (C ↔ Lean):
    `http_myparse_method` up to `_http_parse_args`  ↔ `httpMyparseMethodUrl`
    `parse_method` up to there                      ↔ `parseMethodUrl`
    `_http_parse_args(info,tmp,end-tmp,1)`, `cur`   ↔ `MethodParse.finish`
-/

namespace WafProxy
open Lib

/-- `METHOD SP target SP HTTP/d.d`. -/
structure MethodLine where
  method : List Byte
  target : List Byte
  major : Byte
  minor : Byte
  method_ne : method ≠ []
  method_token : ∀ c ∈ method, stripped c = false
  target_ne : target ≠ []
  target_plain : ∀ c ∈ target, isspace c = false ∧ c ≠ 0
  digits : isdigit major = true ∧ isdigit minor = true

namespace MethodLine

def version (l : MethodLine) : List Byte := str "HTTP/" ++ [l.major, ch '.', l.minor]

/-- The line behind the method and its space. -/
def tail (l : MethodLine) : List Byte := l.target ++ ch ' ' :: l.version

def text (l : MethodLine) : List Byte := l.method ++ ch ' ' :: l.tail

/-- The line in front of the target. -/
def front (l : MethodLine) : List Byte := l.method ++ [ch ' ']

/-- The target in front of its first `?`. -/
def path (l : MethodLine) : List Byte := l.target.takeWhile (· ≠ ch '?')

/-- The target behind its first `?`. -/
def query (l : MethodLine) : Option (List Byte) :=
  if ch '?' ∈ l.target then some (l.target.drop (l.path.length + 1)) else none

/-- The lines that are decomposed as they stand. -/
structure Regular (l : MethodLine) : Prop where
  front : l.target.head? ≠ some (ch ':')
  back : l.target.getLast? ≠ some (ch ':')
  method : l.method.map tolower ≠ str "copy"

end MethodLine

/-- The value a method is registered with. -/
def registeredMethod (method : List Byte) : HttpMethod :=
  ((entryOf method httpMethodTable).map Prod.snd).getD .na

/-! ## Up to the arguments -/

/-- What is stored when `_http_parse_args` is called, with the pointer and the length that are
passed. -/
structure MethodParse where
  info : Http
  args : Option (Int × Int)

/-- The call of `_http_parse_args`, and what follows it. -/
def MethodParse.finish (p : MethodParse) : Packet.Read Http :=
  match p.args with
  | none => pure p.info
  | some (tmp, n) => do
    let info ← Access.atPtr tmp (httpParseArgs p.info n true)
    pure { info with arg := { info.arg with cur := none } }

def httpMyparseMethodUrl (data len : Int) (info : Http) : Packet.Read MethodParse := do
  let (begin, stop) ← strlstrip data (data + len - 8 - 1)
  let (begin, stop) ← strlstrip begin stop
  let mylen := stop - begin
  let rawUrl ← httpSetStr {} info.str.rawUrl begin mylen
  let urlAndArg ← httpSetStr info.tmpFlag info.str.urlAndArg begin mylen
  let tmp ← strlstr data len (str "?")
  let url ← httpSetStr info.tmpFlag info.str.url begin (match tmp with
    | none => mylen
    | some tmp => tmp - begin)
  let info := info.withStr fun s => { s with rawUrl := rawUrl, urlAndArg := urlAndArg, url := url }
  pure { info := info, args := tmp.map fun tmp => (tmp + 1, stop - (tmp + 1)) }

def parseMethodUrl (data dataLen : Int) (info : Http) : Packet.Read MethodParse := do
  match ← strlstr data dataLen (str " ") with
  | none => pure { info := info, args := none }
  | some space =>
    let (begin, stop) ← strlstrip data space
    let dataLen := dataLen - (begin - data)
    let a ← Access.read begin
    let b ← Access.read (begin + 1)
    match ← httpFindMethod begin (stop - begin) (methodCell a b) with
    | none =>
      httpMyparseMethodUrl (stop + 1) (begin + dataLen - stop - 1)
        { info with logic := { info.logic with method := .na } }
    | some key =>
      let value := ((methodCell a b).head?.map Prod.snd).getD .none
      let info := { info with logic := { info.logic with method := value } }
      if (key.length : Int) + 1 < dataLen then
        httpMyparseMethodUrl (begin + key.length + 1) (dataLen - key.length - 1) info
      else pure { info := info, args := none }

section
variable {data len : Int} {info : Http} {m : Memory Byte}

theorem httpMyparseMethod_run : (httpMyparseMethod data len info).run m =
    ((httpMyparseMethodUrl data len info).run m).bind fun p => p.finish.run m := by
  simp only [httpMyparseMethod, httpMyparseMethodUrl, Access.run_bind, Option.bind_assoc]
  congr 1
  funext p
  obtain ⟨begin, stop⟩ := p
  congr 1
  funext p
  obtain ⟨begin, stop⟩ := p
  congr 1
  funext rawUrl
  congr 1
  funext urlAndArg
  congr 1
  funext tmp
  congr 1
  funext url
  cases tmp <;> rfl

/-- **`parse_method` is `parseMethodUrl`, then the call of the argument parser.** -/
theorem parseMethod_run : (parseMethod data len info).run m =
    ((parseMethodUrl data len info).run m).bind fun p => p.finish.run m := by
  simp only [parseMethod, parseMethodUrl, Access.run_bind, Option.bind_assoc]
  congr 1
  funext space
  cases space with
  | none => rfl
  | some space =>
    simp only [Access.run_bind, Option.bind_assoc]
    congr 1
    funext p
    obtain ⟨begin, stop⟩ := p
    congr 1
    funext a
    congr 1
    funext b
    congr 1
    funext found
    cases found with
    | none => exact httpMyparseMethod_run
    | some key =>
      simp only [Access.run_ite]
      split
      · exact httpMyparseMethod_run
      · rfl

end

/-! ## The method -/

/-- The key of the method is looked up without regard to case. -/
theorem httpFindMethod_run {front name post : List Byte} {c : Byte} (hc : endsName c = true)
    (table : List (List Byte × HttpMethod)) :
    (httpFindMethod front.length name.length table).run (Memory.ofList (front ++ name ++ c :: post)) =
      some ((entryOf name table).map Prod.fst) := by
  have hfind := @entryOf_run _ _ name front post c (httpFindMethod front.length name.length) Prod.fst rfl
    (fun _ _ => rfl) table
  rwa [if_pos hc] at hfind

theorem methodTable_keys : ∀ e ∈ httpMethodTable, 2 ≤ e.1.length ∧
    (e.1.map tolower = str "copy" ↔ e.1 = str "copy") := by decide

section
variable {method rest : List Byte} {a b : Byte}

/-- The cell of a method holds every slot of the table that could match it. -/
theorem methodCell_entry (htwo : method ++ [ch ' '] = a :: b :: rest) :
    entryOf method (methodCell a b) = entryOf method httpMethodTable := by
  have hhashed : (method ++ [ch ' ']).take 2 = [a, b] := by
    rw [htwo]
    rfl
  exact entryOf_cell (fun e he => (methodTable_keys e he).1) hhashed

/-- The two hashes of a name that is in the table, from the key. -/
theorem methodKey_hash (htwo : method ++ [ch ' '] = a :: b :: rest) {e : List Byte × HttpMethod}
    (he : entryOf method httpMethodTable = some e) :
    (e.1.take 2).map httpChar2num = [httpChar2num a, httpChar2num b] := by
  obtain ⟨hmem, hsame⟩ := entryOf_some he
  have hlen : 2 ≤ method.length := map_length_eq hsame ▸ (methodTable_keys e hmem).1
  have htake : method.take 2 = [a, b] := by
    rw [← List.take_append_of_le_length hlen, htwo]
    rfl
  rw [take_httpChar2num hsame, htake]
  rfl

end

/-- The value that is stored: the one of the first slot of the cell, which for `copy` is the one
of `connect`. -/
def storedMethod (method : List Byte) : HttpMethod :=
  if method.map tolower = str "copy" then .connect else registeredMethod method

theorem methodTable_cells : ∀ e ∈ httpMethodTable,
    (httpMethodTable.filter fun e' => (e'.1.take 2).map httpChar2num = (e.1.take 2).map httpChar2num).head?.map
      Prod.snd = some (if e.1 = str "copy" then .connect else e.2) := by decide

theorem methodCell_value {method rest : List Byte} {a b : Byte} (htwo : method ++ [ch ' '] = a :: b :: rest)
    {e : List Byte × HttpMethod} (he : entryOf method httpMethodTable = some e) :
    ((methodCell a b).head?.map Prod.snd).getD .none = if e.1 = str "copy" then .connect else e.2 := by
  rw [methodCell, ← methodKey_hash htwo he, methodTable_cells e (entryOf_some he).1]
  rfl

section
variable {method : List Byte}

theorem storedMethod_none (h : entryOf method httpMethodTable = none) : storedMethod method = .na := by
  have hcopy : ¬ method.map tolower = str "copy" := by
    intro hcopy
    have hno := entryOf_none h (str "copy", .webdav) (by decide)
    rw [hcopy] at hno
    exact hno (by decide)
  rw [storedMethod, if_neg hcopy, registeredMethod, h]
  rfl

theorem storedMethod_some {e : List Byte × HttpMethod} (h : entryOf method httpMethodTable = some e) :
    storedMethod method = if e.1 = str "copy" then .connect else e.2 := by
  obtain ⟨hmem, hsame⟩ := entryOf_some h
  have hcopy := (methodTable_keys e hmem).2
  rw [hsame] at hcopy
  rw [storedMethod, registeredMethod, h]
  by_cases hkey : e.1 = str "copy"
  · rw [if_pos (hcopy.mpr hkey), if_pos hkey]
  · rw [if_neg fun heq => hkey (hcopy.mp heq), if_neg hkey]
    rfl

/-- The code stores the registered value, but for `copy`. -/
theorem storedMethod_eq_registered : storedMethod method = registeredMethod method ↔
    method.map tolower ≠ str "copy" := by
  constructor
  · intro h hcopy
    have hregistered : registeredMethod method = .webdav := by
      rw [registeredMethod, entryOf, hcopy]
      decide
    rw [storedMethod, if_pos hcopy, hregistered] at h
    cases h
  · intro h
    rw [storedMethod, if_neg h]

end

theorem MethodLine.text_length (l : MethodLine) : l.text.length = l.method.length + 1 + (l.target.length + 9) := by
  simp [text, tail, version, str]
  omega

section
variable (l : MethodLine) (post : List Byte)

/-- The memory of a line, from the method on. -/
theorem MethodLine.text_split : l.text ++ post = [] ++ l.method ++ ch ' ' :: (l.tail ++ post) := by
  simp [text]

/-- The first space of the line stands behind the method. -/
theorem MethodLine.space : (strlstr 0 l.text.length (str " ")).run (Memory.ofList (l.text ++ post)) =
    some (some (l.method.length : Int)) := by
  have hlen := l.text_length
  rw [l.text_split]
  exact strlstr_space l.method_token (by omega) _

theorem MethodLine.method_strip : (strlstrip 0 l.method.length).run (Memory.ofList (l.text ++ post)) =
    some (0, (l.method.length : Int)) := by
  rw [l.text_split]
  exact strlstrip_token l.method_token _

/-- The two bytes that are hashed: the second one of a method of one letter is the space. -/
theorem MethodLine.hashed : ∃ a b rest, l.method ++ [ch ' '] = a :: b :: rest ∧
    Memory.ofList (l.text ++ post) 0 = some a ∧ Memory.ofList (l.text ++ post) (0 + 1) = some b := by
  have hlist : l.text ++ post = l.method ++ [ch ' '] ++ (l.tail ++ post) := by simp [text]
  obtain ⟨a, t, ht⟩ := List.exists_cons_of_ne_nil l.method_ne
  have hne : t ++ [ch ' '] ≠ [] := List.append_ne_nil_of_right_ne_nil t (List.cons_ne_nil _ _)
  obtain ⟨b, rest, hrest⟩ := List.exists_cons_of_ne_nil hne
  have htwo : l.method ++ [ch ' '] = a :: b :: rest := by rw [ht, List.cons_append, hrest]
  rw [htwo] at hlist
  exact ⟨a, b, rest, htwo, by rw [hlist]; rfl, by rw [hlist]; rfl⟩

/-- **The method that `parse_method` stores**; the rest of the line goes to
`http_myparse_method`. -/
theorem parseMethodUrl_method (info : Http) :
    (parseMethodUrl 0 l.text.length info).run (Memory.ofList (l.text ++ post)) =
      (httpMyparseMethodUrl l.front.length (l.target.length + 9 : Nat)
        { info with logic := { info.logic with method := storedMethod l.method } }).run
        (Memory.ofList (l.text ++ post)) := by
  have hlen := l.text_length
  obtain ⟨a, b, rest, htwo, ha, hb⟩ := l.hashed post
  have hfind := @httpFindMethod_run [] l.method (l.tail ++ post) (ch ' ') (by decide) (methodCell a b)
  rw [methodCell_entry htwo, List.length_nil, Int.natCast_zero, ← l.text_split] at hfind
  have hbehind : (l.front.length : Int) = l.method.length + 1 := by simp [MethodLine.front]
  have hrest : (l.text.length : Int) - l.method.length - 1 = ((l.target.length + 9 : Nat) : Int) := by omega
  rw [parseMethodUrl, Access.run_bind, l.space, Option.bind_some]
  dsimp only
  rw [Access.run_bind, l.method_strip, Option.bind_some]
  dsimp only
  rw [Access.run_bind, Access.run_read, ha, Option.bind_some, Access.run_bind, Access.run_read, hb,
    Option.bind_some, Access.run_bind, Int.sub_zero, hfind, Option.bind_some, hbehind]
  cases hkey : entryOf l.method httpMethodTable with
  | none =>
    simp only [Option.map_none, Int.sub_self, Int.sub_zero, Int.zero_add, hrest, storedMethod_none hkey]
  | some e =>
    have hk : e.1.length = l.method.length := map_length_eq (entryOf_some hkey).2
    have hstored : ((methodCell a b).head?.map Prod.snd).getD .none = storedMethod l.method := by
      rw [methodCell_value htwo hkey, storedMethod_some hkey]
    simp only [Option.map_some, Int.sub_self, Int.sub_zero, Int.zero_add, hk, hstored, Access.run_ite]
    rw [if_pos (by omega), hrest]

end

/-! ## The target -/

namespace MethodLine
section
variable (l : MethodLine) (post : List Byte)

/-- The memory behind the target. -/
def back : List Byte := ch ' ' :: l.version ++ post

theorem text_target : l.text ++ post = l.front ++ l.target ++ l.back post := by
  simp [text, tail, front, back]

theorem stripped_iff {c : Byte} (hc : c ∈ l.target) : stripped c = false ↔ c ≠ ch ':' := by
  rw [stripped, (l.target_plain c hc).1, Bool.false_or, decide_eq_false_iff_not]

/-- The target is left as it is when it neither starts nor ends with a colon. -/
theorem target_strip : stripText l.target = l.target ↔
    l.target.head? ≠ some (ch ':') ∧ l.target.getLast? ≠ some (ch ':') := by
  rw [stripText_eq_self]
  refine and_congr ⟨fun h heq => ?_, fun h c hc => ?_⟩ ⟨fun h heq => ?_, fun h c hc => ?_⟩
  · exact absurd (h _ heq) (by decide)
  · exact (l.stripped_iff (List.mem_of_mem_head? hc)).mpr fun heq => h (heq ▸ hc)
  · exact absurd (h _ heq) (by decide)
  · exact (l.stripped_iff (List.mem_of_mem_getLast? hc)).mpr fun heq => h (heq ▸ hc)

/-- The target, split at its first `?`. -/
theorem target_split : (l.query = none ∧ l.path = l.target ∧ ch '?' ∉ l.target) ∨
    ∃ q, l.query = some q ∧ l.target = l.path ++ ch '?' :: q ∧ ch '?' ∉ l.path := by
  have hpath : ch '?' ∉ l.path := by
    intro hmem
    have hne := List.mem_takeWhile_imp hmem
    simp at hne
  by_cases hmem : ch '?' ∈ l.target
  · have hlt : l.path.length < l.target.length := by
      have hle := (List.takeWhile_prefix (l := l.target) (· ≠ ch '?')).length_le
      refine Nat.lt_of_le_of_ne hle fun heq => hpath ?_
      rw [show l.path = l.target from (List.takeWhile_prefix (· ≠ ch '?')).eq_of_length heq]
      exact hmem
    exact Or.inr ⟨_, if_pos hmem, split_first hlt, hpath⟩
  · left
    refine ⟨if_neg hmem, ?_, hmem⟩
    exact List.takeWhile_eq_self_iff.mpr fun c hc => by
      rw [decide_eq_true_eq]
      exact fun heq => hmem (heq ▸ hc)

theorem version_question : ch '?' ∉ ch ' ' :: l.version := by
  have hdigit : ∀ c, isdigit c = true → ch '?' ≠ c := by
    intro c hc heq
    rw [← heq] at hc
    cases hc
  have hname : ch '?' ∉ ch ' ' :: str "HTTP/" := by decide
  have hdot : ch '?' ≠ ch '.' := by decide
  rw [version, ← List.cons_append, List.mem_append, not_or]
  refine ⟨hname, ?_⟩
  simp only [List.mem_cons, List.not_mem_nil, or_false, not_or]
  exact ⟨hdigit _ l.digits.1, hdot, hdigit _ l.digits.2⟩

/-- The first `?` of the line is the one of the target. -/
theorem question : (strlstr l.front.length (l.target.length + 9 : Nat) (str "?")).run
    (Memory.ofList (l.text ++ post)) =
      some (l.query.map fun _ => ((l.front.length + l.path.length : Nat) : Int)) := by
  have hmark : str "?" = [ch '?'] := by decide
  have hlist : l.text ++ post = l.front ++ (l.target ++ ch ' ' :: l.version) ++ post := by
    simp [text, tail, front]
  rw [hmark]
  rcases l.target_split with ⟨hquery, -, hno⟩ | ⟨q, hquery, htarget, hno⟩
  · have hnone := @strlstr_none l.front (l.target ++ ch ' ' :: l.version) post (ch '?')
      (by rw [List.mem_append, not_or]; exact ⟨hno, l.version_question⟩)
      (List.append_ne_nil_of_left_ne_nil l.target_ne _)
    have hlen : (l.target ++ ch ' ' :: l.version).length = l.target.length + 9 := by
      rw [List.length_append, List.length_cons]
      rfl
    rw [hlist, hquery, ← hlen, hnone]
    rfl
  · have hlen := congrArg List.length htarget
    rw [List.length_append, List.length_cons] at hlen
    have hfirst := @strlstr_first l.front l.path (q ++ l.back post) (ch '?') (l.target.length + 9) hno (by omega)
    have hlist' : l.text ++ post = l.front ++ l.path ++ ch '?' :: (q ++ l.back post) := by
      rw [l.text_target, htarget]
      simp
    rw [hlist', hquery, hfirst]
    rfl

theorem text_stripped : ∃ rest, l.text ++ post =
    (l.front ++ l.target.takeWhile stripped) ++ stripText l.target ++ rest := by
  obtain ⟨trail, htrail, -⟩ := stripText_split l.target
  refine ⟨trail ++ l.back post, ?_⟩
  rw [l.text_target]
  conv_lhs => rw [htrail]
  simp only [List.append_assoc]

/-- What the two calls of `strlstrip` leave. -/
theorem target_ends : (strlstrip l.front.length (l.front.length + (l.target.length + 9 : Nat) - 8 - 1)).run
    (Memory.ofList (l.text ++ post)) =
      some (((l.front ++ l.target.takeWhile stripped).length : Int),
        (((l.front ++ l.target.takeWhile stripped).length + (stripText l.target).length : Nat) : Int)) ∧
    (strlstrip (l.front ++ l.target.takeWhile stripped).length
      (((l.front ++ l.target.takeWhile stripped).length + (stripText l.target).length : Nat) : Int)).run
      (Memory.ofList (l.text ++ post)) =
      some (((l.front ++ l.target.takeWhile stripped).length : Int),
        (((l.front ++ l.target.takeWhile stripped).length + (stripText l.target).length : Nat) : Int)) := by
  constructor
  · have hstop : (l.front.length : Int) + (l.target.length + 9 : Nat) - 8 - 1 =
        ((l.front.length + l.target.length : Nat) : Int) := by omega
    rw [hstop, l.text_target]
    exact strlstrip_run l.front l.target (l.back post)
  · obtain ⟨rest, hlist⟩ := l.text_stripped post
    rw [hlist]
    exact strlstrip_again _ l.target rest

end
end MethodLine

section
variable {l : MethodLine} {post : List Byte} {info : Http}

/-- `raw_url` is the target without the colons at its ends. -/
theorem httpMyparseMethodUrl_raw {p : MethodParse}
    (h : (httpMyparseMethodUrl l.front.length (l.target.length + 9 : Nat) info).run
      (Memory.ofList (l.text ++ post)) = some p) :
    p.info.str.rawUrl = info.str.rawUrl.store {} (stripText l.target) ∧ p.info.logic = info.logic := by
  obtain ⟨hfirst, hagain⟩ := l.target_ends post
  rw [httpMyparseMethodUrl, Access.run_bind, hfirst, Option.bind_some] at h
  dsimp only at h
  rw [Access.run_bind, hagain, Option.bind_some] at h
  obtain ⟨rawUrl, hraw, h⟩ := Option.bind_eq_some_iff.mp h
  obtain ⟨urlAndArg, -, h⟩ := Option.bind_eq_some_iff.mp h
  obtain ⟨tmp, -, h⟩ := Option.bind_eq_some_iff.mp h
  obtain ⟨url, -, h⟩ := Option.bind_eq_some_iff.mp h
  cases h
  obtain ⟨rest, hlist⟩ := l.text_stripped post
  have hlen : (((l.front ++ l.target.takeWhile stripped).length + (stripText l.target).length : Nat) : Int) -
      (l.front ++ l.target.takeWhile stripped).length = (stripText l.target).length := by omega
  rw [hlen, hlist, httpSetStr_run] at hraw
  exact ⟨(Option.some.inj hraw).symm, rfl⟩

/-- A target without colons at its ends is stored as it stands, and split at its first `?`. -/
theorem httpMyparseMethodUrl_whole (hstrip : stripText l.target = l.target) :
    (httpMyparseMethodUrl l.front.length (l.target.length + 9 : Nat) info).run
      (Memory.ofList (l.text ++ post)) = some
      { info := info.withStr fun s =>
          { s with
            rawUrl := s.rawUrl.store {} l.target
            urlAndArg := s.urlAndArg.store info.tmpFlag l.target
            url := s.url.store info.tmpFlag l.path }
        args := l.query.map fun q => (((l.front.length + l.path.length : Nat) : Int) + 1, (q.length : Int)) } := by
  obtain ⟨hfirst, hagain⟩ := l.target_ends post
  have hhead : ∀ c ∈ l.target.head?, stripped c = false := hstrip ▸ head?_stripText l.target
  rw [hstrip, takeWhile_of_head hhead, List.append_nil] at hfirst hagain
  have hlen : ((l.front.length + l.target.length : Nat) : Int) - l.front.length = l.target.length := by omega
  have hset : ∀ (flag : DecodeFlag) (x : XStr), (httpSetStr flag x l.front.length l.target.length).run
      (Memory.ofList (l.text ++ post)) = some (x.store flag l.target) := by
    intro flag x
    rw [l.text_target]
    exact httpSetStr_run flag x _ _ _
  rw [httpMyparseMethodUrl, Access.run_bind, hfirst, Option.bind_some]
  dsimp only
  rw [Access.run_bind, hagain, Option.bind_some]
  dsimp only
  rw [hlen, Access.run_bind, hset, Option.bind_some, Access.run_bind, hset, Option.bind_some, Access.run_bind,
    l.question, Option.bind_some]
  rcases l.target_split with ⟨hquery, hpath, -⟩ | ⟨q, hquery, htarget, -⟩
  · simp only [hquery, hpath, Option.map_none]
    rw [Access.run_bind, hset, Option.bind_some]
    rfl
  · have htext : l.text ++ post = l.front ++ l.path ++ (ch '?' :: q ++ l.back post) := by
      rw [l.text_target, htarget]
      simp only [List.append_assoc]
    have hpath : ((l.front.length + l.path.length : Nat) : Int) - l.front.length = l.path.length := by omega
    have hstop := congrArg List.length htarget
    rw [List.length_append, List.length_cons] at hstop
    have hrest : ((l.front.length + l.target.length : Nat) : Int) -
        (((l.front.length + l.path.length : Nat) : Int) + 1) = q.length := by omega
    simp only [hquery, Option.map_some, hpath]
    rw [Access.run_bind, htext, httpSetStr_run, Option.bind_some, Access.run_pure, hrest]
    rfl

end

/-! ## The parts of the line -/

/-- What `_http_parse_args` is called with: nothing without a query, else the bytes of the query. -/
def Passes (m : Memory Byte) : Option (List Byte) → Option (Int × Int) → Prop
  | none, none => True
  | some q, some (tmp, n) => n = q.length ∧ (Access.slice tmp q.length).run m = some q
  | _, _ => False

/-- What `parse_method` should make of a line when it comes to the arguments. A text of more
than 8192 bytes is stored undecoded, as `http_set_str` does it for every string. -/
structure Decomposed (l : MethodLine) (tmpFlag : DecodeFlag) (m : Memory Byte) (p : MethodParse) : Prop where
  method : p.info.logic.method = registeredMethod l.method
  rawUrl : p.info.str.rawUrl = { p := some l.target, nul := l.target.length }
  url : p.info.str.url = ({} : XStr).store tmpFlag l.path
  args : Passes m l.query p.args

/-- `parse_method` decomposes the line as it stands. -/
def Decomposes (l : MethodLine) (post : List Byte) (info : Http) : Prop :=
  ∃ p, (parseMethodUrl 0 l.text.length info).run (Memory.ofList (l.text ++ post)) = some p ∧
    (parseMethod 0 l.text.length info).run (Memory.ofList (l.text ++ post)) =
      p.finish.run (Memory.ofList (l.text ++ post)) ∧
    Decomposed l info.tmpFlag (Memory.ofList (l.text ++ post)) p

/-- The bytes behind the `?` are passed. -/
theorem passes_query (l : MethodLine) (post : List Byte) : Passes (Memory.ofList (l.text ++ post)) l.query
    (l.query.map fun q => (((l.front.length + l.path.length : Nat) : Int) + 1, (q.length : Int))) := by
  rcases l.target_split with ⟨hquery, -, -⟩ | ⟨q, hquery, htarget, -⟩
  · rw [hquery]
    trivial
  · have htext : l.text ++ post = (l.front ++ l.path ++ [ch '?']) ++ q ++ l.back post := by
      rw [l.text_target, htarget]
      simp
    have hat : ((l.front.length + l.path.length : Nat) : Int) + 1 =
        ((l.front ++ l.path ++ [ch '?']).length : Nat) := by
      simp only [List.length_append, List.length_singleton]
      rfl
    rw [hquery]
    refine ⟨rfl, ?_⟩
    rw [htext, hat]
    exact Access.slice_ofList _ _ _

/-- **When a request line is decomposed as it stands.** `parse_method` stores the registered
method, the target, and the decoded text in front of its first `?`, and calls the argument
parser on the bytes behind that `?`, exactly when the target neither starts nor ends with a
colon and the method is not `copy`. -/
theorem methodLine_iff (l : MethodLine) (post : List Byte) {info : Http} (hraw : info.str.rawUrl = {})
    (hurl : info.str.url = {}) :
    Decomposes l post info ↔ l.Regular := by
  rw [Decomposes, parseMethod_run, parseMethodUrl_method]
  constructor
  · rintro ⟨p, hrun, -, hdec⟩
    obtain ⟨hstored, hlogic⟩ := httpMyparseMethodUrl_raw hrun
    have hmethod := hdec.method
    rw [hlogic] at hmethod
    have hstrip : stripText l.target = l.target := by
      apply @store_raw_some {} rfl
      rw [← hraw]
      exact congrArg XStr.p (hstored.symm.trans hdec.rawUrl)
    obtain ⟨hfront, hback⟩ := l.target_strip.mp hstrip
    exact ⟨hfront, hback, storedMethod_eq_registered.mp hmethod⟩
  · intro hreg
    have hstrip := l.target_strip.mpr ⟨hreg.front, hreg.back⟩
    have hrun := @httpMyparseMethodUrl_whole l post
      { info with logic := { info.logic with method := storedMethod l.method } } hstrip
    refine ⟨_, hrun, by rw [hrun]; rfl, ?_, ?_, ?_, passes_query l post⟩
    · exact storedMethod_eq_registered.mpr hreg.method
    · exact store_raw rfl l.target_ne
    · exact congrArg (fun x : XStr => x.store info.tmpFlag l.path) hurl

/-- `GET /a?b=c HTTP/1.1`. -/
def getMethodLine : MethodLine where
  method := str "GET"
  target := str "/a?b=c"
  major := ch '1'
  minor := ch '1'
  method_ne := by decide
  method_token := forall_text (by decide)
  target_ne := by decide
  target_plain := forall_text (by decide)
  digits := by decide

theorem methodLine_get : Decomposes getMethodLine [] {} :=
  (@methodLine_iff getMethodLine [] {} rfl rfl).mpr ⟨by decide, by decide, by decide⟩

/-- `COPY /a HTTP/1.1`. -/
def copyLine : MethodLine where
  method := str "COPY"
  target := str "/a"
  major := ch '1'
  minor := ch '1'
  method_ne := by decide
  method_token := forall_text (by decide)
  target_ne := by decide
  target_plain := forall_text (by decide)
  digits := by decide

/-- `COPY` is stored as `connect`. -/
theorem copy_stored : ¬ Decomposes copyLine [] {} := by
  rintro ⟨p, hrun, -, hdec⟩
  rw [parseMethodUrl_method] at hrun
  have hlogic := (httpMyparseMethodUrl_raw hrun).2
  have hstored : storedMethod copyLine.method = registeredMethod copyLine.method := by
    have hmethod := hdec.method
    rwa [hlogic] at hmethod
  revert hstored
  decide

end WafProxy
