import Mathlib.Data.List.TakeWhile
import WafProxy.Http.StoredText

/-
  Splitting arguments — `_http_parse_args` of http_arg.c

  A piece is what stands between two `&`. The parser keeps the start and the
  length of a stretch; a second `=` adds to the length without starting a
  stretch, so that a value that begins with `=` is stored from its first other
  byte on, and with as many bytes behind the piece as it began with `=`.

  What is proved:
    1. What the bytes of a name and of a value do to the stretch (`loop_name`,
       `loop_value`), and from it what one piece leaves (`loop_piece`).
    2. `finish_pieces` — what a whole text leaves in the table, by induction on
       its pieces; `storedPieces` says what is stored for each.
    3. `httpParseArgs_pieces` — every piece is recorded with its name and its
       value exactly when no value begins with `=`.
-/

namespace WafProxy
open Lib

/-! ## Pieces -/

/-- The pieces of a text. -/
def pieces (d : List Byte) : List (List Byte) := d.splitOn (ch '&')

/-- The bytes in front of and behind the first `=` of a piece. -/
def pieceName (p : List Byte) : List Byte := p.takeWhile (· ≠ ch '=')
def pieceValue (p : List Byte) : List Byte := (p.dropWhile (· ≠ ch '=')).tail

/-- A text without the NULs the parser appends. -/
def shownText (x : XStr) : List Byte := (x.p.getD []).filter (· ≠ 0)

/-- The name and the value of a recorded argument. -/
def HttpArg.shown (item : HttpArg) : List Byte × List Byte := (shownText item.name, shownText item.value)

/-- What stands behind a piece, by the pieces that follow. -/
def behind (ps : List (List Byte)) : List Byte := ps.flatMap fun q => ch '&' :: q

/-- A byte that only becomes part of a stretch. -/
structure Ordinary (c : Byte) : Prop where
  percent : c ≠ ch '%'
  plus : c ≠ ch '+'
  backslash : c ≠ ch '\\'
  amp : c ≠ ch '&'

theorem pieces_spec (d : List Byte) : ∃ p ps, pieces d = p :: ps ∧ d = p ++ behind ps := by
  induction d with
  | nil => exact ⟨[], [], rfl, rfl⟩
  | cons c d ih =>
    obtain ⟨p, ps, hp, hd⟩ := ih
    unfold pieces at *
    rw [List.splitOn_cons_eq_if_modifyHead, hp]
    by_cases hc : c = ch '&'
    · subst hc
      refine ⟨[], p :: ps, by simp, ?_⟩
      rw [hd]
      simp [behind]
    · refine ⟨c :: p, ps, by simp [hc], ?_⟩
      rw [hd, List.cons_append]

theorem piece_no_amp {d : List Byte} : ∀ p ∈ pieces d, ch '&' ∉ p := by
  induction d with
  | nil =>
    intro p hp
    rw [List.mem_singleton.mp hp]
    exact List.not_mem_nil
  | cons c d ih =>
    intro q hq
    unfold pieces at *
    obtain ⟨p, ps, hp, -⟩ := pieces_spec d
    unfold pieces at hp
    rw [List.splitOn_cons_eq_if_modifyHead, hp] at hq
    rw [hp] at ih
    by_cases hc : c = ch '&'
    · simp only [hc, BEq.rfl, if_true] at hq
      rcases List.mem_cons.mp hq with rfl | hq
      · exact List.not_mem_nil
      · exact ih q hq
    · have hne : (c == ch '&') = false := by simpa using hc
      simp only [hne, Bool.false_eq_true, if_false, List.modifyHead_cons] at hq
      rcases List.mem_cons.mp hq with rfl | hq
      · intro hmem
        rcases List.mem_cons.mp hmem with heq | hmem
        · exact hc heq.symm
        · exact ih p List.mem_cons_self hmem
      · exact ih q (List.mem_cons_of_mem _ hq)

/-- Every byte of a piece is a byte of the text. -/
theorem mem_piece {d : List Byte} {c : Byte} : ∀ p ∈ pieces d, c ∈ p → c ∈ d := by
  obtain ⟨p, ps, hp, hd⟩ := pieces_spec d
  intro q hq hc
  rw [hp] at hq
  rw [hd]
  rcases List.mem_cons.mp hq with rfl | hq
  · exact List.mem_append_left _ hc
  · exact List.mem_append_right _ (List.mem_flatMap.mpr ⟨q, hq, List.mem_cons_of_mem _ hc⟩)

/-! ## The table while a piece is read -/

/-- The finished arguments, and the one `cur` points to. -/
def tableWith (done : List HttpArg) (item : HttpArg) : HttpArgCtrl where
  cur := some done.length
  maxNum := 32
  arg := done ++ [item]

@[simp] theorem tableWith_cur (done : List HttpArg) (item : HttpArg) :
    (tableWith done item).cur = some done.length := rfl

@[simp] theorem tableWith_item (done : List HttpArg) (item : HttpArg) :
    (tableWith done item).item = some item := by
  show (done ++ [item])[done.length]? = some item
  rw [List.getElem?_append_right (Nat.le_refl _), Nat.sub_self]
  rfl

@[simp] theorem tableWith_onCur (done : List HttpArg) (item : HttpArg) (f : HttpArg → HttpArg) :
    (tableWith done item).onCur f = tableWith done (f item) := by
  have harg : (done ++ [item]).modify done.length f = done ++ [f item] := by
    rw [List.modify_eq_set_getElem?, List.getElem?_append_right (Nat.le_refl _), Nat.sub_self]
    simp
  unfold HttpArgCtrl.onCur tableWith
  simp only [harg]

theorem tableWith_empty {done : List HttpArg} (item : HttpArg) (h : done.length + 1 < 32) :
    httpGetEmptyArg (tableWith done item) = tableWith (done ++ [item]) {} := by
  have hroom : ¬ 32 ≤ (done ++ [item]).length := by
    rw [List.length_append, List.length_singleton]
    omega
  unfold httpGetEmptyArg
  rw [if_neg (show ¬ (tableWith done item).maxNum ≤ (tableWith done item).arg.length from hroom)]
  rfl

/-- With no flag set, `http_append_arg` appends and nothing else. -/
theorem tableWith_append {done : List HttpArg} {item item' : HttpArg} {value : List Byte}
    (happend : item.append value = some item') (hflag : item'.decodeFlag = {}) (hne : value ≠ []) :
    httpAppendArg value (tableWith done item) = some (tableWith done item') := by
  have hdecode : item'.decode = item' := by
    rw [HttpArg.decode, hflag]
    rfl
  rw [httpAppendArg, if_neg hne, tableWith_item]
  simp only [happend, Option.map_some, tableWith_onCur, hdecode]

/-- A stored text. -/
def XStr.text (l : List Byte) : XStr := { p := some l, nul := l.length }

/-! ## The bytes of a piece -/

section
variable {m : Memory Byte} {c : Byte} {begin : Int} {s : ArgScan}

theorem loop_cons {data : List Byte} {s' : ArgScan}
    (hbyte : (httpParseArgsByte true begin c s).run m = some s') (hcur : s'.arg.cur ≠ none) :
    (httpParseArgsLoop true (c :: data) begin s).run m =
      (httpParseArgsLoop true data (begin + 1) s').run m := by
  rw [httpParseArgsLoop, Access.run_bind, hbyte, Option.bind_some, if_neg hcur]

theorem byte_ordinary (h : Ordinary c) (heq : c ≠ ch '=') :
    (httpParseArgsByte true begin c s).run m = some (s.extend true begin) := by
  unfold httpParseArgsByte
  rw [if_neg fun hc => hc.elim h.percent h.plus, if_neg h.backslash, if_neg h.amp, if_neg heq]
  rfl

/-- The `=` in front of a value. -/
theorem byte_firstEq {s1 s2 : ArgScan} (hflag : s.arg.item.map HttpArg.argFlag ≠ some true)
    (h1 : s.appendTmp.run m = some s1)
    (h2 : (ArgScan.appendNul { s1 with tmpData := none, tmpLen := 0 }).run m = some s2) :
    (httpParseArgsByte true begin (ch '=') s).run m =
      some (s2.onCur fun i => { i with argFlag := true }) := by
  unfold httpParseArgsByte
  rw [if_neg (by decide), if_neg (by decide), if_neg (by decide), if_pos rfl, if_pos hflag,
    Access.run_bind, h1, Option.bind_some, Access.run_bind, h2, Option.bind_some]
  rfl

/-- Every other `=`. -/
theorem byte_nextEq (hflag : s.arg.item.map HttpArg.argFlag = some true) :
    (httpParseArgsByte true begin (ch '=') s).run m = some { s with tmpLen := s.tmpLen + 1 } := by
  unfold httpParseArgsByte
  rw [if_neg (by decide), if_neg (by decide), if_neg (by decide), if_pos rfl,
    if_neg (not_not.mpr hflag)]
  rfl

/-- The bytes of a name start the stretch and lengthen it. -/
theorem loop_name (m : Memory Byte) (data : List Byte) : ∀ (n : List Byte) (begin : Int) (s : ArgScan),
    (∀ c ∈ n, Ordinary c) → ch '=' ∉ n → s.arg.cur ≠ none →
    ∃ s', (httpParseArgsLoop true (n ++ data) begin s).run m =
        (httpParseArgsLoop true data (begin + n.length) s').run m ∧
      s'.arg = s.arg ∧ s'.httpInt.urlArgCnt = s.httpInt.urlArgCnt ∧
      s'.tmpData = (if n = [] then s.tmpData else some (s.tmpData.getD begin)) ∧
      s'.tmpLen = s.tmpLen + n.length := by
  intro n
  induction n with
  | nil =>
    intro begin s _ _ _
    exact ⟨s, by simp, rfl, rfl, rfl, rfl⟩
  | cons c n ih =>
    intro begin s hord heq hcur
    obtain ⟨hc, hn⟩ := List.forall_mem_cons.mp hord
    have hne : c ≠ ch '=' := fun h => heq (h ▸ List.mem_cons_self)
    obtain ⟨s', hrest, harg, hcnt, hdata, hlen⟩ := ih (begin + 1) (s.extend true begin) hn
      (fun hmem => heq (List.mem_cons_of_mem _ hmem)) hcur
    refine ⟨s', ?_, harg, hcnt, ?_, ?_⟩
    · rw [List.cons_append, loop_cons (byte_ordinary hc hne) hcur, hrest]
      have hbegin : begin + 1 + (n.length : Int) = begin + ((c :: n).length : Int) := by
        rw [List.length_cons]
        omega
      rw [hbegin]
    · rw [hdata, if_neg (List.cons_ne_nil c n)]
      cases n <;> rfl
    · rw [hlen, List.length_cons]
      show s.tmpLen + 1 + n.length = s.tmpLen + (n.length + 1)
      omega

/-- Where the stretch of a value starts: at its first byte other than `=`. -/
def valueStart (v : List Byte) (begin : Int) : Option Int :=
  if v.dropWhile (· = ch '=') = [] then none else some (begin + (v.takeWhile (· = ch '=')).length)

theorem valueStart_eq (v : List Byte) (begin : Int) :
    valueStart (ch '=' :: v) begin = valueStart v (begin + 1) := by
  unfold valueStart
  simp only [List.dropWhile_cons, List.takeWhile_cons, decide_true, if_true, List.length_cons]
  congr 2
  omega

theorem valueStart_other {c : Byte} (h : c ≠ ch '=') (v : List Byte) (begin : Int) :
    valueStart (c :: v) begin = some begin := by
  simp [valueStart, h]

/-- The bytes of a value: each lengthens the stretch, an `=` starts none. -/
theorem loop_value (m : Memory Byte) (data : List Byte) : ∀ (v : List Byte) (begin : Int) (s : ArgScan),
    (∀ c ∈ v, Ordinary c) → s.arg.item.map HttpArg.argFlag = some true → s.arg.cur ≠ none →
    ∃ s', (httpParseArgsLoop true (v ++ data) begin s).run m =
        (httpParseArgsLoop true data (begin + v.length) s').run m ∧
      s'.arg = s.arg ∧ s'.httpInt.urlArgCnt = s.httpInt.urlArgCnt ∧
      s'.tmpData = s.tmpData.or (valueStart v begin) ∧ s'.tmpLen = s.tmpLen + v.length := by
  intro v
  induction v with
  | nil =>
    intro begin s _ _ _
    exact ⟨s, by simp, rfl, rfl, by simp [valueStart], rfl⟩
  | cons c v ih =>
    intro begin s hord hflag hcur
    obtain ⟨hc, hv⟩ := List.forall_mem_cons.mp hord
    have hbegin : begin + 1 + (v.length : Int) = begin + ((c :: v).length : Int) := by
      rw [List.length_cons]
      omega
    have hsucc : s.tmpLen + 1 + v.length = s.tmpLen + (c :: v).length := by
      rw [List.length_cons]
      omega
    by_cases heq : c = ch '='
    · subst heq
      obtain ⟨s', hrest, harg, hcnt, hdata, hlen⟩ :=
        ih (begin + 1) { s with tmpLen := s.tmpLen + 1 } hv hflag hcur
      refine ⟨s', ?_, harg, hcnt, ?_, hlen.trans hsucc⟩
      · rw [List.cons_append, loop_cons (byte_nextEq hflag) hcur, hrest, hbegin]
      · rw [hdata, valueStart_eq]
    · obtain ⟨s', hrest, harg, hcnt, hdata, hlen⟩ := ih (begin + 1) (s.extend true begin) hv hflag hcur
      refine ⟨s', ?_, harg, hcnt, ?_, hlen.trans hsucc⟩
      · rw [List.cons_append, loop_cons (byte_ordinary hc heq) hcur, hrest, hbegin]
      · rw [hdata, valueStart_other heq]
        show (some (s.tmpData.getD begin)).or _ = s.tmpData.or (some begin)
        cases s.tmpData <;> rfl

theorem appendTmp_none (hnone : s.tmpData = none) : s.appendTmp.run m = some s := by
  unfold ArgScan.appendTmp
  rw [hnone]
  rfl

theorem appendTmp_some {a : Int} {value : List Byte} {arg : HttpArgCtrl} (hdata : s.tmpData = some a)
    (hslice : (Access.slice a s.tmpLen).run m = some value) (harg : httpAppendArg value s.arg = some arg) :
    s.appendTmp.run m = some { s with arg := arg } := by
  unfold ArgScan.appendTmp
  simp only [hdata, Access.run_bind, hslice, Option.bind_some, harg]
  rfl

theorem appendNul_some {arg : HttpArgCtrl} (harg : httpAppendArg [0] s.arg = some arg) :
    s.appendNul.run m = some { s with arg := arg } := by
  unfold ArgScan.appendNul
  simp only [harg]
  rfl

end

/-! ## One piece -/

/-- What is stored for the value of a piece with `rest` behind it: as many bytes as the value
has, from its first byte other than `=` on; `none` when they are not all there. -/
def storedValue (p rest : List Byte) : Option (List Byte) :=
  let v := pieceValue p
  let w := v.dropWhile (· = ch '=')
  if w = [] then some []
  else if v.length ≤ (w ++ rest).length then some ((w ++ rest).take v.length)
  else none

/-- The argument of a piece whose value was stored as `val`. -/
def pieceItem (p val : List Byte) : HttpArg :=
  if ch '=' ∈ p then
    { name := .text (pieceName p ++ [0]), value := if val = [] then {} else .text val, argFlag := true }
  else { name := if p = [] then {} else .text p }

theorem text_append {l r : List Byte} (h : l.length + r.length < APPEND_MAX) :
    (XStr.text l).append r = some (XStr.text (l ++ r)) := by
  unfold XStr.text XStr.append
  simp only [if_pos h, List.length_append]

theorem empty_append {l : List Byte} (h : l.length ≤ APPEND_MAX) :
    ({} : XStr).append l = some (XStr.text l) := by
  unfold XStr.append
  simp only [if_neg (Nat.not_lt.mpr h)]
  rfl

/-- A piece with an `=` in it. -/
theorem piece_split {p : List Byte} (h : ch '=' ∈ p) :
    p = pieceName p ++ ch '=' :: pieceValue p ∧ ch '=' ∉ pieceName p := by
  unfold pieceName pieceValue
  have hmem : ch '=' ∉ p.takeWhile (· ≠ ch '=') := by
    intro hin
    simpa using List.all_eq_true.mp List.all_takeWhile _ hin
  refine ⟨?_, hmem⟩
  have hsplit := List.takeWhile_append_dropWhile (p := (· ≠ ch '=')) (l := p)
  cases hdrop : p.dropWhile (· ≠ ch '=') with
  | nil =>
    rw [hdrop, List.append_nil] at hsplit
    exact absurd h (hsplit ▸ hmem)
  | cons c v =>
    have hc : c = ch '=' := by
      have hhead := List.head?_dropWhile_not (· ≠ ch '=') p
      rw [hdrop] at hhead
      simpa using hhead
    rw [hdrop, hc] at hsplit
    exact hsplit.symm

theorem piece_whole {p : List Byte} (h : ch '=' ∉ p) : pieceName p = p ∧ pieceValue p = [] := by
  have hall : ∀ c ∈ p, (decide (c ≠ ch '=')) = true := fun c hc => by
    simpa using fun heq : c = ch '=' => h (heq ▸ hc)
  unfold pieceName pieceValue
  rw [List.takeWhile_eq_self_iff.mpr hall, List.dropWhile_eq_nil_iff.mpr hall]
  exact ⟨rfl, rfl⟩

/-- Where the name of a piece ends. -/
theorem piece_parts {n v : List Byte} (h : ch '=' ∉ n) :
    pieceName (n ++ ch '=' :: v) = n ∧ pieceValue (n ++ ch '=' :: v) = v := by
  have hall : ∀ c ∈ n, decide (c ≠ ch '=') = true := fun c hc => decide_eq_true fun heq => h (heq ▸ hc)
  constructor
  · rw [pieceName, List.takeWhile_append_of_pos hall, List.takeWhile_cons, if_neg (by decide), List.append_nil]
  · rw [pieceValue, List.dropWhile_append_of_pos hall, List.dropWhile_cons, if_neg (by decide), List.tail_cons]

theorem slice_at (front l rest : List Byte) :
    (Access.slice (front.length : Int) l.length).run (Memory.ofList (front ++ (l ++ rest))) = some l := by
  have hs := Access.slice_ofList front l rest
  rw [List.append_assoc] at hs
  exact hs

/-- The name of a new argument is stored whole. -/
theorem name_append {n : List Byte} (h : n.length < 4000) :
    HttpArg.append {} n = some { name := .text n } := by
  have hmax : APPEND_MAX = 4096 := rfl
  unfold HttpArg.append
  simp only [Bool.false_eq_true, if_false]
  rw [empty_append (by omega)]
  rfl

/-- So is a value. -/
theorem value_append {item : HttpArg} {v : List Byte} (hflag : item.argFlag = true) (hvalue : item.value = {})
    (h : v.length ≤ APPEND_MAX) : item.append v = some { item with value := .text v } := by
  unfold HttpArg.append
  rw [if_pos hflag, hvalue, empty_append h]
  rfl

/-- The state behind the first `=` of a piece. -/
theorem loop_firstEq (front n rest data : List Byte) {done : List HttpArg} {s : ArgScan}
    (hord : ∀ c ∈ n, Ordinary c) (heq : ch '=' ∉ n) (hlen : n.length < 4000)
    (harg : s.arg = tableWith done {}) (htmp : s.tmpData = none) (htmpLen : s.tmpLen = 0) :
    ∃ s1, (httpParseArgsLoop true (n ++ ch '=' :: data) front.length s).run
          (Memory.ofList (front ++ (n ++ rest))) =
        (httpParseArgsLoop true data ((front.length : Int) + n.length + 1) s1).run
          (Memory.ofList (front ++ (n ++ rest))) ∧
      s1.arg = tableWith done { name := .text (n ++ [0]), argFlag := true } ∧
      s1.tmpData = none ∧ s1.tmpLen = 0 ∧ s1.httpInt.urlArgCnt = s.httpInt.urlArgCnt := by
  have hmax : APPEND_MAX = 4096 := rfl
  have hcur : s.arg.cur ≠ none := by
    rw [harg]
    exact Option.some_ne_none _
  obtain ⟨s', hrun, harg', hcnt, hdata, htmpLen'⟩ := loop_name (Memory.ofList (front ++ (n ++ rest)))
    (ch '=' :: data) n front.length s hord heq hcur
  rw [harg] at harg'
  -- the name is appended, then a NUL
  obtain ⟨item, happend, hnul⟩ : ∃ item,
      s'.appendTmp.run (Memory.ofList (front ++ (n ++ rest))) = some { s' with arg := tableWith done item } ∧
      item.append [0] = some { name := .text (n ++ [0]) } := by
    by_cases hnil : n = []
    · refine ⟨{}, ?_, by rw [hnil]; rfl⟩
      rw [if_pos hnil, htmp] at hdata
      rw [appendTmp_none hdata, ← harg']
    · refine ⟨{ name := .text n }, ?_, ?_⟩
      · rw [if_neg hnil, htmp] at hdata
        have hslice : (Access.slice (front.length : Int) s'.tmpLen).run
            (Memory.ofList (front ++ (n ++ rest))) = some n := by
          rw [htmpLen', htmpLen, Nat.zero_add]
          exact slice_at front n rest
        apply appendTmp_some hdata hslice
        rw [harg']
        exact tableWith_append (name_append hlen) rfl hnil
      · unfold HttpArg.append
        simp only [Bool.false_eq_true, if_false]
        rw [text_append (by rw [List.length_singleton]; omega)]
        rfl
  have hflag : s'.arg.item.map HttpArg.argFlag ≠ some true := by
    rw [harg', tableWith_item]
    decide
  have hbyte := @byte_firstEq _ ((front.length : Int) + n.length) _ _ _ hflag happend
    (appendNul_some (tableWith_append hnul rfl (List.cons_ne_nil _ _)))
  refine ⟨_, hrun.trans (loop_cons hbyte ?_), ?_, rfl, rfl, hcnt⟩
  · simp [ArgScan.onCur]
  · simp [ArgScan.onCur]

/-- What is read for a value, from its first byte other than `=` on. -/
theorem slice_value (front v rest : List Byte) :
    (Access.slice ((front.length : Int) + (v.takeWhile (· = ch '=')).length) v.length).run
      (Memory.ofList (front ++ (v ++ rest))) =
    if v.length ≤ (v.dropWhile (· = ch '=') ++ rest).length then
      some ((v.dropWhile (· = ch '=') ++ rest).take v.length)
    else none := by
  have hdrop : (front ++ (v ++ rest)).drop (front.length + (v.takeWhile (· = ch '=')).length) =
      v.dropWhile (· = ch '=') ++ rest := by
    have hsplit := List.takeWhile_append_dropWhile (p := (· = ch '=')) (l := v)
    generalize v.takeWhile (· = ch '=') = t at hsplit ⊢
    generalize v.dropWhile (· = ch '=') = w at hsplit ⊢
    subst hsplit
    rw [List.append_assoc, ← List.append_assoc front, ← List.length_append]
    exact List.drop_left
  have hrun := Access.slice_run (front ++ (v ++ rest)) (front.length + (v.takeWhile (· = ch '=')).length)
    v.length
  rw [hdrop] at hrun
  exact hrun

/-- The last stretch of a piece with a value. -/
theorem appendTmp_value {front p rest : List Byte} {done : List HttpArg} {s : ArgScan} (heq : ch '=' ∈ p)
    (hlen : p.length < 4000)
    (harg : s.arg = tableWith done { name := .text (pieceName p ++ [0]), argFlag := true })
    (htmp : s.tmpData = valueStart (pieceValue p) ((front.length : Int) + (pieceName p).length + 1))
    (htmpLen : s.tmpLen = (pieceValue p).length) :
    s.appendTmp.run (Memory.ofList (front ++ (p ++ rest))) =
      (storedValue p rest).map fun val => { s with arg := tableWith done (pieceItem p val) } := by
  have hmax : APPEND_MAX = 4096 := rfl
  obtain ⟨hp, -⟩ := piece_split heq
  have hlens := congrArg List.length hp
  rw [List.length_append, List.length_cons] at hlens
  rw [storedValue]
  unfold valueStart at htmp
  by_cases hw : (pieceValue p).dropWhile (· = ch '=') = []
  · rw [if_pos hw] at htmp ⊢
    rw [appendTmp_none htmp, Option.map_some, pieceItem, if_pos heq, if_pos rfl, ← harg]
  · rw [if_neg hw] at htmp ⊢
    have hread := slice_value (front ++ (pieceName p ++ [ch '='])) (pieceValue p) rest
    have hmem : front ++ (pieceName p ++ [ch '=']) ++ (pieceValue p ++ rest) = front ++ (p ++ rest) := by
      have happ : pieceName p ++ [ch '='] ++ pieceValue p = p := by
        rw [List.append_assoc]
        exact hp.symm
      rw [List.append_assoc, ← List.append_assoc _ (pieceValue p), happ]
    have haddr : ((front ++ (pieceName p ++ [ch '='])).length : Int) =
        (front.length : Int) + (pieceName p).length + 1 := by
      simp only [List.length_append, List.length_singleton]
      omega
    rw [hmem, haddr, ← htmpLen] at hread
    have hv : (pieceValue p).length ≠ 0 := by
      intro hzero
      rw [List.length_eq_zero_iff.mp hzero] at hw
      exact hw rfl
    generalize (pieceValue p).dropWhile (· = ch '=') = w at hw hread ⊢
    by_cases hin : (pieceValue p).length ≤ (w ++ rest).length
    · have hne : (w ++ rest).take (pieceValue p).length ≠ [] := by
        intro hnil
        rcases List.take_eq_nil_iff.mp hnil with hzero | happ
        · exact hv hzero
        · exact hw (List.append_eq_nil_iff.mp happ).1
      have hslice : (Access.slice ((front.length : Int) + (pieceName p).length + 1 +
          ((pieceValue p).takeWhile (· = ch '=')).length) s.tmpLen).run (Memory.ofList (front ++ (p ++ rest))) =
          some ((w ++ rest).take (pieceValue p).length) := by
        rw [hread, htmpLen, if_pos hin]
      rw [if_pos hin, Option.map_some, pieceItem, if_pos heq, if_neg hne]
      apply appendTmp_some htmp hslice
      rw [harg]
      have hbound : ((w ++ rest).take (pieceValue p).length).length ≤ APPEND_MAX := by
        rw [List.length_take]
        omega
      have happend := @value_append { name := .text (pieceName p ++ [0]), argFlag := true } _ rfl rfl hbound
      exact tableWith_append happend rfl hne
    · have hslice : (Access.slice ((front.length : Int) + (pieceName p).length + 1 +
          ((pieceValue p).takeWhile (· = ch '=')).length) s.tmpLen).run (Memory.ofList (front ++ (p ++ rest))) =
          none := by
        rw [hread, htmpLen, if_neg hin]
      rw [if_neg hin]
      unfold ArgScan.appendTmp
      simp only [htmp, Access.run_bind, hslice]
      rfl

/-- The state behind the bytes of a piece, before its last stretch is appended. -/
theorem loop_piece (front p rest data : List Byte) {done : List HttpArg} {s : ArgScan}
    (hord : ∀ c ∈ p, Ordinary c) (hlen : p.length < 4000) (harg : s.arg = tableWith done {})
    (htmp : s.tmpData = none) (htmpLen : s.tmpLen = 0) :
    ∃ s1, (httpParseArgsLoop true (p ++ data) front.length s).run (Memory.ofList (front ++ (p ++ rest))) =
        (httpParseArgsLoop true data (front.length + p.length) s1).run
          (Memory.ofList (front ++ (p ++ rest))) ∧
      s1.arg.cur ≠ none ∧ s1.httpInt.urlArgCnt = s.httpInt.urlArgCnt ∧
      s1.appendTmp.run (Memory.ofList (front ++ (p ++ rest))) =
        (storedValue p rest).map fun val => { s1 with arg := tableWith done (pieceItem p val) } := by
  have hmax : APPEND_MAX = 4096 := rfl
  by_cases heq : ch '=' ∈ p
  · obtain ⟨hp, hname⟩ := piece_split heq
    have hlens := congrArg List.length hp
    rw [List.length_append, List.length_cons] at hlens
    have hordn : ∀ c ∈ pieceName p, Ordinary c := fun c hc => hord c (hp ▸ List.mem_append_left _ hc)
    have hordv : ∀ c ∈ pieceValue p, Ordinary c := fun c hc =>
      hord c (hp ▸ List.mem_append_right _ (List.mem_cons_of_mem _ hc))
    obtain ⟨s1, hrun1, harg1, htmp1, htmpLen1, hcnt1⟩ := loop_firstEq front (pieceName p)
      (ch '=' :: pieceValue p ++ rest) (pieceValue p ++ data) hordn hname (by omega) harg htmp htmpLen
    have hflag1 : s1.arg.item.map HttpArg.argFlag = some true := by
      rw [harg1, tableWith_item]
      rfl
    have hcur1 : s1.arg.cur ≠ none := by
      rw [harg1]
      exact Option.some_ne_none _
    have hmem : front ++ (pieceName p ++ (ch '=' :: pieceValue p ++ rest)) = front ++ (p ++ rest) := by
      rw [← List.append_assoc (pieceName p), ← hp]
    have hdata : pieceName p ++ ch '=' :: (pieceValue p ++ data) = p ++ data := by
      rw [← List.cons_append, ← List.append_assoc, ← hp]
    rw [hmem, hdata] at hrun1
    obtain ⟨s2, hrun2, harg2, hcnt2, htmp2, htmpLen2⟩ := loop_value (Memory.ofList (front ++ (p ++ rest)))
      data (pieceValue p) ((front.length : Int) + (pieceName p).length + 1) s1 hordv hflag1 hcur1
    have hbegin : (front.length : Int) + (pieceName p).length + 1 + (pieceValue p).length =
        front.length + p.length := by
      omega
    refine ⟨s2, ?_, by rw [harg2]; exact hcur1, hcnt2.trans hcnt1, ?_⟩
    · rw [hrun1, hrun2, hbegin]
    rw [harg1] at harg2
    rw [htmp1, Option.none_or] at htmp2
    rw [htmpLen1, Nat.zero_add] at htmpLen2
    exact appendTmp_value heq hlen harg2 htmp2 htmpLen2
  · -- no `=`: the whole piece is the name
    obtain ⟨hname, hvalue⟩ := piece_whole heq
    have hcur : s.arg.cur ≠ none := by
      rw [harg]
      exact Option.some_ne_none _
    obtain ⟨s1, hrun, harg1, hcnt, hdata, hlen1⟩ := loop_name (Memory.ofList (front ++ (p ++ rest))) data p
      front.length s hord heq hcur
    refine ⟨s1, hrun, by rw [harg1]; exact hcur, hcnt, ?_⟩
    rw [harg] at harg1
    have hstored : storedValue p rest = some [] := by
      rw [storedValue, hvalue]
      rfl
    rw [hstored, Option.map_some, pieceItem, if_neg heq]
    by_cases hnil : p = []
    · rw [if_pos hnil, htmp] at hdata
      rw [appendTmp_none hdata, if_pos hnil, ← harg1]
    · rw [if_neg hnil, htmp] at hdata
      rw [if_neg hnil]
      have hslice : (Access.slice (front.length : Int) s1.tmpLen).run
          (Memory.ofList (front ++ (p ++ rest))) = some p := by
        rw [hlen1, htmpLen, Nat.zero_add]
        exact slice_at front p rest
      apply appendTmp_some hdata hslice
      rw [harg1]
      exact tableWith_append (name_append hlen) rfl hnil

/-! ## What a piece shows -/

theorem shownText_text {l : List Byte} (h : 0 ∉ l) : shownText (.text l) = l := by
  apply List.filter_eq_self.mpr
  intro c hc
  have hne : c ≠ 0 := fun heq => h (heq ▸ hc)
  simpa using hne

theorem shownText_text_nul (l : List Byte) : shownText (.text (l ++ [0])) = shownText (.text l) := by
  show (l ++ [0]).filter _ = l.filter _
  rw [List.filter_append]
  simp

theorem storedValue_le {p rest val : List Byte} (h : storedValue p rest = some val) :
    val.length ≤ (pieceValue p).length ∧ (0 ∉ p → 0 ∉ rest → 0 ∉ val) := by
  unfold storedValue at h
  simp only at h
  split at h
  · cases h
    exact ⟨Nat.zero_le _, fun _ _ => List.not_mem_nil⟩
  · split at h
    · cases h
      refine ⟨?_, ?_⟩
      · rw [List.length_take]
        exact Nat.min_le_left _ _
      · intro hp hrest hmem
        rcases List.mem_append.mp (List.mem_of_mem_take hmem) with hw | hr
        · have hv := (List.dropWhile_suffix _).mem hw
          exact hp ((List.dropWhile_suffix _).mem (List.mem_of_mem_tail hv))
        · exact hrest hr
    · cases h

theorem pieceName_nul {p : List Byte} (h : 0 ∉ p) : 0 ∉ pieceName p := fun hmem =>
  h ((List.takeWhile_prefix _).mem hmem)

theorem pieceValue_length (p : List Byte) : (pieceValue p).length ≤ p.length :=
  Nat.le_trans (List.tail_suffix _).length_le (List.dropWhile_suffix _).length_le

theorem pieceItem_shown {p rest val : List Byte} (hp : 0 ∉ p) (hrest : 0 ∉ rest)
    (h : storedValue p rest = some val) : (pieceItem p val).shown = (pieceName p, val) := by
  have hval := (storedValue_le h).2 hp hrest
  unfold pieceItem
  by_cases heq : ch '=' ∈ p
  · rw [if_pos heq]
    have hname : shownText (.text (pieceName p ++ [0])) = pieceName p := by
      rw [shownText_text_nul, shownText_text (pieceName_nul hp)]
    have hvalue : shownText (if val = [] then {} else .text val) = val := by
      split
      next hnil => rw [hnil]; rfl
      next => exact shownText_text hval
    exact Prod.ext hname hvalue
  · obtain ⟨hname, hvalue⟩ := piece_whole heq
    have hnil : val = [] := by
      rw [storedValue, hvalue] at h
      exact (Option.some.inj h).symm
    rw [if_neg heq, hname, hnil]
    have hshown : shownText (if p = [] then {} else .text p) = p := by
      split
      next hp0 => rw [hp0]; rfl
      next => exact shownText_text hp
    exact Prod.ext hshown rfl

/-- The NUL at the end of the last argument. -/
theorem pieceItem_nul {p val : List Byte} (hp : p.length < 4000) (hval : val.length < 4000) :
    ∃ item', (pieceItem p val).append [0] = some item' ∧ item'.shown = (pieceItem p val).shown ∧
      item'.decodeFlag = {} := by
  have hmax : APPEND_MAX = 4096 := rfl
  have happend : ∀ l : List Byte, l.length < 4000 →
      (if l = [] then ({} : XStr) else .text l).append [0] = some (.text (l ++ [0])) := by
    intro l hl
    split
    next hnil => rw [hnil]; rfl
    next => exact text_append (by rw [List.length_singleton]; omega)
  have hshown : ∀ l : List Byte, shownText (.text (l ++ [0])) = shownText (if l = [] then {} else .text l) := by
    intro l
    rw [shownText_text_nul]
    split
    next hnil => rw [hnil]; rfl
    next => rfl
  unfold pieceItem
  by_cases heq : ch '=' ∈ p
  · rw [if_pos heq]
    refine ⟨{ name := .text (pieceName p ++ [0]), value := .text (val ++ [0]), argFlag := true }, ?_, ?_, rfl⟩
    · unfold HttpArg.append
      rw [if_pos rfl, happend val hval]
      rfl
    · exact Prod.ext rfl (hshown val)
  · rw [if_neg heq]
    refine ⟨{ name := .text (p ++ [0]) }, ?_, ?_, rfl⟩
    · unfold HttpArg.append
      simp only [Bool.false_eq_true, if_false]
      rw [happend p hp]
      rfl
    · exact Prod.ext (hshown p) rfl

/-! ## All pieces -/

/-- What is stored for the pieces, `p` being the first. -/
def storedPieces : List Byte → List (List Byte) → Option (List (List Byte × List Byte))
  | p, [] => (storedValue p []).map fun val => [(pieceName p, val)]
  | p, q :: qs => (storedValue p (behind (q :: qs))).bind fun val =>
      (storedPieces q qs).map fun l => (pieceName p, val) :: l

/-- The loop of `_http_parse_args` from some byte on, and what follows it. -/
def parsePieces (state : HttpState) (data : List Byte) (begin : Int) (s : ArgScan) :
    Packet.Read ArgScan := do
  let s ← httpParseArgsLoop true data begin s
  if s.arg.cur = none then pure s else httpParseArgsEnd true state s

/-- What is looked at afterwards: the recorded arguments and `url_arg_cnt`. -/
def ArgScan.outcome (s : ArgScan) : List (List Byte × List Byte) × Int :=
  (s.arg.arg.map HttpArg.shown, s.httpInt.urlArgCnt)

theorem byte_amp {m : Memory Byte} {begin : Int} {s : ArgScan} {done : List HttpArg} {item : HttpArg}
    {s1 : ArgScan} (h : s.appendTmp.run m = some s1) (harg : s1.arg = tableWith done item)
    (hroom : done.length + 1 < 32) :
    ∃ s2, (httpParseArgsByte true begin (ch '&') s).run m = some s2 ∧
      s2.arg = tableWith (done ++ [{ item with completeFlag := true }]) {} ∧ s2.tmpData = none ∧
      s2.tmpLen = 0 ∧ s2.httpInt.urlArgCnt = s1.httpInt.urlArgCnt + 1 := by
  unfold httpParseArgsByte
  rw [if_neg (by decide), if_neg (by decide), if_pos rfl, Access.run_bind, h, Option.bind_some]
  refine ⟨_, rfl, ?_, rfl, rfl, rfl⟩
  rw [harg, tableWith_onCur, tableWith_empty _ hroom, tableWith_onCur]

theorem byte_amp_none {m : Memory Byte} {begin : Int} {s : ArgScan} (h : s.appendTmp.run m = none) :
    (httpParseArgsByte true begin (ch '&') s).run m = none := by
  unfold httpParseArgsByte
  rw [if_neg (by decide), if_neg (by decide), if_pos rfl, Access.run_bind, h]
  rfl

/-- What the function does behind the last piece. -/
theorem end_piece {m : Memory Byte} {state : HttpState} {s s1 : ArgScan} {done : List HttpArg}
    {item item' : HttpArg} (h : s.appendTmp.run m = some s1) (harg : s1.arg = tableWith done item)
    (hnul : item.append [0] = some item') (hflag : item'.decodeFlag = {}) :
    ((httpParseArgsEnd true state s).run m).map ArgScan.outcome =
      some (done.map HttpArg.shown ++ [item'.shown], s1.httpInt.urlArgCnt + 1) := by
  have happend : s1.appendNul.run m = some { s1 with arg := tableWith done item' } := by
    apply appendNul_some
    rw [harg]
    exact tableWith_append hnul hflag (List.cons_ne_nil _ _)
  unfold httpParseArgsEnd
  rw [Access.run_bind, h, Option.bind_some, if_pos rfl, Access.run_bind, happend, Option.bind_some]
  simp only [Access.run_pure, Option.map_some, ArgScan.outcome, ArgScan.onCur, tableWith_onCur]
  simp [tableWith, HttpArg.shown]

/-- The last piece, or the only one. -/
theorem finish_last (state : HttpState) {p front : List Byte} {done : List HttpArg} {s : ArgScan}
    (hord : ∀ c ∈ p, Ordinary c) (h0 : 0 ∉ p) (hlen : p.length < 4000) (harg : s.arg = tableWith done {})
    (htmp : s.tmpData = none) (htmpLen : s.tmpLen = 0) :
    ((parsePieces state (p ++ behind []) front.length s).run
        (Memory.ofList (front ++ (p ++ behind [])))).map ArgScan.outcome =
      (storedPieces p []).map fun l => (done.map HttpArg.shown ++ l, s.httpInt.urlArgCnt + 1) := by
  obtain ⟨s1, hloop, hcur, hcnt, happend⟩ := loop_piece front p (behind []) (behind []) hord hlen harg
    htmp htmpLen
  have hrun : (parsePieces state (p ++ behind []) front.length s).run
      (Memory.ofList (front ++ (p ++ behind []))) =
      (httpParseArgsEnd true state s1).run (Memory.ofList (front ++ (p ++ behind []))) := by
    rw [parsePieces, Access.run_bind, hloop]
    show (if s1.arg.cur = none then pure s1 else httpParseArgsEnd true state s1).run _ = _
    rw [if_neg hcur]
  rw [hrun, storedPieces]
  cases hval : storedValue p [] with
  | none =>
    have hnone : s1.appendTmp.run (Memory.ofList (front ++ (p ++ behind []))) = none := by
      rw [happend]
      exact congrArg _ hval
    rw [httpParseArgsEnd, Access.run_bind, hnone]
    rfl
  | some val =>
    have hsome : s1.appendTmp.run (Memory.ofList (front ++ (p ++ behind []))) =
        some { s1 with arg := tableWith done (pieceItem p val) } := by
      rw [happend]
      exact congrArg _ hval
    obtain ⟨hle, -⟩ := storedValue_le hval
    have hplen := pieceValue_length p
    obtain ⟨item', hnul, hshown, hflag⟩ := @pieceItem_nul p val hlen (by omega)
    rw [end_piece hsome rfl hnul hflag, hshown, pieceItem_shown h0 List.not_mem_nil hval]
    simp [hcnt]

/-- **What a text of pieces leaves in the table**, or that a value is read beyond the text. -/
theorem finish_pieces (state : HttpState) : ∀ (ps : List (List Byte)) (p front : List Byte)
    (done : List HttpArg) (s : ArgScan),
    (∀ q ∈ p :: ps, (∀ c ∈ q, Ordinary c) ∧ 0 ∉ q ∧ q.length < 4000) →
    done.length + ps.length + 1 ≤ 32 → s.arg = tableWith done {} → s.tmpData = none → s.tmpLen = 0 →
    ((parsePieces state (p ++ behind ps) front.length s).run
        (Memory.ofList (front ++ (p ++ behind ps)))).map ArgScan.outcome =
      (storedPieces p ps).map fun l =>
        (done.map HttpArg.shown ++ l, s.httpInt.urlArgCnt + ((p :: ps).length : Int)) := by
  intro ps
  -- on the pieces behind the first one, which the loop has still to read
  induction ps with
  | nil =>
    intro p front done s hps _ harg htmp htmpLen
    obtain ⟨hord, h0, hlen⟩ := hps p List.mem_cons_self
    exact finish_last state hord h0 hlen harg htmp htmpLen
  | cons q qs ih =>
    intro p front done s hps hroom harg htmp htmpLen
    obtain ⟨hfirst, hrest⟩ := List.forall_mem_cons.mp hps
    obtain ⟨hord, h0, hlen⟩ := hfirst
    have hbehind : behind (q :: qs) = ch '&' :: (q ++ behind qs) := rfl
    have hmem : front ++ (p ++ behind (q :: qs)) = (front ++ (p ++ [ch '&'])) ++ (q ++ behind qs) := by
      rw [hbehind]
      simp
    have haddr : ((front ++ (p ++ [ch '&'])).length : Int) = front.length + p.length + 1 := by
      simp only [List.length_append, List.length_singleton]
      omega
    rw [List.length_cons] at hroom
    obtain ⟨s1, hloop, hcur, hcnt, happend⟩ := loop_piece front p (behind (q :: qs)) (behind (q :: qs)) hord
      hlen harg htmp htmpLen
    rw [storedPieces]
    cases hval : storedValue p (behind (q :: qs)) with
    | none =>
      rw [hval] at happend
      have hbyte := @byte_amp_none _ ((front.length : Int) + p.length) _ happend
      rw [parsePieces, Access.run_bind, hloop, hbehind, httpParseArgsLoop, Access.run_bind, ← hbehind, hbyte]
      rfl
    | some val =>
      rw [hval] at happend
      obtain ⟨s2, hbyte, harg2, htmp2, htmpLen2, hcnt2⟩ := @byte_amp _ ((front.length : Int) + p.length)
        _ _ _ _ happend rfl (by omega)
      have hcur2 : s2.arg.cur ≠ none := by
        rw [harg2]
        exact Option.some_ne_none _
      have hnext := ih q (front ++ (p ++ [ch '&'])) (done ++ [{ pieceItem p val with completeFlag := true }])
        s2 hrest (by rw [List.length_append, List.length_singleton]; omega) harg2 htmp2 htmpLen2
      have hrun : (parsePieces state (p ++ behind (q :: qs)) front.length s).run
          (Memory.ofList (front ++ (p ++ behind (q :: qs)))) =
          (parsePieces state (q ++ behind qs) (front ++ (p ++ [ch '&'])).length s2).run
            (Memory.ofList ((front ++ (p ++ [ch '&'])) ++ (q ++ behind qs))) := by
        rw [parsePieces, parsePieces, Access.run_bind, Access.run_bind, hloop, haddr, ← hmem]
        exact congrArg (Option.bind · _) (loop_cons hbyte hcur2)
      have h0rest : 0 ∉ behind (q :: qs) := by
        intro hmem0
        obtain ⟨r, hr, hr0⟩ := List.mem_flatMap.mp hmem0
        rcases List.mem_cons.mp hr0 with hamp | hr0
        · exact absurd hamp (by decide)
        · exact (hrest r hr).2.1 hr0
      rw [hrun, hnext, hcnt2, hcnt]
      cases storedPieces q qs with
      | none => rfl
      | some l =>
        have hshown : ({ pieceItem p val with completeFlag := true } : HttpArg).shown = (pieceName p, val) :=
          pieceItem_shown h0 h0rest hval
        simp only [Option.map_some, Option.bind_some, List.map_append, List.map_cons, List.map_nil, hshown,
          List.append_assoc, List.singleton_append, List.length_cons]
        congr 2
        omega

/-! ## What is recorded -/

/-- The name and the value of a piece. -/
def splitPiece (p : List Byte) : List Byte × List Byte := (pieceName p, pieceValue p)

theorem storedValue_iff (p rest : List Byte) :
    storedValue p rest = some (pieceValue p) ↔ (pieceValue p).head? ≠ some (ch '=') := by
  unfold storedValue
  generalize pieceValue p = v
  simp only
  cases v with
  | nil => simp
  | cons c v =>
    by_cases hc : c = ch '='
    · subst hc
      simp only [List.head?_cons, ne_eq, not_true_eq_false, iff_false]
      rw [List.dropWhile_cons_of_pos (by simp)]
      -- what is stored begins with another byte than `=`
      have hhead := List.head?_dropWhile_not (· = ch '=') v
      generalize v.dropWhile (· = ch '=') = w at hhead
      intro hsome
      cases w with
      | nil => cases hsome
      | cons b w =>
        have hb : b ≠ ch '=' := by simpa using hhead
        rw [if_neg (List.cons_ne_nil b w)] at hsome
        split at hsome
        · have heq := Option.some.inj hsome
          rw [List.cons_append, List.length_cons, List.take_succ_cons, List.cons.injEq] at heq
          exact hb heq.1
        · cases hsome
    · have hdrop : (c :: v).dropWhile (· = ch '=') = c :: v := List.dropWhile_cons_of_neg (by simpa using hc)
      have hle : (c :: v).length ≤ (c :: v ++ rest).length := by
        rw [List.length_append]
        exact Nat.le_add_right _ _
      rw [hdrop, if_neg (List.cons_ne_nil c v), if_pos hle, List.take_left]
      simpa using hc

theorem storedPieces_iff : ∀ (ps : List (List Byte)) (p : List Byte),
    storedPieces p ps = some ((p :: ps).map splitPiece) ↔
      ∀ q ∈ p :: ps, (pieceValue q).head? ≠ some (ch '=') := by
  intro ps
  induction ps with
  | nil =>
    intro p
    have hval := storedValue_iff p []
    rw [storedPieces, List.forall_mem_singleton, ← hval]
    cases storedValue p [] with
    | none => simp
    | some val => simp [splitPiece]
  | cons q qs ih =>
    intro p
    have hval := storedValue_iff p (behind (q :: qs))
    rw [List.forall_mem_cons, ← ih q, ← hval, storedPieces]
    cases storedValue p (behind (q :: qs)) with
    | none => simp
    | some val =>
      cases storedPieces q qs with
      | none => simp
      | some l => simp [splitPiece]

/-- **The pieces of a text are recorded as they are split, and nothing is read outside of it,
exactly when no value begins with `=`.** -/
theorem httpParseArgs_pieces {info : Http} {d : List Byte} (harg : info.arg = { maxNum := 32 })
    (hplain : ∀ c ∈ d, c ≠ ch '%' ∧ c ≠ ch '+' ∧ c ≠ ch '\\' ∧ c ≠ 0) (hcount : (pieces d).length ≤ 32)
    (hlen : ∀ p ∈ pieces d, p.length < 4000) :
    (∃ r, (httpParseArgs info d.length true).run (Memory.ofList d) = some r ∧
      r.arg.arg.map HttpArg.shown = (pieces d).map splitPiece ∧
      r.httpInt.urlArgCnt = info.httpInt.urlArgCnt + (pieces d).length) ↔
    ∀ p ∈ pieces d, (pieceValue p).head? ≠ some (ch '=') := by
  obtain ⟨p, ps, hpieces, hd⟩ := pieces_spec d
  have hps : ∀ q ∈ p :: ps, (∀ c ∈ q, Ordinary c) ∧ 0 ∉ q ∧ q.length < 4000 := by
    intro q hq
    rw [← hpieces] at hq
    refine ⟨?_, ?_, hlen q hq⟩
    · intro c hc
      obtain ⟨h1, h2, h3, -⟩ := hplain c (mem_piece q hq hc)
      exact ⟨h1, h2, h3, fun hamp => piece_no_amp q hq (hamp ▸ hc)⟩
    · intro h0
      exact (hplain 0 (mem_piece q hq h0)).2.2.2 rfl
  rw [hpieces, List.length_cons] at hcount
  -- the run of the parser, from the empty table on
  have hempty : httpGetEmptyArg { maxNum := 32 } = tableWith [] {} := rfl
  have hslice : (Access.slice 0 d.length).run (Memory.ofList d) = some d := by
    have hs := slice_at [] d []
    rw [List.append_nil] at hs
    exact hs
  have hrun : (httpParseArgs info d.length true).run (Memory.ofList d) =
      ((parsePieces info.logic.state d 0 { arg := tableWith [] {}, httpInt := info.httpInt }).run
        (Memory.ofList d)).map fun s => { info with arg := s.arg, httpInt := s.httpInt } := by
    unfold httpParseArgs parsePieces
    simp only [harg, if_true, hempty, tableWith_cur, reduceCtorEq, if_false, Access.run_bind]
    rw [Int.toNat_natCast, hslice, Option.bind_some]
    cases (httpParseArgsLoop true d 0 { arg := tableWith [] {}, httpInt := info.httpInt }).run
        (Memory.ofList d) with
    | none => rfl
    | some s =>
      simp only [Option.bind_some]
      split
      · rfl
      · rw [Access.run_bind]
        cases (httpParseArgsEnd true info.logic.state s).run (Memory.ofList d) <;> rfl
  have hfinish := finish_pieces info.logic.state ps p [] []
    { arg := tableWith [] {}, httpInt := info.httpInt } hps (by simpa using hcount) rfl rfl rfl
  simp only [List.nil_append, ← hd, List.length_nil, List.map_nil, Int.natCast_zero] at hfinish
  rw [hpieces, ← storedPieces_iff ps p]
  cases hparse : (parsePieces info.logic.state d 0 { arg := tableWith [] {}, httpInt := info.httpInt }).run
      (Memory.ofList d) with
  | none =>
    rw [hparse] at hfinish hrun
    have hnone := (Option.map_eq_none_iff.mp hfinish.symm)
    rw [hnone]
    constructor
    · intro h
      obtain ⟨r, hr, -⟩ := h
      rw [hrun] at hr
      cases hr
    · intro h
      cases h
  | some s =>
    rw [hparse] at hfinish hrun
    obtain ⟨l, hl, hout⟩ := Option.map_eq_some_iff.mp hfinish.symm
    obtain ⟨hshown, hcnt⟩ := Prod.mk.inj hout
    rw [hl, Option.some.injEq]
    constructor
    · intro h
      obtain ⟨r, hr, hr', -⟩ := h
      rw [hrun] at hr
      cases hr
      exact hshown.trans hr'
    · intro h
      exact ⟨_, hrun, hshown.symm.trans h, hcnt.symm⟩

theorem httpParseArgs_pieces_two : ∃ r, (httpParseArgs { arg := { maxNum := 32 } } (str "a=1&b").length true).run
      (Memory.ofList (str "a=1&b")) = some r ∧
    r.arg.arg.map HttpArg.shown = [(str "a", str "1"), (str "b", [])] ∧ r.httpInt.urlArgCnt = 2 :=
  (@httpParseArgs_pieces { arg := { maxNum := 32 } } (str "a=1&b") rfl (by decide +kernel)
    (by decide +kernel) (by decide +kernel)).mpr (by decide +kernel)

/-- Of `a==b` the value is read one byte beyond the text; of `a==b&c` it is `b&`. -/
theorem second_equals_shifts :
    (httpParseArgs { arg := { maxNum := 32 } } (str "a==b").length true).run (Memory.ofList (str "a==b")) = none ∧
    ((httpParseArgs { arg := { maxNum := 32 } } (str "a==b&c").length true).run
      (Memory.ofList (str "a==b&c"))).map (fun r => r.arg.arg.map HttpArg.shown) =
        some [(str "a", str "b&"), (str "c", [])] ∧
    (pieces (str "a==b&c")).map splitPiece = [(str "a", str "=b"), (str "c", [])] :=
  ⟨by decide +kernel, by decide +kernel, by decide +kernel⟩

end WafProxy
