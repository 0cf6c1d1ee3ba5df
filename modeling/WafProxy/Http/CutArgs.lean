import WafProxy.Http.ArgRecords
import WafProxy.Http.ContentLength

/-
  Arguments in two packets — `_http_parse_args` of http_arg.c, `http_parse_body` of
  http_body.c

  Between two calls `_http_parse_args` keeps the current item. The stretch it was
  reading is appended at the end of the packet, and decoded there; when the message
  has ended a NUL is appended behind it. The next packet begins a stretch of its own
  in the same item.

  What is proved:
    1. `scan_moved` — the bytes of a packet do what they do further on in a longer
       one, where no stretch is under way.
    2. `scan_closes` — so they do where one is, once it ends, when what has been
       appended then is the same.
    3. `args_cut` — a cut at which the table is full, or the message has not ended
       and the stretch is decoded alike in two parts (`ArgsUncut`), changes no argument.
-/

namespace WafProxy
open Lib

/-! ## Further on in a packet -/

/-- The scan of bytes that begin `d` bytes further on, with other integers. -/
def ArgScan.moved (d : Int) (n : HttpInt) (s : ArgScan) : ArgScan :=
  { s with tmpData := s.tmpData.map (d + ·), httpInt := n }

/-- The stretch begins in the packet. -/
def ArgScan.Inside (s : ArgScan) : Prop := ∀ a ∈ s.tmpData, 0 ≤ a

section
variable {d : Int} {n : HttpInt} {m : Memory Byte} {s : ArgScan}

theorem appendTmp_moved (h : s.Inside) :
    (s.moved d n).appendTmp.run m = (s.appendTmp.run (m.above d)).map (ArgScan.moved d n) := by
  obtain ⟨tmpData, tmpLen, arg, httpInt⟩ := s
  cases tmpData with
  | none => rfl
  | some a =>
    have hslice := @Access.slice_above _ m d tmpLen a (h a rfl)
    show ((Access.slice (d + a) tmpLen).run m).bind _ = (((Access.slice a tmpLen).run (m.above d)).bind _).map _
    rw [hslice]
    cases (Access.slice (d + a) tmpLen).run m with
    | none => rfl
    | some value =>
      rw [Option.bind_some, Option.bind_some, Access.run_bind, Access.run_bind, Access.run_ofOption,
        Access.run_ofOption]
      show (httpAppendArg value arg).bind _ = ((httpAppendArg value arg).bind _).map _
      cases httpAppendArg value arg with
      | none => rfl
      | some arg' => rfl

theorem appendNul_moved :
    (s.moved d n).appendNul.run m = (s.appendNul.run (m.above d)).map (ArgScan.moved d n) := by
  obtain ⟨tmpData, tmpLen, arg, httpInt⟩ := s
  show ((Access.ofOption (httpAppendArg [0] arg)).run m).bind _ =
    (((Access.ofOption (httpAppendArg [0] arg)).run (m.above d)).bind _).map _
  rw [Access.run_ofOption, Access.run_ofOption]
  cases httpAppendArg [0] arg with
  | none => rfl
  | some arg' => rfl

theorem extend_moved (begin : Int) :
    (s.moved d n).extend false (d + begin) = (s.extend false begin).moved d n := by
  obtain ⟨tmpData, tmpLen, arg, httpInt⟩ := s
  cases tmpData with
  | none => rfl
  | some a => rfl

theorem byte_moved {begin : Int} {c : Byte} (h : s.Inside) :
    (httpParseArgsByte false (d + begin) c (s.moved d n)).run m =
      ((httpParseArgsByte false begin c s).run (m.above d)).map (ArgScan.moved d n) := by
  have hset : ∀ f, ((s.moved d n).onCur f).extend false (d + begin) = ((s.onCur f).extend false begin).moved d n :=
    fun f => @extend_moved d n (s.onCur f) begin
  unfold httpParseArgsByte
  simp only [Access.run_ite]
  split
  · rw [hset]
    rfl
  · split
    · rw [hset]
      rfl
    · split
      · rw [Access.run_bind, Access.run_bind, appendTmp_moved h]
        cases s.appendTmp.run (m.above d) with
        | none => rfl
        | some s1 => rfl
      · split
        · have hflag : (s.moved d n).arg = s.arg := rfl
          rw [hflag]
          split
          · rw [Access.run_bind, Access.run_bind, appendTmp_moved h]
            cases s.appendTmp.run (m.above d) with
            | none => rfl
            | some s1 =>
              rw [Option.map_some, Option.bind_some, Option.bind_some, Access.run_bind, Access.run_bind]
              have hnul := @appendNul_moved d n m { s1 with tmpData := none, tmpLen := 0 }
              have hsame : ({ s1.moved d n with tmpData := none, tmpLen := 0 } : ArgScan) =
                  ArgScan.moved d n { s1 with tmpData := none, tmpLen := 0 } := rfl
              rw [hsame, hnul]
              cases (ArgScan.appendNul { s1 with tmpData := none, tmpLen := 0 }).run (m.above d) with
              | none => rfl
              | some s2 => rfl
          · rfl
        · rw [extend_moved]
          rfl

/-- A byte begins a stretch at its own place or at none. -/
theorem byte_inside {begin : Int} {c : Byte} (h : s.Inside) (hbegin : 0 ≤ begin) :
    (httpParseArgsByte false begin c s).Ensures ArgScan.Inside := by
  have hextend : ∀ f, ((s.onCur f).extend false begin).Inside := by
    intro f a ha
    obtain rfl : s.tmpData.getD begin = a := Option.some.inj ha
    cases hdata : s.tmpData with
    | none => exact hbegin
    | some b => exact h b hdata
  have hnone : ∀ r : ArgScan, r.tmpData = none → r.Inside := by
    intro r hr a ha
    rw [hr] at ha
    cases ha
  unfold httpParseArgsByte
  split
  · exact Access.ensures_pure (hextend _)
  · split
    · exact Access.ensures_pure (hextend _)
    · split
      · apply Access.ensures_then
        intro s1
        exact Access.ensures_pure (hnone _ rfl)
      · split
        · split
          · apply Access.ensures_then
            intro s1
            refine Access.Ensures.bind (P := fun r : ArgScan => r.tmpData = none) ?_ ?_
            · apply Access.ensures_then
              intro arg
              exact Access.ensures_pure rfl
            · intro r hr
              exact Access.ensures_pure (hnone _ hr)
          · exact Access.ensures_pure h
        · exact Access.ensures_pure (hextend id)

theorem end_moved {state : HttpState} (h : s.Inside) :
    (httpParseArgsEnd false state (s.moved d n)).run m =
      ((httpParseArgsEnd false state s).run (m.above d)).map (ArgScan.moved d n) := by
  unfold httpParseArgsEnd
  rw [Access.run_bind, Access.run_bind, appendTmp_moved h]
  cases s.appendTmp.run (m.above d) with
  | none => rfl
  | some s1 =>
    rw [Option.map_some, Option.bind_some, Option.bind_some, if_neg Bool.false_ne_true,
      if_neg Bool.false_ne_true]
    split
    · rw [Access.run_bind, Access.run_bind, appendNul_moved]
      cases s1.appendNul.run (m.above d) with
      | none => rfl
      | some s2 => rfl
    · rfl

end

/-! ## The scan, byte by byte -/

section
variable {inUrl : Bool} {state : HttpState} {m : Memory Byte} {begin : Int} {s : ArgScan}

/-- The scan of two texts, one behind the other. -/
theorem scanArgs_append (front back : List Byte) : ∀ {begin : Int} {s : ArgScan}, s.arg.cur ≠ none →
    (scanArgs inUrl state (front ++ back) begin s).run m =
      ((httpParseArgsLoop inUrl front begin s).run m).bind fun s1 =>
        if s1.arg.cur = none then some s1 else (scanArgs inUrl state back (begin + front.length) s1).run m := by
  induction front with
  | nil =>
    intro begin s hcur
    rw [List.nil_append, httpParseArgsLoop, Access.run_pure, Option.bind_some, if_neg hcur]
    simp
  | cons c front ih =>
    intro begin s _
    have hbegin : begin + ((c :: front).length : Nat) = begin + 1 + front.length := by
      rw [List.length_cons]
      omega
    rw [List.cons_append, scanArgs_cons, httpParseArgsLoop, Access.run_bind, hbegin]
    cases (httpParseArgsByte inUrl begin c s).run m with
    | none => rfl
    | some s1 =>
      rw [Option.bind_some, Option.bind_some]
      by_cases hcur : s1.arg.cur = none
      · rw [if_pos hcur, if_pos hcur, Access.run_pure, Option.bind_some, if_pos hcur]
      · rw [if_neg hcur, if_neg hcur]
        exact ih hcur

/-- Of the state of the message the scan asks only whether it has ended. -/
theorem scanArgs_state {state' : HttpState} (h : state' = .none ↔ state = .none) (data : List Byte) :
    scanArgs inUrl state' data begin s = scanArgs inUrl state data begin s := by
  have hend : ∀ s, httpParseArgsEnd inUrl state' s = httpParseArgsEnd inUrl state s := by
    intro s
    unfold httpParseArgsEnd
    simp only [h]
  unfold scanArgs
  simp only [hend]

/-- **The bytes of a packet do what they do further on in a longer one.** -/
theorem scan_moved {d : Int} {n : HttpInt} (data : List Byte) : ∀ {begin : Int} {s : ArgScan}, s.Inside →
    0 ≤ begin → s.arg.cur ≠ none →
    (scanArgs false state data (d + begin) (s.moved d n)).run m =
      ((scanArgs false state data begin s).run (m.above d)).map (ArgScan.moved d n) := by
  induction data with
  | nil =>
    intro begin s hin _ hcur
    have hcur' : (s.moved d n).arg.cur ≠ none := hcur
    rw [scanArgs_nil hcur', scanArgs_nil hcur]
    exact end_moved hin
  | cons c data ih =>
    intro begin s hin hbegin _
    rw [scanArgs_cons, scanArgs_cons, byte_moved hin]
    cases hbyte : (httpParseArgsByte false begin c s).run (m.above d) with
    | none => rfl
    | some s1 =>
      rw [Option.map_some, Option.bind_some, Option.bind_some]
      have hsame : (s1.moved d n).arg = s1.arg := rfl
      rw [hsame]
      by_cases hcur : s1.arg.cur = none
      · rw [if_pos hcur, if_pos hcur]
        rfl
      · rw [if_neg hcur, if_neg hcur, Int.add_assoc]
        exact ih (byte_inside hin hbegin _ _ hbyte) (by omega) hcur

end

/-! ## The end of a stretch -/

/-- The two scans append the same, the one in the whole, the other behind the cut. -/
def AppendAlike (d : Int) (m : Memory Byte) (sw sc : ArgScan) : Prop :=
  ∀ tw, sw.appendTmp.run m = some tw →
    ∃ tc, sc.appendTmp.run (m.above d) = some tc ∧ tc.arg = tw.arg

/-- A byte that ends a stretch: an `&`, or the `=` behind a name. -/
def EndsStretch (c : Byte) (s : ArgScan) : Prop :=
  c = ch '&' ∨ (c = ch '=' ∧ s.arg.item.map HttpArg.argFlag ≠ some true)

section
variable {state : HttpState} {m : Memory Byte} {d begin : Int} {sw sc w : ArgScan}

theorem appendNul_arg {s r : ArgScan} (h : s.appendNul.run m = some r) :
    httpAppendArg [0] s.arg = some r.arg := by
  obtain ⟨arg, harg, h⟩ := Option.bind_eq_some_iff.mp h
  cases h
  rw [Access.run_ofOption] at harg
  exact harg

/-- Behind the byte both scans are at the same place of the same table. -/
theorem byte_closes {c : Byte} (h : AppendAlike d m sw sc) (hc : EndsStretch c sw)
    (hflag : sc.arg.item.map HttpArg.argFlag = sw.arg.item.map HttpArg.argFlag)
    (hrun : (httpParseArgsByte false (d + begin) c sw).run m = some w) :
    ∃ r, (httpParseArgsByte false begin c sc).run (m.above d) = some r ∧ r.tmpData = none ∧
      w = r.moved d w.httpInt := by
  unfold httpParseArgsByte at hrun ⊢
  rcases hc with rfl | ⟨rfl, hname⟩
  · rw [if_neg (by decide), if_neg (by decide), if_pos rfl] at hrun ⊢
    obtain ⟨tw, htw, hrun⟩ := Option.bind_eq_some_iff.mp hrun
    obtain ⟨tc, htc, harg⟩ := h tw htw
    cases hrun
    refine ⟨{ tmpData := none, tmpLen := 0,
              arg := (httpGetEmptyArg (tc.arg.onCur fun i => { i with completeFlag := true })).onCur
                fun i => { i with argFlag := false },
              httpInt := tc.httpInt }, ?_, rfl, ?_⟩
    · rw [Access.run_bind, htc]
      rfl
    · rw [harg]
      rfl
  · rw [if_neg (by decide), if_neg (by decide), if_neg (by decide), if_pos rfl] at hrun ⊢
    rw [if_pos hname] at hrun
    rw [if_pos (by rw [hflag]; exact hname)]
    obtain ⟨tw, htw, hrun⟩ := Option.bind_eq_some_iff.mp hrun
    obtain ⟨tc, htc, harg⟩ := h tw htw
    obtain ⟨uw, huw, hrun⟩ := Option.bind_eq_some_iff.mp hrun
    cases hrun
    obtain ⟨arg, hnul, hrest⟩ := Option.bind_eq_some_iff.mp huw
    cases hrest
    rw [Access.run_ofOption] at hnul
    refine ⟨{ tmpData := none, tmpLen := 0, arg := arg.onCur fun i => { i with argFlag := true },
              httpInt := tc.httpInt }, ?_, rfl, rfl⟩
    have hnul' : httpAppendArg [0] tc.arg = some arg := by
      rw [harg]
      exact hnul
    rw [Access.run_bind, htc, Option.bind_some, Access.run_bind,
      @appendNul_some (m.above d) { tc with tmpData := none, tmpLen := 0 } arg hnul']
    rfl

/-- At the end of the text. -/
theorem end_closes (h : AppendAlike d m sw sc) (hrun : (httpParseArgsEnd false state sw).run m = some w) :
    ∃ r, (httpParseArgsEnd false state sc).run (m.above d) = some r ∧ r.arg = w.arg := by
  unfold httpParseArgsEnd at hrun ⊢
  rw [Access.run_bind] at hrun ⊢
  obtain ⟨tw, htw, hrun⟩ := Option.bind_eq_some_iff.mp hrun
  obtain ⟨tc, htc, harg⟩ := h tw htw
  rw [htc, Option.bind_some]
  rw [if_neg Bool.false_ne_true] at hrun ⊢
  by_cases hnone : state = .none
  · rw [if_pos hnone] at hrun ⊢
    obtain ⟨uw, huw, hrun⟩ := Option.bind_eq_some_iff.mp hrun
    cases hrun
    have hnul := appendNul_arg huw
    rw [← harg] at hnul
    refine ⟨({ tc with arg := uw.arg } : ArgScan).onCur fun i => { i with completeFlag := true }, ?_, rfl⟩
    rw [Access.run_bind, appendNul_some hnul]
    rfl
  · rw [if_neg hnone] at hrun ⊢
    cases hrun
    exact ⟨tc, rfl, harg⟩

/-- **Once the stretch ends the rest of the packet is read alike.** -/
theorem scan_closes {rest : List Byte} (h : AppendAlike d m sw sc) (hends : ∀ c ∈ rest.head?, EndsStretch c sw)
    (hflag : sc.arg.item.map HttpArg.argFlag = sw.arg.item.map HttpArg.argFlag) (hbegin : 0 ≤ begin)
    (hsw : sw.arg.cur ≠ none) (hsc : sc.arg.cur ≠ none)
    (hrun : (scanArgs false state rest (d + begin) sw).run m = some w) :
    ∃ r, (scanArgs false state rest begin sc).run (m.above d) = some r ∧ r.arg = w.arg := by
  cases rest with
  | nil =>
    rw [scanArgs_nil hsw] at hrun
    rw [scanArgs_nil hsc]
    exact end_closes h hrun
  | cons c rest =>
    rw [scanArgs_cons] at hrun ⊢
    obtain ⟨w1, hw1, hrun⟩ := Option.bind_eq_some_iff.mp hrun
    obtain ⟨r1, hr1, hnone, hmoved⟩ := byte_closes h (hends c rfl) hflag hw1
    have hsame : w1.arg = r1.arg := by rw [hmoved]; rfl
    rw [hr1, Option.bind_some]
    rw [hsame] at hrun
    by_cases hcur : r1.arg.cur = none
    · rw [if_pos hcur] at hrun ⊢
      cases hrun
      exact ⟨r1, rfl, hsame.symm⟩
    · rw [if_neg hcur] at hrun ⊢
      rw [hmoved, Int.add_assoc] at hrun
      have hin : r1.Inside := by
        intro a ha
        rw [hnone] at ha
        cases ha
      rw [scan_moved rest hin (by omega) hcur] at hrun
      obtain ⟨r, hr, rfl⟩ := Option.map_eq_some_iff.mp hrun
      exact ⟨r, hr, rfl⟩

end

/-! ## The stretch at the cut -/

/-- The argument a text ends in, and the one it begins with. -/
def lastPiece (d : List Byte) : List Byte := (pieces d).getLastD []
def firstPiece (d : List Byte) : List Byte := (pieces d).headD []

/-- Of the name or the value that is read at the cut: what stands in front of the cut, and
what behind it. -/
def cutFront (pre : List Byte) : List Byte := if ch '=' ∈ pre then pieceValue pre else pre
def cutBack (pre post : List Byte) : List Byte := if ch '=' ∈ pre then post else pieceName post

/-- Decoding what stands in front of the cut first makes no difference, nor does decoding
the name once more in front of a value. -/
structure DecodedAlike (pre front back : List Byte) : Prop where
  text : keptText (argFlags (pre ++ back)) (joinText (some (keptText (argFlags pre) front)) back) =
    keptText (argFlags (pre ++ back)) (front ++ back)
  name : ch '=' ∈ pre → keptText (argFlags (pre ++ back)) (keptText (argFlags pre) (nameText pre)) =
    keptText (argFlags (pre ++ back)) (nameText pre)

/-- The argument `pre ++ post` is stored alike in two parts: a name or a value is not cut, or
the two parts are decoded alike, neither of them beginning with an `=`. -/
def Seamless (pre post : List Byte) : Prop :=
  cutFront pre = [] ∨ cutBack pre post = [] ∨
    ((ch '=' ∈ pre → (pieceValue pre).head? ≠ some (ch '=') ∧ post.head? ≠ some (ch '=')) ∧
      DecodedAlike pre (cutFront pre) (cutBack pre post))

theorem lastPiece_amp {pre : List Byte} (h : ch '&' ∉ pre) (data : List Byte) :
    lastPiece (pre ++ ch '&' :: data) = lastPiece data := by
  obtain ⟨p, ps, hp, -⟩ := pieces_spec data
  unfold lastPiece
  rw [pieces_amp h, hp]
  rfl

/-- The bytes `q` of the second packet have been read, of the argument that begins with `pre`. -/
structure Resumed (done : List HttpArg) (pre q : List Byte) (n v : Option (List Byte)) (s : ArgScan)
    (item : HttpArg) : Prop where
  arg : s.arg = tableWith done item
  texts : HoldsTexts item (argFlags (pre ++ q)) (decide (ch '=' ∈ pre)) n v
  tmpData : s.tmpData = if q = [] then none else some 0
  tmpLen : s.tmpLen = q.length

/-- The bytes that belong to the stretch. -/
structure InStretch (pre q : List Byte) (c : Byte) : Prop where
  amp : c ≠ ch '&'
  name : ch '=' ∉ pre → c ≠ ch '='
  value : ch '=' ∈ pre → q = [] → c ≠ ch '='

section
variable {done : List HttpArg} {pre q : List Byte} {n v : Option (List Byte)} {s s' : ArgScan}
variable {item : HttpArg} {c : Byte}

theorem Resumed.extend (h : Resumed done pre q n v s item) {item' : HttpArg}
    (hitem : item' = { item with decodeFlag := argFlags (pre ++ (q ++ [c])) }) :
    Resumed done pre (q ++ [c]) n v ({ s with arg := tableWith done item' }.extend false q.length) item' := by
  have htexts := h.texts
  refine ⟨rfl, ?_, ?_, ?_⟩
  · rw [hitem]
    exact ⟨rfl, htexts.toValue, htexts.name, htexts.value, htexts.nameShort, htexts.valueShort,
      ⟨htexts.ended.name, htexts.ended.value, htexts.ended.unfinished⟩⟩
  · rw [if_neg (List.append_ne_nil_of_right_ne_nil _ (List.cons_ne_nil _ _))]
    show some (s.tmpData.getD _) = _
    rw [h.tmpData]
    split
    · next hnil =>
      rw [hnil]
      rfl
    · rfl
  · show s.tmpLen + 1 = _
    rw [h.tmpLen, List.length_append]
    rfl

/-- **A byte of the stretch lengthens it.** -/
theorem resumed_byte (h : Resumed done pre q n v s item) (hc : InStretch pre q c) :
    ∃ s' item', (∀ m, (httpParseArgsByte false q.length c s).run m = some s') ∧
      Resumed done pre (q ++ [c]) n v s' item' := by
  have hflags : item.decodeFlag = argFlags (pre ++ q) := h.texts.flag
  have hset : ∀ f : HttpArg → HttpArg, s.onCur f = { s with arg := tableWith done (f item) } := by
    intro f
    rw [ArgScan.onCur, h.arg, tableWith_onCur]
  unfold httpParseArgsByte
  by_cases hurl : c = ch '%' ∨ c = ch '+'
  · simp only [if_pos hurl]
    rw [hset]
    refine ⟨_, _, fun m => rfl, h.extend ?_⟩
    rw [← List.append_assoc, argFlags_url hurl, ← hflags]
  · simp only [if_neg hurl]
    by_cases hback : c = ch '\\'
    · simp only [if_pos hback]
      rw [hset]
      refine ⟨_, _, fun m => rfl, h.extend ?_⟩
      rw [← List.append_assoc, hback, argFlags_escape, ← hflags]
    · have hord : Ordinary c := ⟨fun h1 => hurl (Or.inl h1), fun h1 => hurl (Or.inr h1), hback, hc.amp⟩
      have hsame : argFlags (pre ++ (q ++ [c])) = argFlags (pre ++ q) := by
        rw [← List.append_assoc, argFlags_other hord]
      simp only [if_neg hback, if_neg hc.amp]
      by_cases heq : c = ch '='
      · -- an `=` inside a value
        have hmem : ch '=' ∈ pre := by
          by_contra hno
          exact hc.name hno heq
        have hq : q ≠ [] := fun hnil => hc.value hmem hnil heq
        have hflag : ¬ s.arg.item.map HttpArg.argFlag ≠ some true := by
          rw [h.arg, tableWith_item, Option.map_some, h.texts.toValue, decide_eq_true hmem]
          exact not_not.mpr rfl
        simp only [if_pos heq, if_neg hflag]
        refine ⟨_, item, fun m => rfl, h.arg, ?_, ?_, ?_⟩
        · rw [hsame]
          exact h.texts
        · rw [if_neg (List.append_ne_nil_of_right_ne_nil _ (List.cons_ne_nil _ _)), h.tmpData, if_neg hq]
        · show s.tmpLen + 1 = _
          rw [h.tmpLen, List.length_append]
          rfl
      · simp only [if_neg heq]
        have hitem : item = { item with decodeFlag := argFlags (pre ++ (q ++ [c])) } := by
          rw [hsame, ← hflags]
        have hextend := h.extend hitem
        rw [← h.arg] at hextend
        exact ⟨_, item, fun m => rfl, hextend⟩

/-- The stretch behind the cut. -/
theorem resumed_scan {state : HttpState} (w : List Byte) : ∀ {q : List Byte} {s : ArgScan} {item : HttpArg},
    Resumed done pre q n v s item → ch '&' ∉ w → (ch '=' ∉ pre → ch '=' ∉ w) →
    (ch '=' ∈ pre → q = [] → w.head? ≠ some (ch '=')) →
    ∃ s' item', (∀ m rest, (scanArgs false state (w ++ rest) q.length s).run m =
        (scanArgs false state rest (q ++ w).length s').run m) ∧ Resumed done pre (q ++ w) n v s' item' := by
  induction w with
  | nil =>
    intro q s item h _ _ _
    rw [List.append_nil]
    exact ⟨s, item, fun m rest => rfl, h⟩
  | cons c w ih =>
    intro q s item h hamp hname hvalue
    have hc : InStretch pre q c :=
      ⟨fun heq => hamp (heq ▸ List.mem_cons_self), fun hno heq => hname hno (heq ▸ List.mem_cons_self),
        fun hmem hnil heq => hvalue hmem hnil (congrArg some heq)⟩
    obtain ⟨s1, item1, hbyte, h1⟩ := resumed_byte h hc
    obtain ⟨s', item', hscan, h'⟩ := ih h1 (fun hin => hamp (List.mem_cons_of_mem _ hin))
      (fun hno hin => hname hno (List.mem_cons_of_mem _ hin))
      (fun _ hnil => absurd hnil (List.append_ne_nil_of_right_ne_nil _ (List.cons_ne_nil _ _)))
    rw [List.append_assoc, List.singleton_append] at hscan h'
    refine ⟨s', item', fun m rest => ?_, h'⟩
    have hcur : s1.arg.cur ≠ none := by
      rw [h1.arg]
      exact Option.some_ne_none _
    have hplace : (q.length : Int) + 1 = ((q ++ [c]).length : Nat) := by
      rw [List.length_append]
      rfl
    rw [List.cons_append, scanArgs_cons, hbyte, Option.bind_some, if_neg hcur, hplace]
    exact hscan m rest

/-- The stretch in the whole. -/
theorem reading_scan {state : HttpState} {front rest : List Byte} (w : List Byte) : ∀ {pre : List Byte}
    {s : ArgScan} {item : HttpArg}, Reading done front.length pre s item → ch '&' ∉ w →
    (scanArgs false state (w ++ rest) ((front.length : Int) + pre.length) s).run
      (Memory.ofList (front ++ (pre ++ (w ++ rest)))) = some s' →
    ∃ s1 item1, Reading done front.length (pre ++ w) s1 item1 ∧
      (scanArgs false state rest ((front.length : Int) + (pre ++ w).length) s1).run
        (Memory.ofList (front ++ ((pre ++ w) ++ rest))) = some s' := by
  induction w with
  | nil =>
    intro pre s item h _ hrun
    rw [List.append_nil]
    exact ⟨s, item, h, hrun⟩
  | cons c w ih =>
    intro pre s item h hamp hrun
    rw [List.cons_append, scanArgs_cons] at hrun
    obtain ⟨s1, hbyte, hrun⟩ := Option.bind_eq_some_iff.mp hrun
    obtain ⟨item1, h1⟩ := byte_reading h (fun heq => hamp (heq ▸ List.mem_cons_self)) hbyte
    have hcur : s1.arg.cur ≠ none := by
      rw [h1.arg]
      exact Option.some_ne_none _
    have hplace : (front.length : Int) + pre.length + 1 = front.length + ((pre ++ [c]).length : Nat) := by
      rw [List.length_append, List.length_singleton]
      omega
    have hmem : front ++ (pre ++ (c :: (w ++ rest))) = front ++ ((pre ++ [c]) ++ (w ++ rest)) := by simp
    rw [if_neg hcur, hplace, hmem] at hrun
    have hind := ih h1 (fun hin => hamp (List.mem_cons_of_mem _ hin)) hrun
    rw [List.append_assoc, List.singleton_append] at hind
    exact hind

/-- The first packet is read to its end with an argument under way, its last one, or there is
no slot left. -/
theorem loop_reading {inUrl : Bool} (data : List Byte) : ∀ {front pre : List Byte} {done : List HttpArg}
    {s s' : ArgScan} {item : HttpArg}, Reading done front.length pre s item → ch '&' ∉ pre → done.length < 32 →
    (httpParseArgsLoop inUrl data ((front.length : Int) + pre.length) s).run
      (Memory.ofList (front ++ (pre ++ data))) = some s' →
    s'.arg.cur = none ∨ ∃ front' done' item', front ++ (pre ++ data) = front' ++ lastPiece (pre ++ data) ∧
      Reading done' front'.length (lastPiece (pre ++ data)) s' item' := by
  induction data with
  | nil =>
    intro front pre done s s' item h hamp _ hrun
    cases hrun
    have hlast : lastPiece (pre ++ []) = pre := by
      rw [List.append_nil, lastPiece, pieces_one hamp]
      rfl
    rw [hlast, List.append_nil]
    exact Or.inr ⟨front, done, item, rfl, h⟩
  | cons c data ih =>
    intro front pre done s s' item h hamp hroom hrun
    rw [httpParseArgsLoop, Access.run_bind] at hrun
    obtain ⟨s1, hbyte, hrun⟩ := Option.bind_eq_some_iff.mp hrun
    by_cases hc : c = ch '&'
    · subst hc
      obtain ⟨last, -, hnext, hfull⟩ := byte_amp_reading h hbyte
      by_cases hlast : done.length + 1 < 32
      · obtain ⟨item', hreading⟩ := hnext hlast
        have hcur : s1.arg.cur ≠ none := by
          rw [hreading.arg]
          exact Option.some_ne_none _
        have hmem : front ++ (pre ++ (ch '&' :: data)) = (front ++ (pre ++ [ch '&'])) ++ ([] ++ data) := by simp
        have hplace : (front.length : Int) + pre.length + 1 =
            ((front ++ (pre ++ [ch '&'])).length : Nat) + (([] : List Byte).length : Nat) := by
          simp only [List.length_append, List.length_singleton, List.length_nil]
          omega
        rw [if_neg hcur, hmem, hplace] at hrun
        rw [hmem, lastPiece_amp hamp]
        exact ih hreading List.not_mem_nil (by rw [List.length_append]; exact hlast) hrun
      · obtain ⟨hnone, -⟩ := hfull (Nat.not_lt.mp hlast)
        rw [if_pos hnone] at hrun
        cases hrun
        exact Or.inl hnone
    · obtain ⟨item', hreading⟩ := byte_reading h hc hbyte
      have hcur : s1.arg.cur ≠ none := by
        rw [hreading.arg]
        exact Option.some_ne_none _
      have hmem : pre ++ (c :: data) = (pre ++ [c]) ++ data := by simp
      have hplace : (front.length : Int) + pre.length + 1 = front.length + ((pre ++ [c]).length : Nat) := by
        rw [List.length_append, List.length_singleton]
        omega
      have hno : ch '&' ∉ pre ++ [c] := by
        intro hin
        rcases List.mem_append.mp hin with hin | hin
        · exact hamp hin
        · exact hc (List.mem_singleton.mp hin).symm
      rw [if_neg hcur, hmem, hplace] at hrun
      rw [hmem]
      exact ih hreading hno hroom hrun

/-! ## Both parts of a stretch -/

/-- A text that is there takes what is appended to it. -/
theorem append_defined {flag : DecodeFlag} {b : Bool} (h : HoldsTexts item flag b n v)
    (hthere : if b then v ≠ none else n ≠ none) (l : List Byte) :
    ∃ arg, httpAppendArg l (tableWith done item) = some arg := by
  have hsome : ∀ x : XStr, x.p ≠ none → ∃ y, x.append l = some y := by
    intro x hx
    obtain ⟨t, ht⟩ := Option.ne_none_iff_exists'.mp hx
    unfold XStr.append
    rw [ht]
    dsimp only
    split
    · exact ⟨_, rfl⟩
    · exact ⟨_, rfl⟩
  unfold httpAppendArg
  split
  · exact ⟨_, rfl⟩
  · rw [tableWith_item]
    have happend : ∃ item', item.append l = some item' := by
      unfold HttpArg.append
      cases b with
      | true =>
        obtain ⟨y, hy⟩ := hsome item.value (h.value ▸ hthere)
        rw [if_pos h.toValue, hy]
        exact ⟨_, rfl⟩
      | false =>
        obtain ⟨y, hy⟩ := hsome item.name (h.name ▸ hthere)
        rw [if_neg (by rw [h.toValue]; exact Bool.false_ne_true), hy]
        exact ⟨_, rfl⟩
    obtain ⟨item', hitem⟩ := happend
    exact ⟨_, congrArg (Option.map _) hitem⟩

/-- The second part is appended. -/
theorem resumed_append {rest : List Byte} (h : Resumed done pre q n v s item) (hq : q ≠ [])
    (hthere : if ch '=' ∈ pre then v ≠ none else n ≠ none) :
    ∃ t item', s.appendTmp.run (Memory.ofList (q ++ rest)) = some t ∧ t.arg = tableWith done item' ∧
      HoldsTexts item' (argFlags (pre ++ q)) (decide (ch '=' ∈ pre))
        (if ch '=' ∈ pre then n.map (keptText (argFlags (pre ++ q)))
          else some (keptText (argFlags (pre ++ q)) (joinText n q)))
        (if ch '=' ∈ pre then some (keptText (argFlags (pre ++ q)) (joinText v q))
          else v.map (keptText (argFlags (pre ++ q)))) := by
  have hdata := h.tmpData
  rw [if_neg hq] at hdata
  have hslice : (Access.slice 0 s.tmpLen).run (Memory.ofList (q ++ rest)) = some q := by
    rw [h.tmpLen]
    exact slice_at [] q rest
  obtain ⟨arg, harg⟩ := @append_defined done n v item _ _ h.texts (by simpa using hthere) q
  obtain ⟨item', rfl, hitem⟩ := append_holds h.texts hq harg
  rw [← h.arg] at harg
  refine ⟨_, item', appendTmp_some hdata hslice harg, rfl, ?_⟩
  simpa only [decide_eq_true_eq] using hitem

end

section
variable {done : List HttpArg} {front pre w rest : List Byte} {sw sc t : ArgScan} {item item' : HttpArg}

/-- The place of the second packet. -/
theorem above_cut : (Memory.ofList (front ++ ((pre ++ w) ++ rest))).above (front ++ pre).length =
    Memory.ofList (w ++ rest) := by
  have hmem : front ++ ((pre ++ w) ++ rest) = (front ++ pre) ++ (w ++ rest) := by simp
  rw [hmem]
  exact Memory.above_ofList _ _

/-- **A name in two parts is appended as it is whole.** -/
theorem name_alike (h : Reading done front.length (pre ++ w) sw item)
    (h' : Resumed done pre w (some (keptText (argFlags pre) pre)) none sc item') (heq : ch '=' ∉ pre)
    (hw : ch '=' ∉ w) (hne : w ≠ []) (halike : DecodedAlike pre pre w) :
    AppendAlike (front ++ pre).length (Memory.ofList (front ++ ((pre ++ w) ++ rest))) sw sc := by
  intro tw htw
  have hno : ch '=' ∉ pre ++ w := fun hin => (List.mem_append.mp hin).elim heq hw
  obtain ⟨last, rfl, hlast⟩ := appendTmp_inName h hno htw
  rw [if_neg (List.append_ne_nil_of_right_ne_nil _ hne)] at hlast
  obtain ⟨tc, last', htc, harg, hlast'⟩ := @resumed_append done pre w _ _ sc item' rest h' hne
    (by rw [if_neg heq]; exact Option.some_ne_none _)
  rw [if_neg heq, if_neg heq, decide_eq_false heq, halike.text] at hlast'
  refine ⟨tc, ?_, ?_⟩
  · rw [above_cut]
    exact htc
  · rw [harg, hlast'.eq hlast]

/-- **So is a value**, when neither part begins with an `=`. -/
theorem value_alike (h : Reading done front.length (pre ++ w) sw item)
    (h' : Resumed done pre w (some (keptText (argFlags pre) (nameText pre)))
      (some (keptText (argFlags pre) (pieceValue pre))) sc item') (heq : ch '=' ∈ pre)
    (hne : pieceValue pre ≠ []) (hhead : (pieceValue pre).head? ≠ some (ch '=')) (hw : w ≠ [])
    (halike : DecodedAlike pre (pieceValue pre) w) :
    AppendAlike (front ++ pre).length (Memory.ofList (front ++ ((pre ++ w) ++ rest))) sw sc := by
  intro tw htw
  have hmem : ch '=' ∈ pre ++ w := List.mem_append_left _ heq
  obtain ⟨hname, hvalue⟩ := piece_append heq w
  have hsame : nameText (pre ++ w) = nameText pre := by
    rw [nameText, hname]
    rfl
  obtain ⟨last, v, hv, rfl, hlast⟩ := appendTmp_inValue h hmem htw
  have hwhole : v = pieceValue pre ++ w := by
    have hstored : (pieceValue (pre ++ w)).head? ≠ some (ch '=') := by
      rw [hvalue, List.head?_append_of_ne_nil _ hne]
      exact hhead
    rw [(storedValue_iff _ rest).mpr hstored, hvalue] at hv
    exact (Option.some.inj hv).symm
  have hvne : v ≠ [] := by
    rw [hwhole]
    exact List.append_ne_nil_of_left_ne_nil hne w
  rw [stretchTexts, if_pos hmem, if_neg hvne, if_neg hvne, hsame, hwhole] at hlast
  obtain ⟨tc, last', htc, harg, hlast'⟩ := @resumed_append done pre w _ _ sc item' rest h' hw
    (by rw [if_pos heq]; exact Option.some_ne_none _)
  rw [if_pos heq, if_pos heq, decide_eq_true heq, halike.text, Option.map_some, halike.name heq] at hlast'
  refine ⟨tc, ?_, ?_⟩
  · rw [above_cut]
    exact htc
  · rw [harg, hlast'.eq hlast]

/-- Behind the stretch comes an `&`, or the `=` behind a name, or nothing. -/
theorem back_split (pre back : List Byte) : ∃ rest, back = cutBack pre (firstPiece back) ++ rest ∧
    ch '&' ∉ cutBack pre (firstPiece back) ∧ (ch '=' ∉ pre → ch '=' ∉ cutBack pre (firstPiece back)) ∧
    ∀ c ∈ rest.head?, c = ch '&' ∨ (c = ch '=' ∧ ch '=' ∉ pre) := by
  obtain ⟨p, ps, hpieces, hback⟩ := pieces_spec back
  have hamp : ch '&' ∉ p := piece_no_amp p (by rw [hpieces]; exact List.mem_cons_self)
  have hfirst : firstPiece back = p := by
    unfold firstPiece
    rw [hpieces]
    rfl
  have hbehind : ∀ c ∈ (behind ps).head?, c = ch '&' := by
    intro c hc
    cases ps with
    | nil => cases hc
    | cons q ps => exact (Option.some.inj hc).symm
  rw [hfirst]
  unfold cutBack
  by_cases heq : ch '=' ∈ pre
  · rw [if_pos heq]
    exact ⟨behind ps, hback, hamp, fun hno => absurd heq hno, fun c hc => Or.inl (hbehind c hc)⟩
  · rw [if_neg heq]
    by_cases hmem : ch '=' ∈ p
    · obtain ⟨hp, hno⟩ := piece_split hmem
      refine ⟨ch '=' :: pieceValue p ++ behind ps, ?_, ?_, fun _ => hno, ?_⟩
      · rw [← List.append_assoc, ← hp]
        exact hback
      · exact fun hin => hamp (hp ▸ List.mem_append_left _ hin)
      · exact fun c hc => Or.inr ⟨(Option.some.inj hc).symm, heq⟩
    · rw [(piece_whole hmem).1]
      exact ⟨behind ps, hback, hamp, fun _ => hmem, fun c hc => Or.inl (hbehind c hc)⟩

/-- Whether the value is read. -/
theorem Reading.toValue {start : Int} (h : Reading done start pre sw item) :
    sw.arg.item.map HttpArg.argFlag = some (decide (ch '=' ∈ pre)) := by
  rw [h.arg, tableWith_item, Option.map_some, h.texts.toValue]

theorem Resumed.toValue {n v : Option (List Byte)} (h : Resumed done pre w n v sc item) :
    sc.arg.item.map HttpArg.argFlag = some (decide (ch '=' ∈ pre)) := by
  rw [h.arg, tableWith_item, Option.map_some, h.texts.toValue]

/-- Where nothing of the stretch stands in front of the cut, none is under way. -/
theorem reading_idle {start : Int} (h : Reading done start pre sw item) (hfront : cutFront pre = []) :
    sw.tmpData = none ∧ sw.tmpLen = 0 := by
  have hdata := h.tmpData
  have hlen := h.tmpLen
  unfold cutFront at hfront
  by_cases heq : ch '=' ∈ pre
  · rw [if_pos heq] at hfront hdata hlen
    rw [hfront] at hdata hlen
    exact ⟨hdata, hlen⟩
  · rw [if_neg heq] at hfront hdata hlen
    rw [if_pos hfront] at hdata
    rw [hfront] at hlen
    exact ⟨hdata, hlen⟩

/-- What the first packet has appended, where the two parts may be told apart. -/
theorem cut_item {hint : HttpInt} (h : Reading done front.length pre sw item)
    (htmp : sw.appendTmp.run (Memory.ofList (front ++ pre)) = some t) (hne : cutFront pre ≠ [])
    (hhead : ch '=' ∈ pre → (pieceValue pre).head? ≠ some (ch '=')) :
    ∃ item', Resumed done pre []
      (some (if ch '=' ∈ pre then keptText (argFlags pre) (nameText pre) else keptText (argFlags pre) pre))
      (if ch '=' ∈ pre then some (keptText (argFlags pre) (pieceValue pre)) else none)
      { arg := t.arg, httpInt := hint } item' := by
  have hmem : front ++ pre = front ++ (pre ++ []) := by rw [List.append_nil]
  unfold cutFront at hne
  rw [hmem] at htmp
  by_cases heq : ch '=' ∈ pre
  · rw [if_pos heq] at hne
    obtain ⟨item', v, hv, rfl, hitem⟩ := appendTmp_inValue h heq htmp
    rw [(storedValue_iff _ []).mpr (hhead heq)] at hv
    cases hv
    rw [stretchTexts, if_pos heq, if_neg hne, if_neg hne] at hitem
    refine ⟨item', rfl, ?_, rfl, rfl⟩
    rw [if_pos heq, if_pos heq, List.append_nil, decide_eq_true heq]
    exact hitem
  · rw [if_neg heq] at hne
    obtain ⟨item', rfl, hitem⟩ := appendTmp_inName h heq htmp
    rw [if_neg hne] at hitem
    refine ⟨item', rfl, ?_, rfl, rfl⟩
    rw [if_neg heq, if_neg heq, List.append_nil, decide_eq_false heq]
    exact hitem

/-- What comes behind the stretch ends it. -/
theorem rest_ends {x : ArgScan} (hx : x.arg.item.map HttpArg.argFlag = some (decide (ch '=' ∈ pre)))
    (hrest : ∀ c ∈ rest.head?, c = ch '&' ∨ (c = ch '=' ∧ ch '=' ∉ pre)) : ∀ c ∈ rest.head?, EndsStretch c x := by
  intro c hc
  rcases hrest c hc with hc | ⟨hc, hno⟩
  · exact Or.inl hc
  · refine Or.inr ⟨hc, ?_⟩
    rw [hx, decide_eq_false hno]
    exact fun hfalse => Bool.false_ne_true (Option.some.inj hfalse)

section
variable {state : HttpState} {back : List Byte} {s : ArgScan} {hint : HttpInt}

/-- Nothing is appended at the cut: the second packet begins where the whole is. -/
theorem seam_idle (h : Reading done front.length pre sw item)
    (htmp : sw.appendTmp.run (Memory.ofList (front ++ pre)) = some t) (hfront : cutFront pre = [])
    (hrun : (scanArgs false state back (front ++ pre).length sw).run
      (Memory.ofList (front ++ (pre ++ back))) = some s) :
    ∃ r, (scanArgs false state back 0 { arg := t.arg, httpInt := hint }).run (Memory.ofList back) = some r ∧
      r.arg = s.arg := by
  have habove := @above_cut front pre [] back
  rw [List.append_nil, List.nil_append] at habove
  have hcur : sw.arg.cur ≠ none := by
    rw [h.arg]
    exact Option.some_ne_none _
  obtain ⟨hnone, hzero⟩ := reading_idle h hfront
  rw [appendTmp_none hnone] at htmp
  cases htmp
  have hmoved : sw = ArgScan.moved (front ++ pre).length sw.httpInt { arg := sw.arg, httpInt := hint } := by
    obtain ⟨tmpData, tmpLen, arg, httpInt⟩ := sw
    obtain rfl : tmpData = none := hnone
    obtain rfl : tmpLen = 0 := hzero
    rfl
  have hscan : (scanArgs false state back ((front ++ pre).length + 0)
      (ArgScan.moved (front ++ pre).length sw.httpInt { arg := sw.arg, httpInt := hint })).run
        (Memory.ofList (front ++ (pre ++ back))) = _ :=
    scan_moved back (fun a ha => (by cases ha)) (Int.le_refl 0) hcur
  rw [Int.add_zero, ← hmoved] at hscan
  rw [hscan, habove] at hrun
  obtain ⟨r, hr, rfl⟩ := Option.map_eq_some_iff.mp hrun
  exact ⟨r, hr, rfl⟩

/-- The stretch ends with the first packet, which appends it as the whole does. -/
theorem seam_ended (h : Reading done front.length pre sw item)
    (htmp : sw.appendTmp.run (Memory.ofList (front ++ pre)) = some t)
    (hends : ∀ c ∈ back.head?, c = ch '&' ∨ (c = ch '=' ∧ ch '=' ∉ pre))
    (hrun : (scanArgs false state back (front ++ pre).length sw).run
      (Memory.ofList (front ++ (pre ++ back))) = some s) :
    ∃ r, (scanArgs false state back 0 { arg := t.arg, httpInt := hint }).run (Memory.ofList back) = some r ∧
      r.arg = s.arg := by
  have habove := @above_cut front pre [] back
  rw [List.append_nil, List.nil_append] at habove
  have hcur : sw.arg.cur ≠ none := by
    rw [h.arg]
    exact Option.some_ne_none _
  have hlong : sw.appendTmp.run (Memory.ofList (front ++ (pre ++ back))) = some t := by
    have hle := Memory.ofList_le_append (front ++ pre) back
    rw [List.append_assoc] at hle
    exact Access.run_of_le hle htmp
  have halike : AppendAlike (front ++ pre).length (Memory.ofList (front ++ (pre ++ back))) sw
      { arg := t.arg, httpInt := hint } := by
    intro tw htw
    rw [hlong] at htw
    cases htw
    exact ⟨_, appendTmp_none rfl, rfl⟩
  have hmem : front ++ pre = front ++ (pre ++ []) := by rw [List.append_nil]
  rw [hmem] at htmp
  obtain ⟨item', v, n, u, -, rfl, hitem, -⟩ := appendTmp_reading h htmp
  have hvalue : (tableWith done item').item.map HttpArg.argFlag = some (decide (ch '=' ∈ pre)) := by
    rw [tableWith_item, Option.map_some, hitem.toValue]
  rw [← Int.add_zero ((front ++ pre).length : Int)] at hrun
  have hclosed := scan_closes halike (rest_ends h.toValue hends) (hvalue.trans h.toValue.symm) (Int.le_refl 0)
    hcur (Option.some_ne_none _) hrun
  rw [habove] at hclosed
  exact hclosed

/-- A stretch in two parts, the second one `w`, is appended and decoded as it is whole. -/
theorem seam_parts (h : Reading done front.length pre sw item)
    (htmp : sw.appendTmp.run (Memory.ofList (front ++ pre)) = some t) (hfront : cutFront pre ≠ []) (hne : w ≠ [])
    (hamp : ch '&' ∉ w) (hname : ch '=' ∉ pre → ch '=' ∉ w)
    (hends : ∀ c ∈ rest.head?, c = ch '&' ∨ (c = ch '=' ∧ ch '=' ∉ pre))
    (hheads : ch '=' ∈ pre → (pieceValue pre).head? ≠ some (ch '=') ∧ w.head? ≠ some (ch '='))
    (halike : DecodedAlike pre (cutFront pre) w)
    (hrun : (scanArgs false state (w ++ rest) (front ++ pre).length sw).run
      (Memory.ofList (front ++ (pre ++ (w ++ rest)))) = some s) :
    ∃ r, (scanArgs false state (w ++ rest) 0 { arg := t.arg, httpInt := hint }).run
      (Memory.ofList (w ++ rest)) = some r ∧ r.arg = s.arg := by
  have hplace : ((front ++ pre).length : Int) = front.length + pre.length := by
    rw [List.length_append]
    omega
  obtain ⟨item0, h0⟩ := @cut_item _ _ _ _ _ _ hint h htmp hfront fun heq => (hheads heq).1
  obtain ⟨sc, item', hscan, hresumed⟩ :=
    @resumed_scan _ _ _ _ state w _ _ _ h0 hamp hname fun heq _ => (hheads heq).2
  rw [hplace] at hrun
  obtain ⟨s1, item1, hreading, hrun⟩ := reading_scan w h hamp hrun
  have hsame : AppendAlike (front ++ pre).length (Memory.ofList (front ++ ((pre ++ w) ++ rest))) s1 sc := by
    unfold cutFront at hfront halike
    rw [List.nil_append] at hresumed
    by_cases heq : ch '=' ∈ pre
    · rw [if_pos heq] at hfront halike
      rw [if_pos heq, if_pos heq] at hresumed
      exact value_alike hreading hresumed heq hfront (hheads heq).1 hne halike
    · rw [if_neg heq] at hfront halike
      rw [if_neg heq, if_neg heq] at hresumed
      exact name_alike hreading hresumed heq (hname heq) hne halike
  have hflag : decide (ch '=' ∈ pre ++ w) = decide (ch '=' ∈ pre) := by
    apply decide_eq_decide.mpr
    rw [List.mem_append]
    refine ⟨fun hin => hin.elim id fun hin => ?_, Or.inl⟩
    by_contra hno
    exact hname hno hin
  have hread := hreading.toValue
  rw [hflag] at hread
  have hlength : (front.length : Int) + ((pre ++ w).length : Nat) = (front ++ pre).length + w.length := by
    simp only [List.length_append]
    omega
  rw [hlength] at hrun
  have hclosed := scan_closes hsame (rest_ends hread hends) (hresumed.toValue.trans hread.symm)
    (Int.natCast_nonneg w.length) (by rw [hreading.arg]; exact Option.some_ne_none _)
    (by rw [hresumed.arg]; exact Option.some_ne_none _) hrun
  rw [above_cut] at hclosed
  have hfirst := hscan (Memory.ofList (w ++ rest)) rest
  rw [List.nil_append] at hfirst
  obtain ⟨r, hr, harg⟩ := hclosed
  exact ⟨r, hfirst.trans hr, harg⟩

/-- **The second packet leaves the table that the rest of the whole leaves.** -/
theorem seam_scan (h : Reading done front.length pre sw item)
    (htmp : sw.appendTmp.run (Memory.ofList (front ++ pre)) = some t) (hseam : Seamless pre (firstPiece back))
    (hrun : (scanArgs false state back (front ++ pre).length sw).run
      (Memory.ofList (front ++ (pre ++ back))) = some s) :
    ∃ r, (scanArgs false state back 0 { arg := t.arg, httpInt := hint }).run (Memory.ofList back) = some r ∧
      r.arg = s.arg := by
  obtain ⟨rest, hback, hamp, hname, hrest⟩ := back_split pre back
  by_cases hfront : cutFront pre = []
  · exact seam_idle h htmp hfront hrun
  by_cases hnil : cutBack pre (firstPiece back) = []
  · rw [hnil, List.nil_append] at hback
    rw [← hback] at hrest
    exact seam_ended h htmp hrest hrun
  · obtain ⟨hheads, halike⟩ := (hseam.resolve_left hfront).resolve_left hnil
    have hvalue : ch '=' ∈ pre → (pieceValue pre).head? ≠ some (ch '=') ∧
        (cutBack pre (firstPiece back)).head? ≠ some (ch '=') := by
      intro heq
      rw [cutBack, if_pos heq]
      exact hheads heq
    generalize hw : cutBack pre (firstPiece back) = w at hback hamp hname hnil halike hvalue
    subst hback
    exact seam_parts h htmp hfront hnil hamp hname hrest hvalue halike hrun

end

end

/-! ## The cut -/

/-- The message has ended behind the second packet when it has ended behind the whole. -/
def SameEnd (front back : List Byte) (info mid : Http) : Prop :=
  (httpBodyCount back mid).logic.state = .none ↔ (httpBodyCount (front ++ back) info).logic.state = .none

instance (front back : List Byte) (info mid : Http) : Decidable (SameEnd front back info mid) :=
  inferInstanceAs (Decidable (_ ↔ _))

/-- The argument parser goes on behind the cut as if there were none: `info` is what it finds
in front of `front`, `mid` behind it. There is no slot left, or the message goes on and the
argument at the cut is stored alike in two parts. -/
def ArgsUncut (front back : List Byte) (info mid : Http) : Prop :=
  mid.arg.cur = none ∨ (mid.logic.state ≠ .none ∧ SameEnd front back info mid ∧
    Seamless (lastPiece front) (firstPiece back))

/-- No argument is under way. -/
structure TableClosed (a : HttpArgCtrl) : Prop where
  cur : a.cur = none
  maxNum : a.maxNum = 32
  length : a.arg.length ≤ 32

section
variable {front back : List Byte} {info mid whole : Http}

/-- A call that starts with a free slot, as a scan. -/
theorem parseBody_scan {data : List Byte} {arg : HttpArgCtrl} (hne : data ≠ []) (hargs : ArgBody info)
    (harg : (if info.arg.cur = none then httpGetEmptyArg info.arg else info.arg) = arg) (hcur : arg.cur ≠ none) :
    parseBody info data = ((scanArgs false (httpBodyCount data info).logic.state data 0
      { arg := arg, httpInt := (httpBodyCount data info).httpInt }).run (Memory.ofList data)).map fun s =>
        { httpBodyCount data info with arg := s.arg, httpInt := s.httpInt } := by
  have hsame := (httpBodyCount_arg data info).1
  have hscan := @httpParseArgs_scan (httpBodyCount data info) arg data [] false (by rw [hsame]; exact harg) hcur
  rw [List.append_nil] at hscan
  rw [parseBody_args hne hargs, hscan]

/-- The integers are not read. -/
theorem scan_ints {state : HttpState} {data : List Byte} {arg : HttpArgCtrl} {n n' : HttpInt} {w : ArgScan}
    (hcur : arg.cur ≠ none)
    (h : (scanArgs false state data 0 { arg := arg, httpInt := n }).run (Memory.ofList data) = some w) :
    ∃ r, (scanArgs false state data 0 { arg := arg, httpInt := n' }).run (Memory.ofList data) = some r ∧
      r.arg = w.arg := by
  have hzero : (Memory.ofList data).above 0 = Memory.ofList data := Memory.above_ofList [] data
  have hscan : (scanArgs false state data (0 + 0) (ArgScan.moved 0 n { arg := arg, httpInt := n' })).run
      (Memory.ofList data) = _ := scan_moved data (fun a ha => (by cases ha)) (Int.le_refl 0) hcur
  rw [hzero] at hscan
  rw [show ArgScan.moved 0 n { arg := arg, httpInt := n' } = { arg := arg, httpInt := n } from rfl,
    Int.add_zero, h] at hscan
  obtain ⟨r, hr, rfl⟩ := Option.map_eq_some_iff.mp hscan.symm
  exact ⟨r, hr, rfl⟩

theorem table_room {done : List HttpArg} {item : HttpArg} (h : done.length < 32) :
    (tableWith done item).arg.length ≤ (tableWith done item).maxNum := by
  show (done ++ [item]).length ≤ 32
  rw [List.length_append]
  exact h

/-- While the message goes on the end of a packet appends the stretch and nothing else. -/
theorem end_more {state : HttpState} {s t : ArgScan} {m : Memory Byte} (h : state ≠ .none)
    (hrun : (httpParseArgsEnd false state s).run m = some t) : s.appendTmp.run m = some t := by
  unfold httpParseArgsEnd at hrun
  obtain ⟨t', ht', hrest⟩ := Option.bind_eq_some_iff.mp hrun
  dsimp only at hrest
  rw [if_neg Bool.false_ne_true, if_neg h] at hrest
  cases hrest
  exact ht'

/-- A full table takes nothing from the second packet either. -/
theorem full_cut (hback : back ≠ []) (hargs : ArgBody mid) (hcur : mid.arg.cur = none)
    (hfull : mid.arg.maxNum ≤ mid.arg.arg.length) (hwhole : whole.arg = mid.arg) :
    ∃ r, parseBody mid back = some r ∧ r.arg.arg = whole.arg.arg := by
  obtain ⟨r, hr, harg⟩ := parseBody_full hback hargs hcur hfull
  exact ⟨r, hr, by rw [harg, hwhole]⟩

/-- **A body that is cut so leaves the arguments it leaves whole.** -/
theorem args_cut (hclosed : TableClosed info.arg) (hfront : front ≠ []) (hback : back ≠ [])
    (hargs : ArgBody info) (hmid : parseBody info front = some mid) (h : ArgsUncut front back info mid)
    (hwhole : parseBody info (front ++ back) = some whole) :
    ∃ r, parseBody mid back = some r ∧ r.arg.arg = whole.arg.arg := by
  have hall : front ++ back ≠ [] := List.append_ne_nil_of_left_ne_nil hfront back
  have hargs' : ArgBody mid := by
    unfold ArgBody
    rw [(parseBody_frame hfront hmid).logic, (httpBodyCount_arg front info).2]
    exact hargs
  by_cases hroom : info.arg.arg.length < 32
  · have hempty : (if info.arg.cur = none then httpGetEmptyArg info.arg else info.arg) =
        tableWith info.arg.arg {} := by
      rw [if_pos hclosed.cur]
      exact emptyArg_room hclosed.maxNum hroom
    have hcur0 : (tableWith info.arg.arg {}).cur ≠ none := Option.some_ne_none _
    have hstate := (parseBody_frame hfront hmid).logic
    rw [parseBody_scan hfront hargs hempty hcur0] at hmid
    rw [parseBody_scan hall hargs hempty hcur0] at hwhole
    obtain ⟨t, ht, hmid⟩ := Option.map_eq_some_iff.mp hmid
    obtain ⟨w, hw, hwhole⟩ := Option.map_eq_some_iff.mp hwhole
    have hmidArg : mid.arg = t.arg := by rw [← hmid]
    have hwholeArg : whole.arg = w.arg := by rw [← hwhole]
    -- the whole, up to the cut
    obtain ⟨w', hw', harg⟩ := @scan_ints _ _ _ _ (httpBodyCount front info).httpInt _ hcur0 hw
    rw [scanArgs_append front back hcur0, Int.zero_add] at hw'
    obtain ⟨s1, hs1, hend⟩ := Option.bind_eq_some_iff.mp ht
    dsimp only at hend
    rw [Access.run_of_le (Memory.ofList_le_append front back) hs1, Option.bind_some] at hw'
    have hstart : Reading info.arg.arg (([] : List Byte).length : Nat) []
        { arg := tableWith info.arg.arg {}, httpInt := (httpBodyCount front info).httpInt } {} :=
      ⟨rfl, emptyItem_holds, rfl, rfl⟩
    rcases loop_reading front hstart List.not_mem_nil hroom hs1 with hnone | ⟨front', done', item', hsplit, hread⟩
    · -- the table was full in front of the cut
      rw [if_pos hnone] at hend hw'
      have htook := httpParseArgsLoop_took front hcur0 (table_room hroom) _ _ hs1
      have hmax : s1.arg.maxNum = 32 := htook.maxNum
      have hfull : s1.arg.maxNum ≤ s1.arg.arg.length := by
        have hlt : 32 < _ := htook.full hnone
        have hlength : s1.arg.arg.length = min 32 _ := htook.length
        omega
      cases hend
      cases hw'
      exact full_cut hback hargs' (hmidArg ▸ hnone) (hmidArg ▸ hfull)
        (hwholeArg.trans (harg.symm.trans hmidArg.symm))
    · have hcur : s1.arg.cur ≠ none := by
        rw [hread.arg]
        exact Option.some_ne_none _
      rw [if_neg hcur] at hend hw'
      have hkept : t.arg.cur = s1.arg.cur := (httpParseArgsEnd_slots _ _ hend).cur
      have hmidCur : mid.arg.cur ≠ none := by
        rw [hmidArg, hkept]
        exact hcur
      obtain ⟨hmore, hended, hseam⟩ := h.resolve_left hmidCur
      -- the first packet only appends its part of the stretch
      rw [hstate] at hmore
      have htmp := end_more hmore hend
      rw [List.nil_append, List.nil_append] at hsplit
      rw [List.nil_append] at hread
      generalize lastPiece front = pre at hsplit hread hseam
      subst hsplit
      rw [scanArgs_state hended.symm] at hw'
      rw [List.append_assoc] at hw'
      obtain ⟨r, hr, harg'⟩ := @seam_scan _ _ _ _ _ _ _ _ _ (httpBodyCount back mid).httpInt hread htmp hseam hw'
      have hsecond := parseBody_scan hback hargs' (if_neg hmidCur) hmidCur
      rw [hmidArg, hr, Option.map_some] at hsecond
      exact ⟨_, hsecond, by rw [harg', harg, hwholeArg]⟩
  · -- the head has filled the table
    have hfull : info.arg.maxNum ≤ info.arg.arg.length := by
      rw [hclosed.maxNum]
      exact Nat.not_lt.mp hroom
    obtain ⟨mid', hmid', harg⟩ := parseBody_full hfront hargs hclosed.cur hfull
    obtain ⟨whole', hwhole', harg'⟩ := parseBody_full hall hargs hclosed.cur hfull
    rw [hmid] at hmid'
    rw [hwhole] at hwhole'
    cases hmid'
    cases hwhole'
    exact full_cut hback hargs' (harg ▸ hclosed.cur) (harg ▸ hfull) (harg'.trans harg.symm)

end

end WafProxy
