import WafProxy.Http.Strings

/-
  The slots of the argument table

  Every `&` the argument parser meets takes one more slot, until the table is
  full; nothing else changes their number. So a text that starts with no
  current item takes one slot for each of the arguments `&` separates in it,
  as far as the table goes (`httpParseArgs_slots`).
-/

namespace WafProxy
open Lib

/-- The number of texts `&` separates. -/
def argCount (text : List Byte) : Nat := text.count (ch '&') + 1

/-- The same slots, the same current item and the same room. -/
structure SameSlots (a b : HttpArgCtrl) : Prop where
  length : b.arg.length = a.arg.length
  cur : b.cur = a.cur
  maxNum : b.maxNum = a.maxNum

theorem SameSlots.refl (a : HttpArgCtrl) : SameSlots a a := ⟨rfl, rfl, rfl⟩

theorem SameSlots.trans {a b c : HttpArgCtrl} (h : SameSlots a b) (h' : SameSlots b c) :
    SameSlots a c := ⟨h'.length.trans h.length, h'.cur.trans h.cur, h'.maxNum.trans h.maxNum⟩

theorem sameSlots_onCur (a : HttpArgCtrl) (f : HttpArg → HttpArg) : SameSlots a (a.onCur f) := by
  unfold HttpArgCtrl.onCur
  split
  · exact ⟨List.length_modify .., rfl, rfl⟩
  · exact SameSlots.refl a

theorem httpAppendArg_slots {value : List Byte} {a b : HttpArgCtrl}
    (h : httpAppendArg value a = some b) : SameSlots a b := by
  unfold httpAppendArg at h
  split at h
  · cases h
    exact SameSlots.refl a
  · split at h
    · cases h
    · obtain ⟨item, -, rfl⟩ := Option.map_eq_some_iff.mp h
      exact sameSlots_onCur a _

theorem appendTmp_slots (s : ArgScan) : s.appendTmp.Ensures fun r => SameSlots s.arg r.arg := by
  unfold ArgScan.appendTmp
  split
  · exact Access.ensures_pure (SameSlots.refl _)
  · apply Access.ensures_then
    intro value
    refine Access.Ensures.bind (Access.ensures_ofOption fun a ha => httpAppendArg_slots ha) ?_
    intro arg harg
    exact Access.ensures_pure harg

theorem appendNul_slots (s : ArgScan) : s.appendNul.Ensures fun r => SameSlots s.arg r.arg := by
  unfold ArgScan.appendNul
  refine Access.Ensures.bind (Access.ensures_ofOption fun a ha => httpAppendArg_slots ha) ?_
  intro arg harg
  exact Access.ensures_pure harg

/-! ## Taking slots -/

/-- `b` has `k` slots more than `a`, or is full without a current item. -/
structure Took (k : Nat) (a b : HttpArgCtrl) : Prop where
  length : b.arg.length = min a.maxNum (a.arg.length + k)
  maxNum : b.maxNum = a.maxNum
  full : b.cur = none → a.maxNum < a.arg.length + k

theorem SameSlots.took {a b : HttpArgCtrl} (h : SameSlots a b) (hcur : a.cur ≠ none)
    (hle : a.arg.length ≤ a.maxNum) : Took 0 a b where
  length := by rw [h.length, Nat.add_zero, Nat.min_eq_right hle]
  maxNum := h.maxNum
  full hb := absurd (h.cur ▸ hb) hcur

theorem httpGetEmptyArg_took {a : HttpArgCtrl} (hle : a.arg.length ≤ a.maxNum) :
    Took 1 a (httpGetEmptyArg a) := by
  unfold httpGetEmptyArg
  split
  · next hfull =>
    refine ⟨?_, rfl, fun _ => Nat.lt_succ_of_le hfull⟩
    show a.arg.length = min a.maxNum (a.arg.length + 1)
    omega
  · next hroom =>
    refine ⟨?_, rfl, fun h => by cases h⟩
    show (a.arg ++ [({} : HttpArg)]).length = min a.maxNum (a.arg.length + 1)
    rw [List.length_append, List.length_singleton]
    omega

theorem Took.same {k : Nat} {a b c : HttpArgCtrl} (h : Took k a b) (h' : SameSlots b c) : Took k a c :=
  ⟨h'.length.trans h.length, h'.maxNum.trans h.maxNum, fun hc => h.full (h'.cur ▸ hc)⟩

theorem SameSlots.then_took {k : Nat} {a b c : HttpArgCtrl} (h : SameSlots a b) (h' : Took k b c) :
    Took k a c where
  length := by rw [h'.length, h.length, h.maxNum]
  maxNum := h'.maxNum.trans h.maxNum
  full hc := by
    have hlt := h'.full hc
    rw [h.length, h.maxNum] at hlt
    exact hlt

/-- Slots are taken one after the other; a full table takes no more. -/
theorem Took.trans {j k : Nat} {a b c : HttpArgCtrl} (h : Took j a b) (h' : Took k b c) :
    Took (j + k) a c where
  length := by
    rw [h'.length, h.length, h.maxNum]
    omega
  maxNum := h'.maxNum.trans h.maxNum
  full hc := by
    have hlt := h'.full hc
    rw [h.length, h.maxNum] at hlt
    omega

/-- A table that is full and without a current item has taken any number of
slots beyond its room. -/
theorem Took.stop {j k : Nat} {a b : HttpArgCtrl} (h : Took j a b) (hb : b.cur = none) :
    Took (j + k) a b where
  length := by
    have hlt := h.full hb
    rw [h.length]
    omega
  maxNum := h.maxNum
  full _ := by
    have hlt := h.full hb
    omega

/-! ## The parser -/

theorem httpParseArgsByte_took {inUrl : Bool} {begin : Int} {c : Byte} {s : ArgScan}
    (hcur : s.arg.cur ≠ none) (hle : s.arg.arg.length ≤ s.arg.maxNum) :
    (httpParseArgsByte inUrl begin c s).Ensures fun r => Took ([c].count (ch '&')) s.arg r.arg := by
  have hsame : ∀ r : ArgScan, c ≠ ch '&' → SameSlots s.arg r.arg →
      Took ([c].count (ch '&')) s.arg r.arg := by
    intro r hc h
    rw [List.count_singleton, if_neg (by simpa using hc)]
    exact h.took hcur hle
  unfold httpParseArgsByte
  split
  · next hc =>
    apply Access.ensures_pure
    apply hsame
    · rcases hc with rfl | rfl <;> decide
    · exact sameSlots_onCur _ _
  · split
    · next hc =>
      apply Access.ensures_pure
      apply hsame
      · rw [hc]
        decide
      · exact sameSlots_onCur _ _
    · split
      · next hc =>
        refine (appendTmp_slots s).bind ?_
        intro s' hs'
        apply Access.ensures_pure
        rw [hc, List.count_singleton_self]
        have hdone : SameSlots s.arg (s'.arg.onCur fun i => { i with completeFlag := true }) :=
          hs'.trans (sameSlots_onCur _ _)
        have htook := httpGetEmptyArg_took
          (a := s'.arg.onCur fun i => { i with completeFlag := true })
          (by rw [hdone.length, hdone.maxNum]; exact hle)
        exact (hdone.then_took htook).same (sameSlots_onCur _ _)
      · next hamp =>
        split
        · split
          · refine (appendTmp_slots s).bind ?_
            intro s' hs'
            refine Access.Ensures.bind (appendNul_slots _) ?_
            intro s'' hs''
            apply Access.ensures_pure
            exact hsame _ hamp ((hs'.trans hs'').trans (sameSlots_onCur _ _))
          · exact Access.ensures_pure (hsame _ hamp (SameSlots.refl _))
        · exact Access.ensures_pure (hsame _ hamp (SameSlots.refl _))

theorem httpParseArgsLoop_took {inUrl : Bool} (data : List Byte) : ∀ {begin : Int} {s : ArgScan},
    s.arg.cur ≠ none → s.arg.arg.length ≤ s.arg.maxNum →
    (httpParseArgsLoop inUrl data begin s).Ensures fun r =>
      Took (data.count (ch '&')) s.arg r.arg := by
  induction data with
  | nil =>
    intro begin s hcur hle
    exact Access.ensures_pure ((SameSlots.refl _).took hcur hle)
  | cons c data ih =>
    intro begin s hcur hle
    have hcount : (c :: data).count (ch '&') = [c].count (ch '&') + data.count (ch '&') := by
      rw [← List.count_append]
      rfl
    rw [hcount]
    refine (httpParseArgsByte_took hcur hle).bind ?_
    intro s' hs'
    split
    · next hnone => exact Access.ensures_pure (hs'.stop hnone)
    · next hsome =>
      refine (ih hsome ?_).mono fun r hr => hs'.trans hr
      rw [hs'.length, hs'.maxNum]
      exact Nat.min_le_left _ _

theorem httpParseArgsEnd_slots {inUrl : Bool} {state : HttpState} {s : ArgScan} :
    (httpParseArgsEnd inUrl state s).Ensures fun r => SameSlots s.arg r.arg := by
  refine (appendTmp_slots s).bind ?_
  intro s' hs'
  split
  · refine (appendNul_slots s').bind ?_
    intro s'' hs''
    exact Access.ensures_pure ((hs'.trans hs'').trans (sameSlots_onCur _ _))
  · split
    · refine (appendNul_slots s').bind ?_
      intro s'' hs''
      exact Access.ensures_pure ((hs'.trans hs'').trans (sameSlots_onCur _ _))
    · exact Access.ensures_pure hs'

/-- **A text that starts with no current item takes one slot for each of its
arguments**, as far as the table goes. -/
theorem httpParseArgs_slots {info r : Http} {dataLen : Int} {inUrl : Bool} {m : Memory Byte}
    {text : List Byte} (hcur : info.arg.cur = none) (hle : info.arg.arg.length ≤ info.arg.maxNum)
    (htext : (Access.slice 0 dataLen.toNat).run m = some text)
    (h : (httpParseArgs info dataLen inUrl).run m = some r) :
    Took (argCount text) info.arg r.arg := by
  have htook := httpGetEmptyArg_took hle
  have hcount : argCount text = 1 + text.count (ch '&') := Nat.add_comm _ _
  rw [hcount]
  unfold httpParseArgs at h
  dsimp only at h
  rw [if_pos hcur] at h
  split at h
  · next hnone =>
    cases h
    exact htook.stop hnone
  · next hsome =>
    rw [Access.run_bind, htext, Option.bind_some, Access.run_bind] at h
    obtain ⟨s, hs, h⟩ := Option.bind_eq_some_iff.mp h
    have hloop : Took (1 + text.count (ch '&')) info.arg s.arg := by
      refine htook.trans (httpParseArgsLoop_took text hsome ?_ m s hs)
      rw [htook.length, htook.maxNum]
      exact Nat.min_le_left _ _
    split at h
    · cases h
      exact hloop
    · obtain ⟨s', hs', h⟩ := Option.bind_eq_some_iff.mp h
      cases h
      exact hloop.same (httpParseArgsEnd_slots m s' hs')

end WafProxy
