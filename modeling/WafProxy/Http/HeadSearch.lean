import WafProxy.Http.Packets
import WafProxy.Lib.Machine

/-
  The search for the end of a head — `s_http_parse` of http.c

  The state is an index of `jump_buf`, which has four characters and a NUL. It
  is 4 when the head has ended, and `do_http_parse_test` goes on calling the
  search in that state.

  What is proved:
    1. `searchChunks_flatten` — the calls on chunks do what one call on the
       whole stream does.
    2. `head_search` — they stop behind the first CRLFCRLF, or consume
       everything.
    3. `search_inRange_iff` — in a run of `do_http_parse_test` every index is one
       of `jump_buf` exactly when no packet behind a head starts with a NUL, the
       byte that `jump_buf[4]` matches.

  Correspondence (C ↔ Lean):
    the calls until `local->state` is 4  ↔ `searchChunks`
    an index of `jump_buf`, or none      ↔ a result of `sHttpParse`, or `none`
    a run of `do_http_parse_test`        ↔ a run of `packetMachine`
-/

namespace WafProxy
open Lib

/-! ## Chunks -/

/-- The calls of `s_http_parse` on the chunks, until the state is 4: the bytes
they consume and the state they leave. -/
def searchChunks : List (List Byte) → Nat → Option (Nat × Nat)
  | [], lstate => some (0, lstate)
  | chunk :: chunks, lstate => do
    let (n, lstate) ← sHttpParse chunk lstate
    if lstate = 4 then some (n, 4)
    else
      let (k, lstate) ← searchChunks chunks lstate
      some (n + k, lstate)

/-- A search that has not ended goes on where it was. -/
theorem sHttpParse_append (a b : List Byte) : ∀ {lstate : Nat}, lstate ≠ 4 →
    sHttpParse (a ++ b) lstate = (sHttpParse a lstate).bind fun out =>
      if out.2 = 4 then some out
      else (sHttpParse b out.2).map fun rest => (out.1 + rest.1, rest.2) := by
  induction a with
  | nil =>
    intro lstate h4
    simp [sHttpParse, h4]
  | cons c a ih =>
    intro lstate _
    rw [List.cons_append, sHttpParse, sHttpParse]
    cases sHttpParseByte lstate c with
    | none => rfl
    | some lstate' =>
      simp only [Option.bind_eq_bind, Option.bind_some]
      by_cases h : lstate' = 4
      · simp [h]
      · rw [if_neg h, if_neg h, ih h]
        cases sHttpParse a lstate' with
        | none => rfl
        | some out =>
          simp only [Option.bind_some]
          -- the search ends within the first part, or goes on behind it
          by_cases hout : out.2 = 4
          · simp [hout]
          · rw [if_neg hout, if_neg hout]
            cases sHttpParse b out.2 with
            | none => rfl
            | some rest =>
              simp only [Option.map_some, Option.bind_some, Option.some.injEq, Prod.mk.injEq, and_true]
              omega

/-- The chunks are searched as their concatenation is. -/
theorem searchChunks_flatten (chunks : List (List Byte)) : ∀ {lstate : Nat}, lstate ≠ 4 →
    searchChunks chunks lstate = sHttpParse chunks.flatten lstate := by
  induction chunks with
  | nil =>
    intro lstate _
    rfl
  | cons chunk chunks ih =>
    intro lstate h4
    rw [List.flatten_cons, sHttpParse_append chunk _ h4, searchChunks]
    cases sHttpParse chunk lstate with
    | none => rfl
    | some out =>
      simp only [Option.bind_eq_bind, Option.bind_some]
      by_cases hout : out.2 = 4
      · rw [if_pos hout, if_pos hout, ← hout]
      · rw [if_neg hout, if_neg hout, ih hout]
        cases sHttpParse chunks.flatten out.2 with
        | none => rfl
        | some rest => rfl

/-- **The search stops behind the first CRLFCRLF**, and consumes every byte of a
stream without one; wherever the stream is cut. -/
theorem head_search (chunks : List (List Byte)) :
    (headMark <:+: chunks.flatten → ∃ head rest, IsHead head ∧ chunks.flatten = head ++ rest ∧
      searchChunks chunks 0 = some (head.length, 4)) ∧
    (¬ headMark <:+: chunks.flatten → ∃ lstate < 4,
      searchChunks chunks 0 = some (chunks.flatten.length, lstate)) ∧
    ∀ cut : List (List Byte), cut.flatten = chunks.flatten → searchChunks cut 0 = searchChunks chunks 0 := by
  have hzero : (0 : Nat) ≠ 4 := by decide
  refine ⟨?_, ?_, ?_⟩
  · intro hmark
    obtain ⟨head, rest, hhead, hsplit⟩ := exists_isHead _ hmark
    refine ⟨head, rest, hhead, hsplit, ?_⟩
    rw [searchChunks_flatten chunks hzero, hsplit, sHttpParse_head hhead]
  · intro hmark
    have hopen := @sHttpParse_open chunks.flatten []
      fun q hq hsuf => hmark (hsuf.isInfix.trans hq.isInfix)
    rw [List.reverse_nil, tailState_nil, List.nil_append] at hopen
    refine ⟨tailState chunks.flatten.reverse, ?_, ?_⟩
    · have hne : tailState chunks.flatten.reverse ≠ 4 :=
        fun h4 => hmark (tailState_four.mp h4).isInfix
      rcases tailState_cases chunks.flatten.reverse with h | h | h | h | h
      · exact absurd h hne
      all_goals
        rw [h.1]
        decide
    · rw [searchChunks_flatten chunks hzero, hopen]
  · intro cut hcut
    rw [searchChunks_flatten cut hzero, searchChunks_flatten chunks hzero, hcut]

/-! ## The range of the state -/

/-- In front of the end of a head, one byte leads to an index of `jump_buf`. -/
theorem sHttpParseByte_range {lstate : Nat} (h : lstate < 4) (c : Byte) :
    ∃ next, sHttpParseByte lstate c = some next ∧ next ≤ 4 := by
  by_cases hr : c = 13
  · subst hr
    match lstate with
    | 0 => exact ⟨1, by decide, by decide⟩
    | 1 => exact ⟨1, by decide, by decide⟩
    | 2 => exact ⟨3, by decide, by decide⟩
    | 3 => exact ⟨1, by decide, by decide⟩
  · by_cases hn : c = 10
    · subst hn
      match lstate with
      | 0 => exact ⟨0, by decide, by decide⟩
      | 1 => exact ⟨2, by decide, by decide⟩
      | 2 => exact ⟨0, by decide, by decide⟩
      | 3 => exact ⟨4, by decide, by decide⟩
    · exact ⟨0, sHttpParseByte_other hr hn h, by decide⟩

/-- The search from there reads `jump_buf` only, whatever it is given. -/
theorem sHttpParse_range (data : List Byte) : ∀ {lstate : Nat}, lstate < 4 →
    ∃ n next, sHttpParse data lstate = some (n, next) ∧ next ≤ 4 := by
  induction data with
  | nil =>
    intro lstate h
    exact ⟨0, lstate, rfl, Nat.le_of_lt h⟩
  | cons c data ih =>
    intro lstate h
    obtain ⟨next, hbyte, hnext⟩ := sHttpParseByte_range h c
    rw [sHttpParse, hbyte]
    simp only [Option.bind_eq_bind, Option.bind_some]
    by_cases h4 : next = 4
    · rw [if_pos h4]
      exact ⟨1, 4, rfl, Nat.le_refl 4⟩
    · obtain ⟨n, last, hrest, hlast⟩ := ih (show next < 4 by omega)
      rw [if_neg h4, hrest]
      exact ⟨n + 1, last, rfl, hlast⟩

/-- Behind the end of a head it does so unless the first byte is a NUL. -/
theorem sHttpParse_four_iff (packet : List Byte) :
    (∃ n next, sHttpParse packet 4 = some (n, next) ∧ next ≤ 4) ↔ packet.head? ≠ some 0 := by
  cases packet with
  | nil => simp [sHttpParse]
  | cons c data =>
    constructor
    · rintro ⟨n, next, h, -⟩
      exact (sHttpParse_afterHead (List.cons_ne_nil c data) h).1
    · intro hne
      have hc : c ≠ 0 := by simpa using hne
      obtain ⟨n, next, h, hle⟩ := sHttpParse_range (c :: data) (show 0 < 4 by decide)
      refine ⟨n, next, ?_, hle⟩
      rw [sHttpParse, sHttpParseByte_afterHead hc]
      rw [sHttpParse] at h
      exact h

/-- The search is entered in the state of the packet before. -/
theorem parsePacket_search {info r : Http} {packet : List Byte} {ret : Int}
    (h : parsePacket info packet = some (ret, r)) :
    ∃ n, sHttpParse packet info.loc.state = some (n, r.loc.state) := by
  have hlog := parsePacketLog_fst 0 info packet
  rw [h, Option.map_some] at hlog
  obtain ⟨⟨r', log⟩, hrun, rfl⟩ := Option.map_eq_some_iff.mp hlog
  obtain ⟨n, hsearch, -⟩ := parsePacketLog_calls hrun
  exact ⟨n, hsearch⟩

/-- One packet keeps the state in range. -/
theorem parsePacket_range {info r : Http} {packet : List Byte} {ret : Int} (hle : info.loc.state ≤ 4)
    (h : parsePacket info packet = some (ret, r)) : r.loc.state ≤ 4 := by
  obtain ⟨n, hsearch⟩ := parsePacket_search h
  by_cases h4 : info.loc.state = 4
  · rw [h4] at hsearch
    cases packet with
    | nil =>
      have hsame := (Prod.mk.inj (Option.some.inj hsearch)).2
      omega
    | cons c data =>
      obtain ⟨hne, -⟩ := sHttpParse_afterHead (List.cons_ne_nil c data) hsearch
      obtain ⟨n', next, hrange, hnext⟩ := (sHttpParse_four_iff (c :: data)).mpr hne
      rw [hsearch] at hrange
      cases hrange
      exact hnext
  · obtain ⟨n', next, hrange, hnext⟩ := sHttpParse_range packet (show info.loc.state < 4 by omega)
    rw [hsearch] at hrange
    cases hrange
    exact hnext

/-! ## Runs -/

/-- `do_http_parse_test` on one packet after the other. -/
def packetMachine : Machine Http (List Byte) where
  init := Http.zero
  step info packet := (parsePacket info packet).map Prod.snd

/-- The state is in 0..4, and the search in the packet that is given now leaves it there and
reads no index behind `jump_buf`. -/
def SearchFits (info : Http) (packet : List Byte) : Prop :=
  info.loc.state ≤ 4 ∧ ∃ n next, sHttpParse packet info.loc.state = some (n, next) ∧ next ≤ 4

/-- The search fits in every step of the run, and the state at its end is in range. -/
def SearchInRange (packets : List (List Byte)) : Prop :=
  packetMachine.Meets SearchFits packetMachine.init packets ∧
    ∀ r, packetMachine.run packetMachine.init packets = some r → r.loc.state ≤ 4

/-- A packet that is given in state 4 does not start with a NUL. -/
def NoNulBehindHead (info : Http) (packet : List Byte) : Prop :=
  info.loc.state = 4 → packet.head? ≠ some 0

/-- One packet. -/
theorem searchFits_iff {info : Http} (hle : info.loc.state ≤ 4) (packet : List Byte) :
    SearchFits info packet ↔ NoNulBehindHead info packet := by
  by_cases h4 : info.loc.state = 4
  · unfold SearchFits NoNulBehindHead
    rw [h4, sHttpParse_four_iff packet]
    simp
  · refine iff_of_true ⟨hle, sHttpParse_range packet (by omega)⟩ fun h => absurd h h4

/-- **Where the search stays within `jump_buf`**: in the runs in which no packet behind a
head starts with a NUL. -/
theorem search_inRange_iff (packets : List (List Byte)) :
    SearchInRange packets ↔ packetMachine.Meets NoNulBehindHead packetMachine.init packets := by
  have hinit : packetMachine.init.loc.state ≤ 4 := Nat.zero_le 4
  have hstep : ∀ info packet r, info.loc.state ≤ 4 → packetMachine.step info packet = some r →
      r.loc.state ≤ 4 := by
    intro info packet r hle h
    obtain ⟨⟨ret, r'⟩, hpacket, rfl⟩ := Option.map_eq_some_iff.mp h
    exact parsePacket_range hle hpacket
  have hmeets : packetMachine.Meets SearchFits packetMachine.init packets ↔
      packetMachine.Meets NoNulBehindHead packetMachine.init packets :=
    Machine.meets_congr hstep (fun info packet hle => @searchFits_iff info hle packet) hinit
  refine ⟨fun h => hmeets.mp h.1, fun h => ⟨hmeets.mpr h, ?_⟩⟩
  intro r hrun
  exact Machine.run_inv' hstep hinit hrun

/-- A NUL behind a whole head: `jump_buf[5]` is read. -/
theorem search_outOfRange : ¬ SearchInRange [getHead, [0]] := by
  intro h
  have hstate : (parsePacket Http.zero getHead).map (·.2.loc.state) = some 4 := by decide +kernel
  obtain ⟨⟨ret, info⟩, hpacket, h4⟩ := Option.map_eq_some_iff.mp hstate
  have hstep : packetMachine.step packetMachine.init getHead = some info := by
    show (parsePacket Http.zero getHead).map Prod.snd = some info
    rw [hpacket, Option.map_some]
  obtain ⟨-, n, next, hnul, -⟩ := (h.1.2 info hstep).1
  have hnone : sHttpParse [0] 4 = none := by decide
  rw [show info.loc.state = 4 from h4, hnone] at hnul
  cases hnul

end WafProxy
