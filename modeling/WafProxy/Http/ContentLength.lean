import WafProxy.Http.Frame

/-
  Content-Length framing — http_parse_body on a body in segments

  `http_parse_body` counts `un_recv_content_len` down from what `http_t` was
  zeroed with; `parse_conl` stores the length elsewhere. This file

   1. gives a body to the parser in segments (`parseBodies`);
   2. says where the state should change (`FramedBy`);
   3. computes where it does change (`parseBodies_state`): on the first segment,
      and again where the 32-bit counter wraps;
   4. concludes when the two agree (`content_length_framing`).

  The subtraction wraps, as it does on the machine; in C it is undefined from
  the first wrap on.
-/

namespace WafProxy
open Lib

/-! ## Bodies in segments -/

/-- `http_parse_body` on a segment. -/
def parseBody (info : Http) (segment : List Byte) : Option Http :=
  (httpParseBody segment.length info).run (Memory.ofList segment)

/-- The state after each segment. -/
def parseBodies : Http → List (List Byte) → Option (List Http)
  | _, [] => some []
  | info, segment :: segments =>
    (parseBody info segment).bind fun r => (parseBodies r segments).map (r :: ·)

/-- The bytes in the segments up to number `i`. -/
def passed (segments : List (List Byte)) (i : Nat) : Nat :=
  (segments.take (i + 1)).flatten.length

/-- The state ends with the segment that brings the bytes passed to `N`. -/
def FramedBy (N : Nat) (segments : List (List Byte)) (states : List Http) : Prop :=
  ∀ i r, states[i]? = some r → r.logic.state = if N ≤ passed segments i then .none else .body

/-- A header line `Content-Length` with the decimal number `N`. -/
def ContentLengthLine (N : Nat) (line : List Byte) : Prop :=
  ∃ name blanks value, line = name ++ [ch ':'] ++ blanks ++ value ∧
    name.map tolower = str "content-length" ∧ (∀ c ∈ blanks, c = ch ' ' ∨ c = ch '\t') ∧
    value ≠ [] ∧ value.length ≤ 23 ∧ (∀ c ∈ value, isdigit c = true) ∧ digits 10 0 value = N

/-- A head that is not chunked, has a Content-Length of `N`, and leaves `info`. -/
structure ContentLengthHead (head : List Byte) (N : Nat) (info : Http) : Prop where
  line : ∃ before line after, head = before ++ str "\r\n" ++ line ++ str "\r\n" ++ after ∧
    ContentLengthLine N line
  parsed : (httpParseHead head.length Http.zero).run (Memory.ofList head) = some info
  plain : info.logic.isChunked = false

/-! ## What a body goes to -/

theorem slice_whole (l : List Byte) :
    (Access.slice 0 l.length).run (Memory.ofList l) = some l := by
  have h := Access.slice_ofList [] l []
  simpa using h

/-- A segment is counted, then its bytes go to the argument parser. -/
theorem parseBody_frame {info r : Http} {segment : List Byte} (hne : segment ≠ [])
    (h : parseBody info segment = some r) : BodyFrame (httpBodyCount segment info) r := by
  have hpos : ¬ (segment.length : Int) ≤ 0 := by
    have := List.length_pos_iff.mpr hne
    omega
  unfold parseBody httpParseBody at h
  rw [if_neg hpos, Access.run_bind, Int.toNat_natCast, slice_whole, Option.bind_some] at h
  exact httpParseBodyArgs_frame _ r h

theorem httpBodyCount_arg (body : List Byte) (info : Http) :
    (httpBodyCount body info).arg = info.arg ∧
    (httpBodyCount body info).logic.contentType = info.logic.contentType := by
  unfold httpBodyCount recvChunk httpSetState Http.withInt
  dsimp only
  split
  · split <;> exact ⟨rfl, rfl⟩
  · exact ⟨rfl, rfl⟩

/-- A body that is no form and no AMF message goes to the argument parser. -/
def ArgBody (info : Http) : Prop :=
  info.logic.contentType ≠ .multiform ∧ info.logic.contentType ≠ .amf

theorem httpParseBodyArgs_eq {dataLen : Int} {info : Http} (hpos : 0 < dataLen) (h : ArgBody info) :
    httpParseBodyArgs dataLen info = httpParseArgs info dataLen false := by
  unfold httpParseBodyArgs
  rw [if_neg (by omega)]
  split
  · next hm => exact absurd hm h.1
  · next ha => exact absurd ha h.2
  · rfl

/-- A segment goes to the argument parser whole. -/
theorem parseBody_args {segment : List Byte} {info : Http} (hne : segment ≠ []) (h : ArgBody info) :
    parseBody info segment =
      (httpParseArgs (httpBodyCount segment info) segment.length false).run
        (Memory.ofList segment) := by
  have hpos := List.length_pos_iff.mpr hne
  have hargs : ArgBody (httpBodyCount segment info) := by
    unfold ArgBody
    rw [(httpBodyCount_arg segment info).2]
    exact h
  unfold parseBody httpParseBody
  rw [if_neg (by omega), Access.run_bind, Int.toNat_natCast, slice_whole, Option.bind_some,
    httpParseBodyArgs_eq (by omega) hargs]

/-- Without a free slot nothing is recorded. -/
theorem parseBody_full {segment : List Byte} {info : Http} (hne : segment ≠ []) (h : ArgBody info)
    (hcur : info.arg.cur = none) (hfull : info.arg.maxNum ≤ info.arg.arg.length) :
    ∃ r, parseBody info segment = some r ∧ r.arg = info.arg := by
  have harg := (httpBodyCount_arg segment info).1
  have hempty : httpGetEmptyArg info.arg = info.arg := by
    rw [httpGetEmptyArg, if_pos hfull, ← hcur]
  refine ⟨httpBodyCount segment info, ?_, harg⟩
  rw [parseBody_args hne h]
  unfold httpParseArgs
  dsimp only
  rw [harg, if_pos hcur, hempty, if_pos hcur, ← harg]
  rfl

/-- The body of a form goes to `http_parse_form`. -/
theorem parseBody_ofForm {info : Http} {data : List Byte} (hne : data ≠ [])
    (htype : info.logic.contentType = .multiform) :
    parseBody info data = httpParseForm data (httpBodyCount data info) := by
  have hpos := List.length_pos_iff.mpr hne
  have htype' : (httpBodyCount data info).logic.contentType = .multiform :=
    (httpBodyCount_arg data info).2.trans htype
  unfold parseBody httpParseBody httpParseBodyArgs
  rw [if_neg (by omega), Access.run_bind, Int.toNat_natCast, slice_whole, Option.bind_some, if_neg (by omega),
    htype', Access.run_bind, slice_whole, Option.bind_some, Access.run_ofOption]

/-- Of an AMF message nothing is read. -/
theorem parseBody_amf {info : Http} {data : List Byte} (htype : info.logic.contentType = .amf) :
    ∃ r, parseBody info data = some r ∧ r.arg = info.arg := by
  by_cases hnil : data = []
  · subst hnil
    exact ⟨info, rfl, rfl⟩
  · have hpos := List.length_pos_iff.mpr hnil
    obtain ⟨harg, htype'⟩ := httpBodyCount_arg data info
    refine ⟨httpBodyCount data info, ?_, harg⟩
    unfold parseBody httpParseBody httpParseBodyArgs
    rw [if_neg (by omega), Access.run_bind, Int.toNat_natCast, slice_whole, Option.bind_some,
      if_neg (by omega), htype', htype]
    rfl

/-! ## The counter -/

theorem httpBodyCount_plain {segment : List Byte} {info : Http} (h : info.logic.isChunked = false) :
    let left := toInt32 (info.loc.unRecvContentLen - segment.length)
    (httpBodyCount segment info).loc.unRecvContentLen = left ∧
    (httpBodyCount segment info).logic.isChunked = false ∧
    (httpBodyCount segment info).logic.state = if left ≤ 0 then .none else .body := by
  unfold httpBodyCount Http.withInt
  simp [h, httpSetState]

theorem toInt32_sub (a b : Int) : toInt32 (toInt32 a - b) = toInt32 (a - b) := Int.bmod_sub_bmod

theorem passed_zero (segment : List Byte) (segments : List (List Byte)) :
    passed (segment :: segments) 0 = segment.length := by
  simp [passed]

theorem passed_succ (segment : List Byte) (segments : List (List Byte)) (i : Nat) :
    passed (segment :: segments) (i + 1) = segment.length + passed segments i := by
  simp [passed]

/-- **The state after each segment of a body that is not chunked.** -/
theorem parseBodies_state (segments : List (List Byte)) : ∀ {info : Http} {u : Int}
    {states : List Http}, (∀ s ∈ segments, s ≠ []) → info.logic.isChunked = false →
    info.loc.unRecvContentLen = toInt32 u → parseBodies info segments = some states →
    states.length = segments.length ∧ ∀ i r, states[i]? = some r →
      r.logic.state = if toInt32 (u - passed segments i) ≤ 0 then .none else .body := by
  induction segments with
  | nil =>
    intro info u states _ _ _ h
    cases h
    exact ⟨rfl, fun i r hr => by simp at hr⟩
  | cons segment segments ih =>
    intro info u states hne hplain hu h
    obtain ⟨r, hr, h⟩ := Option.bind_eq_some_iff.mp h
    obtain ⟨rest, hrest, rfl⟩ := Option.map_eq_some_iff.mp h
    have hframe := parseBody_frame (hne segment List.mem_cons_self) hr
    obtain ⟨hleft, hplain', hstate⟩ := @httpBodyCount_plain segment _ hplain
    rw [hu, toInt32_sub] at hleft hstate
    have hr1 : r.loc.unRecvContentLen = toInt32 (u - segment.length) :=
      hframe.unRecvContentLen.trans hleft
    have hr2 : r.logic.isChunked = false := by
      rw [hframe.logic]
      exact hplain'
    have ih' := ih (fun s hs => hne s (List.mem_cons_of_mem _ hs)) hr2 hr1 hrest
    refine ⟨by simp [ih'.1], ?_⟩
    intro i q hq
    cases i with
    | zero =>
      cases hq
      rw [passed_zero, hframe.logic]
      exact hstate
    | succ i =>
      rw [passed_succ, ih'.2 i q hq]
      have heq : u - segment.length - (passed segments i : Int) =
          u - ((segment.length + passed segments i : Nat) : Int) := by omega
      rw [heq]

theorem toInt32_neg_iff (t : Nat) : toInt32 (0 - t) ≤ 0 ↔ t % 2 ^ 32 ≤ 2 ^ 31 := by
  unfold toInt32
  rw [Int.bmod_def]
  split <;> omega

/-! ## Where the state is right -/

/-- The first segment already has `N` bytes, and the counter has not wrapped
to a positive value after any segment. -/
def FramedInOne (N : Nat) (segments : List (List Byte)) : Prop :=
  (∀ s, segments.head? = some s → N ≤ s.length) ∧
    ∀ i < segments.length, passed segments i % 2 ^ 32 ≤ 2 ^ 31

theorem head_le_passed {segment : List Byte} {segments : List (List Byte)} (i : Nat) :
    segment.length ≤ passed (segment :: segments) i := by
  cases i with
  | zero => exact Nat.le_of_eq (passed_zero _ _).symm
  | succ i =>
    rw [passed_succ]
    omega

/-- **A body is framed by its Content-Length exactly when its first segment
holds all of it** and the 32-bit counter has not wrapped to a positive value. -/
theorem content_length_framing {head : List Byte} {N : Nat} {info : Http}
    {segments : List (List Byte)} {states : List Http} (h : ContentLengthHead head N info)
    (hseg : ∀ s ∈ segments, s ≠ [] ∧ s.length < 2 ^ 31)
    (hrun : parseBodies info segments = some states) :
    FramedBy N segments states ↔ FramedInOne N segments := by
  have hzero : info.loc.unRecvContentLen = toInt32 0 := by
    rw [(httpParseHead_frame _ _ h.parsed).1]
    rfl
  obtain ⟨hlen, hstate⟩ := parseBodies_state segments (fun s hs => (hseg s hs).1) h.plain hzero hrun
  have hcode : ∀ i r, states[i]? = some r →
      r.logic.state = if passed segments i % 2 ^ 32 ≤ 2 ^ 31 then .none else .body := by
    intro i r hr
    rw [hstate i r hr]
    simp only [toInt32_neg_iff]
  have hget : ∀ i < segments.length, ∃ r, states[i]? = some r := by
    intro i hi
    rw [← hlen] at hi
    exact ⟨states[i], List.getElem?_eq_getElem hi⟩
  cases segments with
  | nil =>
    constructor
    · intro _
      exact ⟨fun s hs => (by cases hs), fun i hi => absurd hi (Nat.not_lt_zero i)⟩
    · intro _ i r hr
      have hi := (List.getElem?_eq_some_iff.mp hr).1
      rw [hlen] at hi
      exact absurd hi (Nat.not_lt_zero i)
  | cons segment segments =>
    constructor
    · intro hframed
      have hfirst : N ≤ segment.length := by
        obtain ⟨r, hr⟩ := hget 0 (Nat.succ_pos _)
        have hspec := hframed 0 r hr
        have hlt := (hseg segment List.mem_cons_self).2
        rw [hcode 0 r hr, passed_zero, if_pos (by omega)] at hspec
        split at hspec
        · assumption
        · cases hspec
      refine ⟨fun s hs => by cases hs; exact hfirst, ?_⟩
      intro i hi
      obtain ⟨r, hr⟩ := hget i hi
      have hspec := hframed i r hr
      rw [hcode i r hr, if_pos (Nat.le_trans hfirst (head_le_passed i))] at hspec
      split at hspec
      · assumption
      · cases hspec
    · intro hfits i r hr
      have hi : i < (segment :: segments).length := by
        rw [← hlen]
        exact (List.getElem?_eq_some_iff.mp hr).1
      have hN := Nat.le_trans (hfits.1 segment rfl) (@head_le_passed _ segments i)
      rw [hcode i r hr, if_pos (hfits.2 i hi), if_pos hN]

/-! ## Six bytes -/

def sixHead : List Byte := str "POST / HTTP/1.1\r\nContent-Length: 6\r\n\r\n"

/-- What the head leaves. -/
def sixInfo : Http := ((httpParseHead sixHead.length Http.zero).run (Memory.ofList sixHead)).getD {}

theorem sixHead_length : ContentLengthHead sixHead 6 sixInfo where
  line := by
    refine ⟨str "POST / HTTP/1.1", str "Content-Length: 6", str "\r\n", by decide +kernel, ?_⟩
    exact ⟨str "Content-Length", str " ", str "6", by decide +kernel, by decide +kernel,
      by decide +kernel, by decide +kernel, by decide +kernel, by decide +kernel, by decide +kernel⟩
  parsed := by
    have h : ((httpParseHead sixHead.length Http.zero).run (Memory.ofList sixHead)).isSome := by
      decide +kernel
    rw [sixInfo]
    obtain ⟨info, hinfo⟩ := Option.isSome_iff_exists.mp h
    rw [hinfo]
    rfl
  plain := by decide +kernel

/-- The states after the segments of a body of the head. -/
def sixStates (segments : List (List Byte)) : List Http := (parseBodies sixInfo segments).getD []

theorem content_length_framing_six : FramedBy 6 [str "a=b&cd"] (sixStates [str "a=b&cd"]) :=
  (content_length_framing sixHead_length (by decide) (by decide +kernel)).mpr
    ⟨fun s hs => by cases hs; decide, by decide⟩

/-- The body is over after three of its six bytes. -/
theorem content_length_ignored : ContentLengthHead sixHead 6 sixInfo ∧
    parseBodies sixInfo [str "a=b", str "&cd"] = some (sixStates [str "a=b", str "&cd"]) ∧
    ¬ FramedBy 6 [str "a=b", str "&cd"] (sixStates [str "a=b", str "&cd"]) := by
  refine ⟨sixHead_length, by decide +kernel, ?_⟩
  intro h
  have hget : (sixStates [str "a=b", str "&cd"])[0]?.map (fun r => r.logic.state) = some .none := by
    decide +kernel
  obtain ⟨r, hr, hstate⟩ := Option.map_eq_some_iff.mp hget
  have hspec := h 0 r hr
  rw [hstate] at hspec
  exact absurd hspec (by decide)

end WafProxy
