import WafProxy.Http.LineEdits

/-
  The URL of the request line — `_http_update_url` of http_modify.c

  `_http_check_url` trims the first line of the header and takes what stands
  between its first and its last blank. `_http_update_url` replaces it in the
  output buffer, which holds the header already. The length of the new URL is a
  `size_t` given to a parameter of type `int`.

  What is proved:
    1. `pastBlank_eq`, `backToBlank_eq` — the two scanning loops.
    2. `httpCheckUrl_line` — in a line `METHOD SP U SP VERSION` the stretch is U,
       whatever blanks are in it.
    3. `url_iff` — the URL is replaced, or the header stays as it is with -1 if
       the result is too long; except for a URL of 2^32 bytes or more of which
       the low 32 bits of the length tell a shorter one that fits.

  Correspondence (C ↔ Lean):
    `_http_update_url`, with what it returns ↔ `EditStream.httpUpdateUrl`
  `httpUpdateUrl` is the same function when nothing looks at the result
  (`httpUpdateUrl_here`).
-/

namespace WafProxy
open Lib

/-! ## The function -/

/-- `_http_update_url`. The places it passes on are places in `new_data`, so it is for a stream whose data
are there. -/
def EditStream.httpUpdateUrl (s : EditStream) (url : List Byte) : Option (Int × EditStream) :=
  match httpCheckUrl s.data with
  | none => some (-1, s)
  | some (begin, stop) =>
    if begin = 0 ∨ stop = 0 then some (-1, s)
    else s.finish (s.httpModifyStream begin stop url (toInt32 url.length))

theorem httpUpdateUrl_here (b : Buffer Byte) (len : Nat) (url : List Byte) :
    ((⟨b, .here len⟩ : EditStream).httpUpdateUrl url).map (fun p => p.2.inPlace) = httpUpdateUrl ⟨b, len⟩ url := by
  unfold EditStream.httpUpdateUrl httpUpdateUrl
  show Option.map _ (match httpCheckUrl (b.read 0 len) with | none => _ | some (_, _) => _) = _
  show _ = (match httpCheckUrl (b.read 0 len) with | none => _ | some (_, _) => _)
  cases httpCheckUrl (b.read 0 len) with
  | none => rfl
  | some p =>
    dsimp only
    split
    · rfl
    · exact finish_here b len _

/-! ## The scanning loops -/

section
variable {data : List Byte}

/-- The trimming loops stop at once where no blank stands. -/
theorem trimFront_stop {b : Nat} (h : isBlank data b = false) (e n : Nat) : trimFront data e n b = b := by
  cases n with
  | zero => rfl
  | succ n => rw [trimFront, if_neg (by rw [h]; exact fun hand => absurd hand.2 (by decide))]

theorem trimBack_stop {e : Nat} (h : isBlank data e = false) (b n : Nat) : trimBack data b n e = e := by
  cases n with
  | zero => rfl
  | succ n => rw [trimBack, if_neg (by rw [h]; exact fun hand => absurd hand.2 (by decide))]

/-- Forward to the first blank, and past it. -/
theorem pastBlank_eq {e k : Nat} (hk : k < e) (hblank : isBlank data k = true) : ∀ (n b : Nat), b ≤ k → k - b < n →
    (∀ i, b ≤ i → i < k → isBlank data i = false) → pastBlank data e n b = k + 1 := by
  intro n
  induction n with
  | zero =>
    intro b _ hn _
    exact absurd hn (Nat.not_lt_zero _)
  | succ n ih =>
    intro b hb hn hother
    rw [pastBlank, if_pos (by omega)]
    rcases Nat.eq_or_lt_of_le hb with rfl | hlt
    · rw [if_pos hblank]
    · rw [hother b (Nat.le_refl b) hlt, if_neg (by decide)]
      exact ih (b + 1) hlt (by omega) fun i hi => hother i (by omega)

/-- Back to the last blank. -/
theorem backToBlank_eq {b k : Nat} (hb : b < k) (hblank : isBlank data k = true) :
    ∀ (n e : Nat), k ≤ e → e - k ≤ n →
    (∀ i, k < i → i ≤ e → isBlank data i = false) → backToBlank data b n e = k := by
  intro n
  induction n with
  | zero =>
    intro e he hn _
    rw [backToBlank]
    omega
  | succ n ih =>
    intro e he hn hother
    rw [backToBlank]
    rcases Nat.eq_or_lt_of_le he with rfl | hlt
    · rw [if_neg (fun h => h.2 hblank)]
    · rw [if_pos ⟨by omega, by rw [hother e hlt (Nat.le_refl e)]; decide⟩]
      exact ih (e - 1) (by omega) (by omega) fun i hi hle => hother i hi (by omega)

end

/-- The line end of a line without CR. -/
theorem xMemcasestr_crlf_line {u : List Byte} (h : ch '\r' ∉ u) (t : List Byte) :
    xMemcasestr (str "\r\n") (u ++ crlf ++ t) = some u.length := by
  induction u with
  | nil =>
    have hstart : startsWithCase (ch '\r' :: ch '\n' :: t) (str "\r\n") = true := by cases t <;> rfl
    show xMemcasestr (str "\r\n") (ch '\r' :: ch '\n' :: t) = some 0
    rw [xMemcasestr, if_pos hstart]
  | cons c u ih =>
    have hc : startsWithCase (c :: (u ++ crlf ++ t)) (str "\r\n") = false := by
      have hne : ¬ tolower c = tolower (ch '\r') := fun heq =>
        h (tolower_cr c (heq.trans (by decide)) ▸ List.mem_cons_self)
      show (decide (tolower c = tolower (ch '\r')) && _) = false
      rw [decide_eq_false hne, Bool.false_and]
    show xMemcasestr (str "\r\n") (c :: (u ++ crlf ++ t)) = _
    rw [xMemcasestr, hc, if_neg (by decide), ih fun hmem => h (List.mem_cons_of_mem c hmem)]
    rfl

/-! ## The request line -/

/-- A method or a version: not empty, without blanks and CR. -/
structure LineWord where
  text : List Byte
  ne : text ≠ []
  plain : ∀ c ∈ text, c ≠ ch ' ' ∧ c ≠ ch '\r'

/-- A header: the first line, with anything but CR between its outer blanks, and what follows. -/
structure UrlHeader where
  method : LineWord
  version : LineWord
  rest : List Byte

namespace UrlHeader

def line (h : UrlHeader) (url : List Byte) : List Byte :=
  h.method.text ++ ch ' ' :: (url ++ ch ' ' :: h.version.text)

/-- The header with this URL. -/
def text (h : UrlHeader) (url : List Byte) : List Byte := h.line url ++ crlf ++ h.rest

variable (h : UrlHeader) {url : List Byte}

/-- What stands in front of the URL and behind it. -/
def front : List Byte := h.method.text ++ [ch ' ']

def back : List Byte := ch ' ' :: (h.version.text ++ crlf ++ h.rest)

theorem text_split : h.text url = h.front ++ url ++ h.back := by
  simp [text, line, front, back]

theorem line_cr (hurl : ch '\r' ∉ url) : ch '\r' ∉ h.line url := by
  intro hmem
  simp only [line, List.mem_append, List.mem_cons] at hmem
  rcases hmem with hmem | heq | hmem | heq | hmem
  · exact (h.method.plain _ hmem).2 rfl
  · exact absurd heq (by decide)
  · exact hurl hmem
  · exact absurd heq (by decide)
  · exact (h.version.plain _ hmem).2 rfl

theorem isBlank_of_getElem? {data : List Byte} {i : Nat} {c : Byte} (hi : data[i]? = some c) :
    isBlank data i = decide (c = ch ' ') := by
  unfold isBlank
  rw [hi, decide_eq_decide]
  exact Option.some_inj

/-- **The stretch that is replaced** is all that stands between the first and the last blank. -/
theorem httpCheckUrl_line (hne : url ≠ []) (hurl : ch '\r' ∉ url) :
    httpCheckUrl (h.text url) = some (h.front.length, h.front.length + url.length) := by
  have hpos := List.length_pos_iff.mpr hne
  have hmethod := List.length_pos_iff.mpr h.method.ne
  have hversion := List.length_pos_iff.mpr h.version.ne
  have hfront : h.front.length = h.method.text.length + 1 := List.length_append
  have hline : (h.line url).length = h.front.length + url.length + (1 + h.version.text.length) := by
    rw [hfront]
    simp only [line, List.length_append, List.length_cons]
    omega
  have hcrlf := xMemcasestr_crlf_line (h.line_cr hurl) h.rest
  -- the bytes of the method, the two blanks and the bytes of the version with the CR behind it
  have hletter : ∀ i, i < h.method.text.length → isBlank (h.text url) i = false := by
    intro i hi
    have hget : (h.text url)[i]? = some h.method.text[i] := by
      rw [text_split, front, List.append_assoc, List.append_assoc, List.getElem?_append_left hi,
        List.getElem?_eq_getElem hi]
    rw [isBlank_of_getElem? hget]
    exact decide_eq_false (h.method.plain _ (List.getElem_mem hi)).1
  have hfirst : isBlank (h.text url) h.method.text.length = true := by
    have hget : (h.text url)[h.method.text.length]? = some (ch ' ') := by
      rw [text_split, front, List.append_assoc, List.append_assoc, List.getElem?_append_right (Nat.le_refl _),
        Nat.sub_self]
      rfl
    rw [isBlank_of_getElem? hget]
    rfl
  have hbehind : ∀ j, (h.text url)[h.front.length + url.length + j]? = h.back[j]? := by
    intro j
    rw [text_split, ← List.length_append, List.getElem?_append_right (Nat.le_add_right _ _),
      Nat.add_sub_cancel_left]
  have hlast : isBlank (h.text url) (h.front.length + url.length) = true := by
    have hget := hbehind 0
    rw [Nat.add_zero] at hget
    rw [isBlank_of_getElem? hget]
    rfl
  have hword : ∀ i, h.front.length + url.length < i → i ≤ (h.line url).length → isBlank (h.text url) i = false := by
    intro i hi hle
    obtain ⟨j, rfl⟩ := Nat.exists_eq_add_of_le (Nat.succ_le_of_lt hi)
    have hget : (h.text url)[h.front.length + url.length + (j + 1)]? = (h.version.text ++ crlf ++ h.rest)[j]? :=
      hbehind (j + 1)
    rw [Nat.succ_eq_add_one, Nat.add_right_comm, Nat.add_assoc]
    by_cases hj : j < h.version.text.length
    · rw [List.append_assoc, List.getElem?_append_left hj, List.getElem?_eq_getElem hj] at hget
      rw [isBlank_of_getElem? hget]
      exact decide_eq_false (h.version.plain _ (List.getElem_mem hj)).1
    · have hj : j = h.version.text.length := by omega
      rw [hj, List.append_assoc, List.getElem?_append_right (Nat.le_refl _), Nat.sub_self] at hget
      rw [hj, isBlank_of_getElem? hget]
      decide
  unfold httpCheckUrl
  rw [text, hcrlf, ← text]
  dsimp only
  rw [trimFront_stop (hletter 0 hmethod), trimBack_stop (hword _ (by omega) (Nat.le_refl _)), if_neg (by omega),
    pastBlank_eq (by omega) hfirst _ 0 (Nat.zero_le _) (by omega) fun i _ hi => hletter i hi, ← hfront,
    backToBlank_eq (by omega) hlast _ _ (by omega) (Nat.sub_le _ _) fun i hi hle => hword i hi hle,
      if_neg (by omega)]

end UrlHeader

/-! ## The new URL -/

section
variable {h : UrlHeader} {url : List Byte} {s : EditStream} {new : List Byte}

/-- The URL is replaced and the new length returned; if the result is too long, nothing happens. -/
structure UrlRewritten (h : UrlHeader) (s : EditStream) (new : List Byte) (r : Int) (s' : EditStream) : Prop where
  fits : (h.text new).length ≤ s.newData.size → r = (h.text new).length ∧ s'.data = h.text new
  long : s.newData.size < (h.text new).length → r = -1 ∧ s' = s

/-- The low 32 bits of the length tell another length, and so much of the URL fits. -/
def Truncates (h : UrlHeader) (new : List Byte) (max : Nat) : Prop :=
  2 ^ 32 ≤ new.length ∧ 0 ≤ toInt32 new.length ∧
    (h.text (new.take (toInt32 new.length).toNat)).length ≤ max

/-- A negative length is refused. -/
theorem url_refused (hs : s.data = h.text url) (hne : url ≠ []) (hurl : ch '\r' ∉ url)
    (hneg : toInt32 new.length < 0) : s.httpUpdateUrl new = some (-1, s) := by
  unfold EditStream.httpUpdateUrl
  rw [hs, h.httpCheckUrl_line hne hurl]
  dsimp only
  split
  · rfl
  · unfold EditStream.httpModifyStream
    rw [if_pos (Or.inr (Or.inr hneg))]
    rfl

/-- As much of the new URL as its `int` length tells is put in the place of the old one. -/
theorem url_run (hs : s.data = h.text url) (hne : url ≠ []) (hurl : ch '\r' ∉ url) (hlen : 0 ≤ toInt32 new.length) :
    ∃ r s', s.httpUpdateUrl new = some (r, s') ∧
      (r = -1 ∧ s' = s ∧ s.newData.size < (h.text (new.take (toInt32 new.length).toNat)).length ∨
        r = (h.text (new.take (toInt32 new.length).toNat)).length ∧
          (h.text (new.take (toInt32 new.length).toNat)).length ≤ s.newData.size ∧
          s'.data = h.text (new.take (toInt32 new.length).toNat)) := by
  have hfront : 0 < h.front.length := by
    rw [UrlHeader.front, List.length_append]
    exact Nat.succ_pos _
  have htext := fun new => congrArg List.length (@UrlHeader.text_split h new)
  simp only [List.length_append] at htext
  unfold EditStream.httpUpdateUrl
  rw [hs, h.httpCheckUrl_line hne hurl]
  dsimp only
  rw [if_neg (by omega), s.httpModifyStream_take hlen (toInt32_toNat_le _)]
  obtain ⟨r, s', hrun, hor⟩ := s.modify_data (hs.trans h.text_split) (new.take (toInt32 new.length).toNat)
    (by omega)
  rw [← h.text_split, ← htext] at hor
  rw [hrun]
  exact ⟨r, s', rfl, hor⟩

/-- **The URL is rewritten**, or the header kept when the result is too long, exactly if the length is not
truncated to one that fits. -/
theorem url_iff (hs : s.data = h.text url) (hne : url ≠ []) (hurl : ch '\r' ∉ url)
    (hmax : s.newData.size < 2 ^ 31) :
    (∃ r s', s.httpUpdateUrl new = some (r, s') ∧ UrlRewritten h s new r s') ↔
      ¬ Truncates h new s.newData.size := by
  have hlength : new.length ≤ (h.text new).length := by
    rw [h.text_split]
    simp only [List.length_append]
    omega
  by_cases hlen : toInt32 new.length < 0
  · -- at least 2^31 bytes, so the result is too long, and nothing happens
    refine iff_of_true ⟨-1, s, url_refused hs hne hurl hlen, ?_, fun _ => ⟨rfl, rfl⟩⟩
      (fun h => absurd h.2.1 (by omega))
    intro hfits
    rw [toInt32_small (Int.natCast_nonneg _) (by omega)] at hlen
    omega
  · obtain ⟨r, s', hrun, hor⟩ := @url_run h url s new hs hne hurl (Int.not_lt.mp hlen)
    by_cases hsmall : new.length < 2 ^ 31
    · rw [toInt32_small (Int.natCast_nonneg _) (by omega), Int.toNat_natCast, List.take_length] at hor
      refine iff_of_true ⟨r, s', hrun, ?_⟩ (fun h => absurd h.1 (by omega))
      rcases hor with ⟨rfl, rfl, hlong⟩ | ⟨rfl, hfits, hdata⟩
      · exact ⟨fun hfits => absurd hfits (Nat.not_le.mpr hlong), fun _ => ⟨rfl, rfl⟩⟩
      · exact ⟨fun _ => ⟨rfl, hdata⟩, fun hlong => absurd hfits (Nat.not_le.mpr hlong)⟩
    · have hlarge : 2 ^ 32 ≤ new.length := by
        unfold toInt32 at hlen
        rw [Int.bmod_def] at hlen
        split at hlen <;> omega
      constructor
      · intro hrewritten htruncates
        obtain ⟨r2, s2, hrun2, hnew⟩ := hrewritten
        obtain ⟨rfl, rfl⟩ := Prod.mk.inj (Option.some.inj (hrun.symm.trans hrun2))
        have hkept := (hnew.long (by omega)).1
        rcases hor with ⟨-, -, hlong⟩ | ⟨rfl, -, -⟩
        · exact absurd htruncates.2.2 (Nat.not_le.mpr hlong)
        · omega
      · intro hnot
        rcases hor with ⟨rfl, rfl, -⟩ | ⟨-, hfits, -⟩
        · exact ⟨-1, s', hrun, fun hfits => absurd hfits (by omega), fun _ => ⟨rfl, rfl⟩⟩
        · exact absurd ⟨hlarge, Int.not_lt.mp hlen, hfits⟩ hnot

end

theorem getWord_ne : str "GET" ≠ [] := by decide

/-- The words GET and HTTP/1.1 around a URL, in an output buffer of 64 bytes. -/
def getHeader : UrlHeader where
  method := ⟨str "GET", getWord_ne, forall_text (by decide)⟩
  version := ⟨str "HTTP/1.1", by decide, forall_text (by decide)⟩
  rest := str "\r\n"

def getStream : EditStream :=
  ⟨({ size := 64, cell := fun _ => 0 } : Buffer Byte).copy 0 (getHeader.text (str "/a b")),
    .here (getHeader.text (str "/a b")).length⟩

theorem getStream_data : getStream.data = getHeader.text (str "/a b") := Buffer.read_copy _ 0 _

theorem url_iff_blank : getStream.data = getHeader.text (str "/a b") ∧ str "/a b" ≠ [] ∧ ch '\r' ∉ str "/a b" ∧
    getStream.newData.size < 2 ^ 31 ∧
    ∃ r s', getStream.httpUpdateUrl (str "/longer") = some (r, s') ∧
      UrlRewritten getHeader getStream (str "/longer") r s' := by
  refine ⟨getStream_data, by decide, by decide, by decide, ?_⟩
  apply (url_iff getStream_data (by decide) (by decide) (by decide)).mpr
  intro h
  exact absurd h.1 (by decide)

/-- A URL of 2^32 + 2 bytes does not fit, but its first two bytes are put in the place of the old one. -/
theorem url_truncated : ∃ new : List Byte, new.length = 2 ^ 32 + 2 ∧ (∀ c ∈ new, c ≠ 0) ∧
    getStream.newData.size < (getHeader.text new).length ∧
    ∃ r s', getStream.httpUpdateUrl new = some (r, s') ∧ r = 19 ∧ s'.data = getHeader.text (str "/b") ∧
      ¬ UrlRewritten getHeader getStream new r s' := by
  obtain ⟨tail, htail, hplain⟩ : ∃ tail : List Byte, tail.length = 2 ^ 32 ∧ ∀ c ∈ tail, c ≠ 0 :=
    ⟨List.replicate (2 ^ 32) (ch 'b'), List.length_replicate, fun c hc => List.eq_of_mem_replicate hc ▸ (by decide)⟩
  have hnew : (str "/b" ++ tail).length = 2 ^ 32 + 2 := by
    rw [List.length_append, htail]
    rfl
  have hint : toInt32 (str "/b" ++ tail).length = 2 := by
    rw [hnew]
    decide
  have htake : (str "/b" ++ tail).take (toInt32 (str "/b" ++ tail).length).toNat = str "/b" := by
    rw [hint]
    exact @List.take_left _ (str "/b") tail
  have hlong : getStream.newData.size < (getHeader.text (str "/b" ++ tail)).length := by
    rw [getHeader.text_split]
    simp only [List.length_append, htail]
    exact Nat.lt_of_lt_of_le (by decide : 64 < 2 ^ 32) (by omega)
  obtain ⟨r, s', hrun, hor⟩ := @url_run getHeader (str "/a b") getStream (str "/b" ++ tail) getStream_data
    (by decide)
    (by decide) (by rw [hint]; decide)
  have hfit : (getHeader.text (str "/b")).length = 19 := by decide
  rw [htake, hfit] at hor
  have hword : ∀ c ∈ str "/b", c ≠ 0 := forall_text (by decide)
  refine ⟨str "/b" ++ tail, hnew, fun c hc => (List.mem_append.mp hc).elim (hword c) (hplain c), hlong, r, s',
    hrun, ?_⟩
  rcases hor with ⟨-, -, hsize⟩ | ⟨rfl, -, hdata⟩
  · exact absurd hsize (by decide)
  · refine ⟨rfl, hdata, ?_⟩
    intro hrewritten
    exact absurd (hrewritten.long hlong).1 (by decide)

end WafProxy
