import Mathlib.Algebra.Ring.Nat
import Mathlib.Data.List.Basic
import WafProxy.Http.FieldLines

/-
  The number of cookies — parse_coo of http_header.c

  `parse_coo` appends the value of its line to `str->cookie` and counts the
  separators of this value. The search starts one byte behind the place it should
  start at and is as long as before, so it misses a separator in front and reads
  the byte behind the value; and the counter is set, not raised.

  What is proved:
    1. `countFields_run` — what the search counts, and that it has no result when
       there is no byte behind the value.
    2. `Calls.cookies` — the counter behind the lines of a head is the one of the
       last Cookie line.
    3. `cookies_iff` — it is the number of cookies only without a Cookie line, or
       with one whose value does not start with a separator; and the search of
       every Cookie line reads behind the value.

  Correspondence (C ↔ Lean):
    a Cookie line                          ↔ `FieldLine.isCookie`
    `header_cookie_num` behind one line    ↔ `fieldCount`
-/

namespace WafProxy
open Lib

/-! ## One value -/

/-- What `parse_coo` counts in a value. -/
def fieldCount (value : List Byte) : Int := 1 + value.tail.count (ch ';')

/-- A search that goes one byte too far has no result without this byte. -/
theorem strlstr_over {p : Byte} (mid : List Byte) {front : List Byte} (hp : p ∉ mid) :
    (strlstr front.length (mid.length + 1 : Nat) [p]).run (Memory.ofList (front ++ mid)) = none := by
  have hloop : ∀ (mid front : List Byte), p ∉ mid →
      (strlstrLoop [p] (mid.length + 1) front.length).run (Memory.ofList (front ++ mid)) = none := by
    intro mid
    induction mid with
    | nil =>
      intro front _
      rw [List.length_nil, strlstrLoop, Access.run_bind, List.length_singleton]
      simp [Access.slice]
    | cons c mid ih =>
      intro front hp
      have hnext := ih (front ++ [c]) fun hmem => hp (List.mem_cons_of_mem c hmem)
      have hcast : ((front ++ [c]).length : Int) = front.length + 1 := by simp
      have hlist : front ++ [c] ++ mid = front ++ c :: mid := by simp
      have hne : ¬ [c] = [p] := fun heq => hp (List.singleton_inj.mp heq ▸ List.mem_cons_self)
      rw [hcast, hlist] at hnext
      rw [List.length_cons, strlstrLoop, Access.run_bind, List.length_singleton, slice_one, Option.bind_some,
        if_neg hne, hnext]
  have htimes : (max 1 (((mid.length + 1 : Nat) : Int) - ([p].length : Nat) + 1)).toNat = mid.length + 1 := by
    rw [List.length_singleton]
    omega
  rw [strlstr, htimes]
  exact hloop mid front hp

/-- **What the counting loop finds behind `x`**: the separators up to `stop`, when there is a byte at `stop`. -/
theorem countFields_run {p : Byte} {post : List Byte} (hpost : ∀ c ∈ post.head?, c ≠ p) (n : Nat) :
    ∀ {front w : List Byte} {x : Byte} {cnt : Int}, w.length < n →
    (countFields [p] ((front.length + (w.length + 1) : Nat) : Int) n front.length cnt).run
      (Memory.ofList (front ++ x :: w ++ post)) = post.head?.map fun _ => cnt + w.count p := by
  induction n with
  | zero =>
    intro front w x cnt hn
    exact absurd hn (Nat.not_lt_zero _)
  | succ n ih =>
    intro front w x cnt hn
    have hstart : ((front ++ [x]).length : Int) = front.length + 1 := by simp
    have hlen : ((front.length + (w.length + 1) : Nat) : Int) - front.length = ((w.length + 1 : Nat) : Int) := by
      omega
    rw [countFields, if_pos (by omega), hlen, ← hstart, Access.run_bind]
    by_cases hp : p ∈ w
    · -- the search stops at the first separator, and goes on behind it
      obtain ⟨a, b, rfl, ha⟩ := List.eq_append_cons_of_mem hp
      have hlist : front ++ x :: (a ++ p :: b) ++ post = (front ++ [x]) ++ a ++ p :: (b ++ post) := by simp
      have hlist' : front ++ x :: (a ++ p :: b) ++ post = (front ++ x :: a) ++ p :: b ++ post := by simp
      have hat : (((front ++ [x]).length + a.length : Nat) : Int) = ((front ++ x :: a).length : Nat) := by
        simp only [List.length_append, List.length_cons, List.length_nil]
        omega
      have hstop : front.length + ((a ++ p :: b).length + 1) = (front ++ x :: a).length + (b.length + 1) := by
        simp only [List.length_append, List.length_cons]
        omega
      have hshort : a.length < (a ++ p :: b).length + 1 := by simp only [List.length_append]; omega
      have hb : b.length < n := by
        simp only [List.length_append, List.length_cons] at hn
        omega
      have hcount : (a ++ p :: b).count p = b.count p + 1 := by
        rw [List.count_append, List.count_eq_zero_of_not_mem ha, List.count_cons_self, Nat.zero_add]
      rw [hlist, strlstr_first ha hshort, Option.bind_some, ← hlist, hat, hstop, hlist', ih hb, hcount]
      cases post with
      | nil => rfl
      | cons c post =>
        rw [List.head?_cons, Option.map_some, Option.map_some]
        congr 1
        omega
    · cases post with
      | nil =>
        have hlist : front ++ x :: w ++ [] = (front ++ [x]) ++ w := by simp
        rw [hlist, strlstr_over w hp]
        rfl
      | cons c post =>
        have hlist : front ++ x :: w ++ c :: post = (front ++ [x]) ++ (w ++ [c]) ++ post := by simp
        have hnot : p ∉ w ++ [c] := by
          rw [List.mem_append, List.mem_singleton]
          exact fun h => h.elim hp fun heq => hpost c rfl heq.symm
        have hlen' : w.length + 1 = (w ++ [c]).length := by simp
        rw [hlist, hlen', strlstr_none hnot (by simp), List.count_eq_zero_of_not_mem hp]
        simp

theorem stripped_not_separator {c : Byte} (h : stripped c = true) : c ≠ ch ';' := by
  intro heq
  rw [heq] at h
  exact absurd h (by decide)

/-- **What `parse_coo` makes of a value.** -/
theorem parseCoo_value {front value post : List Byte} {c : Byte} {info r : Http} (hne : value ≠ [])
    (hc : stripped c = true)
    (h : (parseCoo front.length value.length info).run (Memory.ofList (front ++ value ++ c :: post)) = some r) :
    info.str.cookie.append value = some r.str.cookie ∧ r.httpInt.headerCookieNum = fieldCount value := by
  obtain ⟨x, hx, h⟩ := Option.bind_eq_some_iff.mp h
  obtain ⟨cnt, hcnt, h⟩ := Option.bind_eq_some_iff.mp h
  obtain rfl := Option.some.inj h
  constructor
  · rw [httpAppendStr, if_neg (by omega), Int.toNat_natCast, Access.run_bind, Access.slice_ofList, Option.bind_some,
      Access.run_ofOption] at hx
    exact hx
  · obtain ⟨b, w, rfl⟩ := List.exists_cons_of_ne_nil hne
    -- the byte behind the value is CR or a blank, no separator
    have hpost : ∀ d ∈ (c :: post).head?, d ≠ ch ';' := by
      intro d hd
      rw [← Option.some.inj hd]
      exact stripped_not_separator hc
    have hstop : (front.length : Int) + (b :: w).length = ((front.length + (w.length + 1) : Nat) : Int) := by
      rw [List.length_cons]
      omega
    have hfuel : ((b :: w).length : Int).toNat = w.length + 1 := by
      rw [Int.toNat_natCast, List.length_cons]
    rw [hstop, hfuel] at hcnt
    have hrun := @countFields_run (ch ';') (c :: post) hpost (w.length + 1) front w b 1 (Nat.lt_succ_self _)
    exact (Option.some.inj (hrun.symm.trans hcnt)).symm

/-- The search of `parse_coo` reads the byte behind the value. -/
theorem countFields_behind {value : List Byte} (hne : value ≠ []) :
    (countFields (str ";") value.length value.length 0 1).run (Memory.ofList value) = none := by
  obtain ⟨b, w, rfl⟩ := List.exists_cons_of_ne_nil hne
  have hrun := @countFields_run (ch ';') [] (fun _ hc => by cases hc) (w.length + 1) [] w b 1 (Nat.lt_succ_self _)
  rw [List.length_nil, Nat.zero_add, List.nil_append, List.append_nil] at hrun
  exact hrun

/-! ## The lines of a head -/

/-- The line has the name `Cookie`, in any letter case. -/
def FieldLine.isCookie (l : FieldLine) : Bool :=
  ch ':' ∈ l.text ∧ endsName l.behind ∧ l.name.map tolower = str "cookie"

theorem FieldLine.fn_cookie (l : FieldLine) : l.fn = some .coo ↔ l.isCookie = true := by
  have hiff := @headerFn_iff .coo (str "cookie") (by decide) (by decide) l.name
  have hkey : (str "cookie").map tolower = str "cookie" := by decide
  rw [hkey] at hiff
  unfold FieldLine.fn FieldLine.isCookie
  rw [decide_eq_true_eq]
  split
  · next h => rw [hiff]; exact ⟨fun hn => ⟨h.1, h.2, hn⟩, fun hn => hn.2.2⟩
  · next h => exact ⟨fun hn => (by cases hn), fun hn => absurd ⟨hn.1, hn.2.1⟩ h⟩

/-- The values of the Cookie lines. -/
def cookieValues (lines : List FieldLine) : List (List Byte) :=
    (lines.filter FieldLine.isCookie).map FieldLine.value

/-- What the lines make of the text and of the counter. -/
structure Cookies (lines : List FieldLine) (info r : Http) : Prop where
  text : (cookieValues lines).foldlM XStr.append info.str.cookie = some r.str.cookie
  number : r.httpInt.headerCookieNum =
    (cookieValues lines).foldl (fun _ v => fieldCount v) info.httpInt.headerCookieNum

/-- The text and the counter are as they were. -/
structure CookieKept (info r : Http) : Prop where
  text : r.str.cookie = info.str.cookie
  number : r.httpInt.headerCookieNum = info.httpInt.headerCookieNum

theorem CookieKept.trans {a b c : Http} (h : CookieKept a b) (h' : CookieKept b c) : CookieKept a c :=
  ⟨h'.text.trans h.text, h'.number.trans h.number⟩

theorem cookieKept_writes : HeaderWrites CookieKept where
  refl _ := ⟨rfl, rfl⟩
  trans := CookieKept.trans
  str _ _ h := ⟨h.cookie, rfl⟩
  httpInt _ _ _ h := ⟨rfl, h⟩
  logic _ _ _ := ⟨rfl, rfl⟩
  dashes _ _ := ⟨rfl, rfl⟩

/-- No other header function touches them. -/
theorem HeaderFn.call_cookieKept {f : HeaderFn} (hf : f ≠ .coo) {data dataLen : Int} {info : Http} :
    (f.call data dataLen info).Ensures (CookieKept info) := by
  cases f with
  -- these four write their own text only; the rest only through the writers
  | ho | us | lo | re =>
    apply Access.ensures_then
    intro x
    exact Access.ensures_pure ⟨rfl, rfl⟩
  | coo => exact absurd rfl hf
  | _ => exact HeaderFn.call_writes cookieKept_writes (by decide)

theorem Cookies.of_kept {l : FieldLine} {info r : Http} (hl : l.isCookie = false) (h : CookieKept info r) :
    Cookies [l] info r := by
  have hvalues : cookieValues [l] = [] := by rw [cookieValues, List.filter_singleton, hl]; rfl
  exact ⟨by rw [hvalues, h.text]; rfl, by rw [hvalues, h.number]; rfl⟩

/-- **What one line makes of them.** -/
theorem LineCall.cookies {l : FieldLine} {info r : Http} (hvalue : l.isCookie = true → l.value ≠ [])
    (h : LineCall l info r) : Cookies [l] info r := by
  obtain ⟨r', hcall, rfl⟩ := h
  cases hcall with
  | none hfn =>
    apply Cookies.of_kept
    · rw [← Bool.not_eq_true, ← l.fn_cookie, hfn]
      exact fun heq => by cases heq
    · exact ⟨rfl, rfl⟩
  | @some max f pre post c _ hfn hc hrun =>
    by_cases hf : f = .coo
    · subst hf
      have hl := l.fn_cookie.mp hfn
      have hvalues : cookieValues [l] = [l.value] := by rw [cookieValues, List.filter_singleton, hl]; rfl
      obtain ⟨htext, hnumber⟩ := parseCoo_value (hvalue hl) hc hrun
      refine ⟨?_, by rw [hvalues]; exact hnumber⟩
      rw [hvalues, List.foldlM_cons]
      exact Option.bind_eq_some_iff.mpr ⟨_, htext, rfl⟩
    · have hl : l.isCookie = false := by
        rw [← Bool.not_eq_true, ← l.fn_cookie, hfn]
        exact fun heq => hf (Option.some.inj heq)
      have hkept := HeaderFn.call_cookieKept hf _ _ hrun
      exact Cookies.of_kept hl ⟨hkept.text, hkept.number⟩

theorem cookieValues_cons (l : FieldLine) (lines : List FieldLine) :
    cookieValues (l :: lines) = cookieValues [l] ++ cookieValues lines := by
  rw [cookieValues, cookieValues, cookieValues, ← List.map_append, ← List.filter_append, List.singleton_append]

theorem Cookies.cons {l : FieldLine} {lines : List FieldLine} {a b c : Http} (h : Cookies [l] a b)
    (h' : Cookies lines b c) : Cookies (l :: lines) a c where
  text := by
    rw [cookieValues_cons, List.foldlM_append, h.text]
    exact h'.text
  number := by rw [cookieValues_cons, List.foldl_append, ← h.number, h'.number]

/-- **What the lines of a head make of them.** -/
theorem Calls.cookies (lines : List FieldLine) : ∀ {info r : Http}, (∀ v ∈ cookieValues lines, v ≠ []) →
    Calls lines info r → Cookies lines info r := by
  -- on the lines: the text grows by every value, the counter is that of the last one
  induction lines with
  | nil =>
    intro info r _ h
    obtain rfl : r = info := h
    exact ⟨rfl, rfl⟩
  | cons l lines ih =>
    intro info r hvalues h
    rw [cookieValues_cons] at hvalues
    obtain ⟨mid, hline, hlines⟩ := h
    refine (hline.cookies fun hl => ?_).cons (ih (fun v hv => hvalues v (List.mem_append_right _ hv)) hlines)
    apply hvalues _ (List.mem_append_left _ _)
    rw [cookieValues, List.filter_singleton, hl]
    exact List.mem_singleton_self _

/-! ## The number of cookies -/

/-- The number of cookies in the values. -/
def cookieTotal (values : List (List Byte)) : Nat := (values.map fun v => 1 + v.count (ch ';')).sum

/-- What `http_parse_head` should leave, and how `parse_coo` should get it. -/
structure CookiesCounted (lines : List FieldLine) (r : Http) : Prop where
  number : r.httpInt.headerCookieNum = cookieTotal (cookieValues lines)
  text : r.str.cookie.p.getD [] = (cookieValues lines).flatten
  /-- the search has what it needs in the value alone -/
  search : ∀ v ∈ cookieValues lines, ∃ n, (countFields (str ";") v.length v.length 0 1).run (Memory.ofList v) =
    some n

theorem fieldCount_eq_iff (v : List Byte) :
    fieldCount v = (1 + v.count (ch ';') : Nat) ↔ v.head? ≠ some (ch ';') := by
  unfold fieldCount
  cases v with
  | nil => simp
  | cons c v =>
    rw [List.tail_cons, List.head?_cons, List.count_cons]
    by_cases hc : c = ch ';'
    · rw [if_pos (beq_iff_eq.mpr hc)]
      exact iff_of_false (by omega) (fun h => h (congrArg some hc))
    · rw [if_neg (fun h => hc (beq_iff_eq.mp h))]
      exact iff_of_true (by omega) (fun h => hc (Option.some.inj h))

theorem fieldCount_le (v : List Byte) : fieldCount v ≤ (1 + v.count (ch ';') : Nat) := by
  have hle := (List.tail_sublist v).count_le (ch ';')
  unfold fieldCount
  omega

theorem length_le_total (values : List (List Byte)) : values.length ≤ cookieTotal values := by
  induction values with
  | nil => exact Nat.le_refl _
  | cons v values ih =>
    unfold cookieTotal at ih ⊢
    rw [List.length_cons, List.map_cons, List.sum_cons]
    omega

/-- The counter of the last value is the number of cookies in all of them only if there is no other value. -/
theorem lastCount_eq_iff (values : List (List Byte)) :
    values.foldl (fun _ v => fieldCount v) 0 = cookieTotal values ↔
      values = [] ∨ ∃ v, values = [v] ∧ v.head? ≠ some (ch ';') := by
  rcases List.eq_nil_or_concat values with rfl | ⟨front, v, rfl⟩
  · exact ⟨fun _ => Or.inl rfl, fun _ => rfl⟩
  · have htotal : cookieTotal (front ++ [v]) = cookieTotal front + (1 + v.count (ch ';')) := by
      unfold cookieTotal
      rw [List.map_append, List.sum_append]
      rfl
    have hlast : (front ++ [v]).foldl (fun _ v => fieldCount v) 0 = fieldCount v := by rw [List.foldl_append]; rfl
    rw [List.concat_eq_append, hlast, htotal]
    cases front with
    | nil =>
      have hnone : cookieTotal [] = 0 := rfl
      rw [hnone, Nat.zero_add, fieldCount_eq_iff]
      simp
    | cons u front =>
      -- a value in front counts for one cookie at least, and the last one for no more than it has
      have hle := fieldCount_le v
      have hfront := length_le_total (u :: front)
      rw [List.length_cons] at hfront
      constructor
      · intro h
        omega
      · intro h
        rcases h with h | ⟨w, hw, -⟩
        · simp at h
        · simp at hw

/-- **The number of cookies.** Behind a head whose Cookie lines all have a value, everything is as it should
be only if there is no Cookie line; the counter alone also if there is one and its value does not start
with a separator. -/
theorem cookies_iff {request : List Byte} (hne : request ≠ [])
    (hplain : ∀ c ∈ request, c ≠ ch '\r' ∧ c ≠ ch '\n') (lines : List FieldLine)
    (hvalues : ∀ v ∈ cookieValues lines, v ≠ []) {last post : List Byte} (hlast : last = [] ∨ last = crlf)
    {info r : Http}
    (h : (httpParseHead (request ++ crlf ++ fieldsText lines ++ last).length info).run
      (Memory.ofList (request ++ crlf ++ fieldsText lines ++ last ++ post)) = some r) :
    (CookiesCounted lines r ↔ cookieValues lines = []) ∧
    (r.httpInt.headerCookieNum = cookieTotal (cookieValues lines) ↔
      cookieValues lines = [] ∨ ∃ v, cookieValues lines = [v] ∧ v.head? ≠ some (ch ';')) := by
  obtain ⟨len, first, r', hrequest, hcalls, rfl⟩ := httpParseHead_calls hne hplain lines hlast h
  have hkept := parseMethod_kept _ _ hrequest
  have htext : first.str.cookie = {} := hkept.fields.cookie
  have hzero : first.httpInt.headerCookieNum = 0 := congrArg Prod.snd hkept.counts
  have hcookies := Calls.cookies lines hvalues hcalls
  have hnumber : (httpSetState r' .head).httpInt.headerCookieNum = cookieTotal (cookieValues lines) ↔
      cookieValues lines = [] ∨ ∃ v, cookieValues lines = [v] ∧ v.head? ≠ some (ch ';') := by
    rw [← lastCount_eq_iff, ← hzero]
    exact Eq.congr_left hcookies.number
  refine ⟨⟨fun hcounted => ?_, fun hnone => ?_⟩, hnumber⟩
  · -- a value, and the search would read behind it
    by_contra hsome
    obtain ⟨v, hv⟩ := List.exists_mem_of_ne_nil _ hsome
    obtain ⟨n, hn⟩ := hcounted.search v hv
    rw [countFields_behind (hvalues v hv)] at hn
    cases hn
  · have hstored := hcookies.text
    rw [hnone] at hstored
    refine ⟨hnumber.mpr (Or.inl hnone), ?_, ?_⟩
    · have heq : r'.str.cookie = first.str.cookie := (Option.some.inj hstored).symm
      rw [hnone]
      show r'.str.cookie.p.getD [] = []
      rw [heq, htext]
      rfl
    · rw [hnone]
      intro v hv
      cases hv

/-! ## Two lines -/

/-- A line `Cookie: v`. -/
def cookieLine (v : List Byte) (h : ∀ c ∈ v, c ≠ ch '\r' ∧ c ≠ ch '\n') : FieldLine where
  text := str "Cookie: " ++ v
  ne := List.append_ne_nil_of_left_ne_nil (by decide) v
  plain := by
    intro c hc
    rcases List.mem_append.mp hc with hc | hc
    · exact (forall_text (P := fun c => c ≠ ch '\r' ∧ c ≠ ch '\n') (by decide) : ∀ c ∈ str "Cookie: ", _) c hc
    · exact h c hc
  start c hc := by
    rw [← Option.some.inj hc]
    decide

def twoCookies : List FieldLine :=
  [cookieLine (str "a=1; b=2") (forall_text (by decide)), cookieLine (str "c=3") (forall_text (by decide))]

theorem twoCookies_values : cookieValues twoCookies = [str "a=1; b=2", str "c=3"] := by decide

theorem twoCookies_run :
    ∃ r, (httpParseHead (str "GET / HTTP/1.1" ++ crlf ++ fieldsText twoCookies ++ crlf).length {}).run
      (Memory.ofList (str "GET / HTTP/1.1" ++ crlf ++ fieldsText twoCookies ++ crlf ++ [])) = some r :=
  Option.isSome_iff_exists.mp (by decide +kernel)

theorem cookies_two :
    ∃ r, (httpParseHead (str "GET / HTTP/1.1" ++ crlf ++ fieldsText twoCookies ++ crlf).length {}).run
      (Memory.ofList (str "GET / HTTP/1.1" ++ crlf ++ fieldsText twoCookies ++ crlf ++ [])) = some r ∧
      (CookiesCounted twoCookies r ↔ cookieValues twoCookies = []) := by
  obtain ⟨r, hr⟩ := twoCookies_run
  have hvalues : ∀ v ∈ cookieValues twoCookies, v ≠ [] := by
    rw [twoCookies_values]
    decide
  exact ⟨r, hr, (cookies_iff (by decide) (forall_text (by decide)) twoCookies hvalues (Or.inr rfl) hr).1⟩

/-- Three cookies in two lines are counted as one. -/
theorem cookies_lost :
    ∃ r, (httpParseHead (str "GET / HTTP/1.1" ++ crlf ++ fieldsText twoCookies ++ crlf).length {}).run
      (Memory.ofList (str "GET / HTTP/1.1" ++ crlf ++ fieldsText twoCookies ++ crlf ++ [])) = some r ∧
      r.httpInt.headerCookieNum = 1 ∧ cookieTotal (cookieValues twoCookies) = 3 ∧
        ¬ CookiesCounted twoCookies r := by
  obtain ⟨r, hr⟩ := twoCookies_run
  have hvalues : ∀ v ∈ cookieValues twoCookies, v ≠ [] := by
    rw [twoCookies_values]
    decide
  obtain ⟨len, first, r', hrequest, hcalls, rfl⟩ :=
    httpParseHead_calls (by decide) (forall_text (by decide)) twoCookies (Or.inr rfl) hr
  have hone : r'.httpInt.headerCookieNum = 1 := by
    rw [(Calls.cookies twoCookies hvalues hcalls).number, twoCookies_values]
    rfl
  have hthree : cookieTotal (cookieValues twoCookies) = 3 := by
    rw [twoCookies_values]
    decide
  refine ⟨_, hr, hone, hthree, fun hcounted => ?_⟩
  have hnumber : r'.httpInt.headerCookieNum = cookieTotal (cookieValues twoCookies) := hcounted.number
  rw [hone, hthree] at hnumber
  exact absurd hnumber (by decide)

end WafProxy
