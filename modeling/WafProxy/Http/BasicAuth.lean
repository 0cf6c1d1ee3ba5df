import Mathlib.Data.List.TakeWhile
import WafProxy.Http.Base64
import WafProxy.Http.Strings

/-
  Basic credentials — `parse_au` of http_header.c

  The decoded credentials are trimmed with `strlstrip`, like a header value,
  before they are split at the first colon.

  What is proved:
    1. `parseBasic_inplace` — the decoder of `parseBasic` is the one that works on
       one buffer.
    2. `parseAu_basic` — what `parse_au` records of encoded credentials
       (`credentials` of the trimmed text).
    3. `basicRecorded_iff` — user name and password come back exactly when the
       name does not start with white space and the password ends with a byte
       that is not trimmed.

  Correspondence (C ↔ Lean):
    `Basic ` and the encoding of user:password   ↔ `basicValue`
    the split at the colon, `auth_user`, `auth_pass` ↔ `credentials`
-/

namespace WafProxy
open Lib

/-- The value of the header. -/
def basicValue (user pass : List Byte) : List Byte := str "Basic " ++ base64 (user ++ ch ':' :: pass)

/-- `auth` holds a text as it is. -/
def HttpStr.withAuth (s : HttpStr) (text : List Byte) : HttpStr :=
  { s with auth := { p := some text, nul := text.length } }

/-- What is recorded of the trimmed text. -/
def credentials (tmpFlag : DecodeFlag) (s : HttpStr) (text : List Byte) : HttpStr :=
  let user := text.takeWhile (· ≠ ch ':')
  if user.length < text.length then
    { s with
      authUser := s.authUser.store tmpFlag user
      authPass := s.authPass.store tmpFlag (text.drop (user.length + 1)) }
  else s

/-- `parse_au` records the credentials, whatever stands around the value and whatever was
recorded before. -/
def BasicRecorded (user pass : List Byte) : Prop :=
  ∀ (info : Http) (front post : List Byte), info.tmpFlag.needDecode = false →
    ∃ r, (parseAu front.length (basicValue user pass).length info).run
        (Memory.ofList (front ++ basicValue user pass ++ post)) = some r ∧
      r.str.authUser.p = some user ∧ r.str.authPass.p.getD [] = pass

/-! ## The value -/

theorem base64Char_plain : ∀ v : Byte, v < 64 → stripped (base64Char v) = false ∧ base64Char v ≠ 0 := by
  apply forall_byte
  decide +kernel

theorem pad_plain : stripped (ch '=') = false ∧ ch '=' ≠ 0 := by decide

/-- No character of the encoding is trimmed, or ends the string. -/
theorem base64_plain (l : List Byte) : ∀ q ∈ base64 l, stripped q = false ∧ q ≠ 0 := by
  have hgroup : ∀ (a b c : Byte) (n : Nat), ∀ q ∈ ((output a b c).take n).map base64Char,
      stripped q = false ∧ q ≠ 0 := by
    intro a b c n q hq
    obtain ⟨v, hv, rfl⟩ := List.mem_map.mp hq
    exact base64Char_plain v (output_lt a b c v (List.mem_of_mem_take hv))
  induction l using base64.induct with
  | case1 a b c src ih =>
    intro q hq
    rw [base64, List.mem_append] at hq
    exact hq.elim (hgroup a b c 4 q) (ih q)
  | case2 src hsrc =>
    intro q hq
    rw [base64.eq_2 src hsrc] at hq
    rcases src with _ | ⟨a, _ | ⟨b, src⟩⟩
    · exact absurd hq List.not_mem_nil
    · simp only [base64Rest, List.mem_append, List.mem_cons, List.not_mem_nil, or_false, or_self] at hq
      exact hq.elim (hgroup a 0 0 2 q) fun heq => heq ▸ pad_plain
    · simp only [base64Rest, List.mem_append, List.mem_cons, List.not_mem_nil, or_false] at hq
      exact hq.elim (hgroup a b 0 3 q) fun heq => heq ▸ pad_plain

theorem base64_ne {l : List Byte} (h : l ≠ []) : base64 l ≠ [] := by
  rcases l with _ | ⟨a, _ | ⟨b, _ | ⟨c, l⟩⟩⟩
  · exact absurd rfl h
  · exact List.cons_ne_nil _ _
  · exact List.cons_ne_nil _ _
  · exact List.cons_ne_nil _ _

/-- The value behind `Basic`, trimmed. -/
theorem basic_strip (l : List Byte) : (ch ' ' :: base64 l).takeWhile stripped = [ch ' '] ∧
    stripText (ch ' ' :: base64 l) = base64 l := by
  have hhead : ∀ c ∈ (base64 l).head?, stripped c = false :=
    fun c hc => (base64_plain l c (List.mem_of_mem_head? hc)).1
  have hlast : ∀ c ∈ (base64 l).getLast?, stripped c = false :=
    fun c hc => (base64_plain l c (List.mem_of_mem_getLast? hc)).1
  constructor
  · rw [List.takeWhile_cons_of_pos (by decide), takeWhile_of_head hhead]
  · rw [stripText, List.dropWhile_cons_of_pos (by decide)]
    exact stripText_eq_self.mpr ⟨hhead, hlast⟩

/-! ## What is recorded -/

section
variable {tmpFlag : DecodeFlag} {l : List Byte}

/-- `parse_au` decodes `auth.p` over itself. -/
theorem parseBasic_inplace {s : HttpStr} {src bytes : List Byte} (hsrc : s.auth.cString = some src)
    (hp : s.auth.p = some bytes) : b64Decode src bytes s.auth.len = b64DecodeInplace bytes s.auth.len := by
  have htext : src = bytes.takeWhile (· ≠ 0) := by
    rw [XStr.cString, hp] at hsrc
    dsimp only at hsrc
    split at hsrc
    · exact (Option.some.inj hsrc).symm
    · cases hsrc
  rw [htext, b64DecodeInplace_eq]

/-- The decoded text takes the place of the encoded one, and its trimmed form is split. -/
theorem parseBasic_base64 (hne : l ≠ []) (s : HttpStr) :
    parseBasic tmpFlag (s.withAuth (base64 l)) = some (credentials tmpFlag (s.withAuth l) (stripText l)) := by
  obtain ⟨tail, hdecode⟩ := b64Decode_base64 l
  have hpos := List.length_pos_iff.mpr hne
  have hsrc : ({ p := some (base64 l), nul := (base64 l).length } : XStr).cString = some (base64 l) := by
    have hall : (base64 l).takeWhile (· ≠ 0) = base64 l :=
      List.takeWhile_eq_self_iff.mpr fun c hc => by simpa using (base64_plain l c hc).2
    rw [XStr.cString]
    dsimp only
    rw [if_pos (Or.inr rfl), hall]
  have hlen : ({ p := some (base64 l), nul := (base64 l).length } : XStr).len = (base64 l).length := rfl
  have htake : (l ++ tail).take ((l.length : Int)).toNat = l := by simp
  have hflag : (0 : Int) < l.length := by omega
  unfold parseBasic credentials HttpStr.withAuth
  simp only [hsrc, hlen, Option.bind_eq_bind, Option.bind_some, hdecode, if_pos hflag, htake, Option.getD_some]
  rw [Int.toNat_natCast]
  split <;> rfl

/-- A comparison ends at the first byte. -/
theorem strncasecmpEq_first {front rest key : List Byte} {c k : Byte} (h : tolower c ≠ tolower k) :
    (strncasecmpEq front.length (k :: key)).run (Memory.ofList (front ++ c :: rest)) = some false := by
  have hread : Memory.ofList (front ++ c :: rest) (front.length : Int) = some c := by simp
  rw [strncasecmpEq, Access.run_bind, Access.run_read, hread, Option.bind_some, Access.run_ite, if_neg h]
  rfl

/-- **What `parse_au` records of encoded credentials**: the trimmed text, split at its first
colon. -/
theorem parseAu_basic (info : Http) (front post user pass : List Byte) (h : info.tmpFlag.needDecode = false) :
    (parseAu front.length (basicValue user pass).length info).run
      (Memory.ofList (front ++ basicValue user pass ++ post)) =
      some (info.withStr fun s => credentials info.tmpFlag (s.withAuth (user ++ ch ':' :: pass))
        (stripText (user ++ ch ':' :: pass))) := by
  have hne : user ++ ch ':' :: pass ≠ [] := List.append_ne_nil_of_right_ne_nil _ (List.cons_ne_nil _ _)
  unfold basicValue
  generalize user ++ ch ':' :: pass = l at hne ⊢
  have hname : str "Basic " = str "Basic" ++ [ch ' '] := by decide
  have hfirst : front ++ (str "Basic " ++ base64 l) ++ post =
      front ++ ch 'B' :: (str "asic " ++ base64 l ++ post) := by
    rw [List.append_assoc, List.append_assoc]
    rfl
  have hother : ∀ key : List Byte, key.head?.map tolower ≠ some (tolower (ch 'B')) → key ≠ [] →
      (strncasecmpEq front.length key).run
        (Memory.ofList (front ++ (str "Basic " ++ base64 l) ++ post)) = some false := by
    intro key hkey hkne
    obtain ⟨k, key, rfl⟩ := List.exists_cons_of_ne_nil hkne
    rw [hfirst]
    exact strncasecmpEq_first fun heq => hkey (congrArg some heq.symm)
  have hlist : front ++ (str "Basic " ++ base64 l) ++ post =
      front ++ str "Basic" ++ (ch ' ' :: base64 l) ++ post := by
    rw [hname]
    simp
  have hbasic : (strncasecmpEq front.length (str "Basic")).run
      (Memory.ofList (front ++ (str "Basic " ++ base64 l) ++ post)) = some true := by
    have hrun := strncasecmpEq_run (str "Basic") front (str "Basic") (ch ' ' :: base64 l ++ post) rfl
    rw [hlist, List.append_assoc, hrun, decide_eq_true rfl]
  obtain ⟨hlead, hstrip⟩ := basic_strip l
  have hends := strlstrip_run (front ++ str "Basic") (ch ' ' :: base64 l) post
  rw [hlead, hstrip, ← hlist] at hends
  have hbegin : ((front ++ str "Basic").length : Int) = front.length + 5 := by
    rw [List.length_append]
    rfl
  have hstop : (front.length : Int) + (str "Basic " ++ base64 l).length =
      (((front ++ str "Basic").length + (ch ' ' :: base64 l).length : Nat) : Int) := by
    rw [hname]
    simp only [List.length_append, List.length_cons, List.length_nil]
    omega
  have hlen : (((front ++ str "Basic" ++ [ch ' ']).length + (base64 l).length : Nat) : Int) -
      (front ++ str "Basic" ++ [ch ' ']).length = (base64 l).length := by omega
  have hpos := List.length_pos_iff.mpr (base64_ne hne)
  have hset : (httpSetStr info.tmpFlag info.str.auth (front ++ str "Basic" ++ [ch ' ']).length
      (base64 l).length).run (Memory.ofList (front ++ (str "Basic " ++ base64 l) ++ post)) =
      some { p := some (base64 l), nul := (base64 l).length } := by
    have hrun := httpSetStr_run info.tmpFlag info.str.auth (front ++ str "Basic" ++ [ch ' ']) (base64 l) post
    rw [store_raw h (base64_ne hne)] at hrun
    have hlist' : front ++ (str "Basic " ++ base64 l) ++ post =
        front ++ str "Basic" ++ [ch ' '] ++ base64 l ++ post := by
      rw [hname]
      simp
    rw [hlist']
    exact hrun
  rw [parseAu, Access.run_bind, hother (str "Digest") (by decide) (by decide), Option.bind_some]
  simp only [Bool.false_eq_true, if_false]
  rw [Access.run_bind, hother (str "Negotiate") (by decide) (by decide), Option.bind_some]
  simp only [Bool.false_eq_true, if_false]
  rw [Access.run_bind, hother (str "NTLM") (by decide) (by decide), Option.bind_some]
  simp only [Bool.false_eq_true, if_false]
  rw [Access.run_bind, hbasic, Option.bind_some, if_pos rfl, Access.run_bind, ← hbegin, hstop, hends,
    Option.bind_some]
  dsimp only
  rw [hlen, if_neg (by omega), Access.run_bind, hset, Option.bind_some, Access.run_bind, Access.run_ofOption]
  have hrecorded := @parseBasic_base64 info.tmpFlag l hne info.str
  show (parseBasic info.tmpFlag (info.str.withAuth (base64 l))).bind _ = _
  rw [hrecorded]
  rfl

end

/-! ## The round trip -/

section
variable {user pass : List Byte}

/-- The credentials are trimmed by nothing exactly when they end in a password that is not. -/
theorem credentials_strip (hne : user ≠ []) (hcolon : ch ':' ∉ user) :
    stripText (user ++ ch ':' :: pass) = user ++ ch ':' :: pass ↔
      (∀ c ∈ user.head?, isspace c = false) ∧ pass ≠ [] ∧ ∀ c ∈ pass.getLast?, stripped c = false := by
  obtain ⟨a, user', huser⟩ := List.exists_cons_of_ne_nil hne
  have ha : stripped a = isspace a := by
    have hne : a ≠ ch ':' := fun heq => hcolon (by rw [huser, heq]; exact List.mem_cons_self)
    rw [stripped, decide_eq_false hne, Bool.or_false]
  have hhead : (user ++ ch ':' :: pass).head? = some a := by rw [huser]; rfl
  have huhead : user.head? = some a := by rw [huser]; rfl
  rw [stripText_eq_self, hhead, huhead]
  refine and_congr ⟨fun h c hc => ?_, fun h c hc => ?_⟩ ?_
  · rw [← Option.some.inj hc, ← ha]
    exact h a rfl
  · rw [← Option.some.inj hc, ha]
    exact h a rfl
  · have hback : (user ++ ch ':' :: pass).getLast? = (ch ':' :: pass).getLast? := by
      rw [List.getLast?_append, List.getLast?_cons]
      rfl
    rw [hback]
    cases pass with
    | nil =>
      refine ⟨fun h => ?_, fun h => absurd rfl h.1⟩
      exact absurd (h (ch ':') rfl) (by decide)
    | cons b pass =>
      have hlast : (ch ':' :: b :: pass).getLast? = (b :: pass).getLast? := by simp
      rw [hlast]
      exact ⟨fun h => ⟨List.cons_ne_nil b pass, h⟩, fun h => h.2⟩

/-- **When Basic credentials come back.** `parse_au` records user name and password as they were
encoded exactly when the name does not start with white space and the password ends with a byte
that is neither white space nor a colon; an empty password never does. -/
theorem basicRecorded_iff (hne : user ≠ []) (hcolon : ch ':' ∉ user) : BasicRecorded user pass ↔
    (∀ c ∈ user.head?, isspace c = false) ∧ pass ≠ [] ∧ ∀ c ∈ pass.getLast?, stripped c = false := by
  rw [← credentials_strip hne hcolon]
  constructor
  · intro h
    obtain ⟨r, hrun, huser, hpass⟩ := h {} [] [] rfl
    rw [parseAu_basic _ _ _ _ _ rfl] at hrun
    obtain rfl := Option.some.inj hrun
    generalize hl : user ++ ch ':' :: pass = l at huser hpass ⊢
    generalize htext : stripText l = text at huser hpass ⊢
    change (credentials {} _ text).authUser.p = some user at huser
    change (credentials {} _ text).authPass.p.getD [] = pass at hpass
    unfold credentials at huser hpass
    dsimp only at huser hpass
    split at huser
    · next hlt =>
      rw [if_pos hlt] at hpass
      have hu := @store_raw_some {} rfl _ _ huser
      have hp := (@store_raw_text {} rfl _).symm.trans hpass
      rw [split_first hlt, hp, hu, hl]
    · cases huser
  · intro hstrip info front post hneed
    refine ⟨_, parseAu_basic info front post user pass hneed, ?_⟩
    have hpass := ((credentials_strip hne hcolon).mp hstrip).2.1
    have hlt : user.length < (user ++ ch ':' :: pass).length := by simp
    have hdrop : (user ++ ch ':' :: pass).drop (user.length + 1) = pass := by simp
    rw [hstrip]
    unfold credentials
    simp only [takeWhile_first hcolon, if_pos hlt, hdrop]
    rw [Http.withStr, store_raw hneed hne, store_raw hneed hpass]
    exact ⟨rfl, rfl⟩

end

theorem basicRecorded_two : BasicRecorded (str "u") (str "pw") := by
  refine (basicRecorded_iff (by decide) (by decide)).mpr ⟨fun c hc => ?_, by decide, fun c hc => ?_⟩
  · rw [← Option.some.inj hc]
    decide
  · rw [← Option.some.inj hc]
    decide

/-- Credentials with an empty password are not recorded at all. -/
theorem empty_password_lost : ¬ BasicRecorded (str "u") [] := by
  intro h
  obtain ⟨r, hrun, huser, -⟩ := h {} [] [] rfl
  rw [parseAu_basic _ _ _ _ _ rfl] at hrun
  obtain rfl := Option.some.inj hrun
  revert huser
  decide

end WafProxy
