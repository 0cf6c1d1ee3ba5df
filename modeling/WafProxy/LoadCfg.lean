import Mathlib.Data.List.Infix
import Mathlib.Data.List.TakeWhile
import WafProxy.Ip.PortTrip

/-
  The configuration file — load_cfg.c

  `waf.cfg` has one setting on a line: a key, tabs and a value; lines that begin
  with `#` are comments. For each setting the file is read again from its start
  up to the first line, other than a comment, that has the key anywhere in it.

  What is proved:
    1. `findEntry_render` — in a file that is written line by line, what is found
       for a key is the value of its first line.
    2. `getters_stored` — what each of the eight functions stores of a value that
       is written is the value.
    3. `loadCfg_render` — so `load_cfg` reads a written file back, whatever the
       order of its lines and the comments between; later lines of a key count
       for nothing, and settings that are missing stay as they were.

  Correspondence (C ↔ Lean):
    `fgets`, `strtok`                      ↔ `fgets`, `strtok`
    `*strrchr(s, '\n') = '\0'`             ↔ `cutNewline`
    the loop of the eight functions        ↔ `findEntry`
    `_get_waf_thread`, `_get_waf_id`       ↔ `getWafThread`, `getWafId`
    `_get_real_ip`, `_get_listen_ip`       ↔ `getRealIp`, `getListenIp`
    `_get_db_passwd`, `_get_db_user`,
    `_get_db_name`, `_get_db_ip`           ↔ `getDbPasswd`, `getDbUser`, `getDbName`, `getDbIp`
    `load_cfg`                             ↔ `loadCfg`
-/

namespace WafProxy
open Lib

/-! ## Reading lines -/

/-- `sizeof(buf)`. -/
def MAX_BUFFER_SIZE : Nat := 128

/-- The bytes up to the end of the line, at most `n` of them, and those behind. -/
def takeLine : Nat → List Byte → List Byte × List Byte
  | 0, l => ([], l)
  | _ + 1, [] => ([], [])
  | n + 1, c :: l => if c = ch '\n' then ([c], l) else (c :: (takeLine n l).1, (takeLine n l).2)

/-- `fgets(buf, size, fp)`: the bytes it reads and the rest of the file; `none` is NULL. -/
def fgets (size : Nat) (file : List Byte) : Option (List Byte × List Byte) :=
  if file = [] then none else some (takeLine (size - 1) file)

/-- `strtok(s, "c")`: the token and what stands behind the byte that ends it; `none` is NULL. -/
def strtok (c : Byte) (s : List Byte) : Option (List Byte × List Byte) :=
  match s.dropWhile (· = c) with
  | [] => none
  | b :: t => some ((b :: t).takeWhile (· ≠ c), ((b :: t).dropWhile (· ≠ c)).tail)

theorem takeLine_length : ∀ (n : Nat) (l : List Byte), (takeLine n l).2.length ≤ l.length := by
  intro n
  induction n with
  | zero => exact fun l => Nat.le_refl _
  | succ n ih =>
    intro l
    cases l with
    | nil => exact Nat.le_refl _
    | cons c l =>
      rw [takeLine]
      split
      · exact Nat.le_succ _
      · exact Nat.le_succ_of_le (ih l)

/-- Every turn of the loop reads a byte. -/
theorem fgets_length {file buf rest : List Byte} (h : fgets MAX_BUFFER_SIZE file = some (buf, rest)) :
    rest.length < file.length := by
  unfold fgets at h
  cases file with
  | nil => cases h
  | cons c file =>
    rw [if_neg (List.cons_ne_nil c file), MAX_BUFFER_SIZE, takeLine] at h
    split at h
    · cases h
      exact Nat.lt_succ_self _
    · cases h
      exact Nat.lt_succ_of_le (takeLine_length _ _)

/-- What the loop finds: no line with the key, a line with no token, or the second
token of the line, which may be NULL. -/
inductive CfgEntry where
  | missing
  | malformed
  | value (p : Option (List Byte))
  deriving DecidableEq, Repr

/-- The loop of the eight functions. -/
def findEntry (key : List Byte) (file : List Byte) : CfgEntry :=
  match _h : fgets MAX_BUFFER_SIZE file with
  | none => .missing
  | some (buf, rest) =>
    let s := buf.takeWhile (· ≠ 0)
    if s.head? = some (ch '#') then findEntry key rest
    else if ¬ key <:+: s then findEntry key rest
    else
      match strtok (ch '\t') s with
      | none => .malformed
      | some (_, t) => .value ((strtok (ch '\t') t).map Prod.fst)
termination_by file.length
decreasing_by
  · exact fgets_length _h
  · exact fgets_length _h

/-! ## The settings -/

/-- `db_log_cfg_t`, each text up to its NUL. -/
structure DbLogCfg where
  dbIp : List Byte
  dbName : List Byte
  dbUser : List Byte
  dbPasswd : List Byte
  deriving DecidableEq

/-- The settings in `g_cfg`. -/
structure Cfg where
  httpaddr : IpPort
  rsaddr : IpPort
  nwork : Int
  wafid : Int
  dcfg : DbLogCfg
  deriving DecidableEq

/-- What stands in front of the last `\n`; `none`: there is none to be overwritten. -/
def cutNewline (s : List Byte) : Option (List Byte) :=
  if ch '\n' ∈ s then some ((s.reverse.dropWhile (· ≠ ch '\n')).tail.reverse) else none

/-- `strncpy` into 32 bytes, and the newline cut off. `none`: NULL is read or written
through, or the text fills the bytes and `strrchr` leaves them. -/
def storeText (p : Option (List Byte)) : Option (List Byte) :=
  p.bind fun p => if 32 ≤ p.length then none else cutNewline p

/-- One of the eight functions, by its key and by what it does with the token. -/
def getEntry (key : List Byte) (store : Option (List Byte) → Cfg → Option (Int × Cfg)) (file : List Byte)
    (cfg : Cfg) : Option (Int × Cfg) :=
  match findEntry key file with
  | .missing => some (0, cfg)
  | .malformed => some (-1, cfg)
  | .value p => store p cfg

/-- `ip_port_from_str` on a token that may be NULL. -/
def storeAddr (inet : Inet) (ip : IpPort) : Option (List Byte) → Option (Int × IpPort)
  | none => some (-1, ip)
  | some p => (ipPortFromStr inet ip p).map fun r => (if r.1 ≠ 0 then -1 else 0, r.2)

def getWafThread : List Byte → Cfg → Option (Int × Cfg) :=
  getEntry (str "WORK_THREAD") fun p cfg => p.map fun p => (0, { cfg with nwork := atoi p })

def getWafId : List Byte → Cfg → Option (Int × Cfg) :=
  getEntry (str "WAF_ID") fun p cfg => p.map fun p => (0, { cfg with wafid := atoi p })

def getRealIp (inet : Inet) : List Byte → Cfg → Option (Int × Cfg) :=
  getEntry (str "REAL_IP") fun p cfg => (storeAddr inet cfg.rsaddr p).map fun r => (r.1, { cfg with rsaddr := r.2 })

def getListenIp (inet : Inet) : List Byte → Cfg → Option (Int × Cfg) :=
  getEntry (str "LISTEN_IP") fun p cfg =>
    (storeAddr inet cfg.httpaddr p).map fun r => (r.1, { cfg with httpaddr := r.2 })

def getDbPasswd : List Byte → Cfg → Option (Int × Cfg) :=
  getEntry (str "DB_PASSWD") fun p cfg => (storeText p).map fun t => (0, { cfg with dcfg.dbPasswd := t })

def getDbUser : List Byte → Cfg → Option (Int × Cfg) :=
  getEntry (str "DB_USER") fun p cfg => (storeText p).map fun t => (0, { cfg with dcfg.dbUser := t })

def getDbName : List Byte → Cfg → Option (Int × Cfg) :=
  getEntry (str "DB_NAME") fun p cfg => (storeText p).map fun t => (0, { cfg with dcfg.dbName := t })

def getDbIp : List Byte → Cfg → Option (Int × Cfg) :=
  getEntry (str "DB_IP") fun p cfg => (storeText p).map fun t => (0, { cfg with dcfg.dbIp := t })

/-- The calls of `load_cfg`; the first that fails ends it. -/
def getAll : List (Cfg → Option (Int × Cfg)) → Cfg → Option (Int × Cfg)
  | [], cfg => some (0, cfg)
  | get :: gets, cfg =>
    match get cfg with
    | none => none
    | some (ret, cfg) => if ret ≠ 0 then some (-1, cfg) else getAll gets cfg

/-- `load_cfg`; `none` for the file is that it is not there, `none` for the result that it
goes through a null pointer or out of a buffer. -/
def loadCfg (inet : Inet) (file : Option (List Byte)) (cfg : Cfg) : Option (Int × Cfg) :=
  match file with
  | none => some (-1, cfg)
  | some fp =>
    getAll [getListenIp inet fp, getRealIp inet fp, getDbPasswd fp, getDbUser fp, getDbName fp, getDbIp fp,
      getWafId fp, getWafThread fp] cfg

/-! ## Files that are written -/

inductive CfgKey where
  | workThread | wafId | realIp | listenIp | dbPasswd | dbUser | dbName | dbIp
  deriving DecidableEq, Repr

def CfgKey.name : CfgKey → List Byte
  | .workThread => str "WORK_THREAD"
  | .wafId => str "WAF_ID"
  | .realIp => str "REAL_IP"
  | .listenIp => str "LISTEN_IP"
  | .dbPasswd => str "DB_PASSWD"
  | .dbUser => str "DB_USER"
  | .dbName => str "DB_NAME"
  | .dbIp => str "DB_IP"

/-- A setting with its value. -/
inductive Setting where
  | workThread (n : Nat)
  | wafId (n : Nat)
  | realIp (ip : IpPort)
  | listenIp (ip : IpPort)
  | dbPasswd (t : List Byte)
  | dbUser (t : List Byte)
  | dbName (t : List Byte)
  | dbIp (t : List Byte)
  deriving DecidableEq

namespace Setting

def key : Setting → CfgKey
  | .workThread _ => .workThread
  | .wafId _ => .wafId
  | .realIp _ => .realIp
  | .listenIp _ => .listenIp
  | .dbPasswd _ => .dbPasswd
  | .dbUser _ => .dbUser
  | .dbName _ => .dbName
  | .dbIp _ => .dbIp

/-- The value as it is written. -/
def text (inet : Inet) : Setting → List Byte
  | .workThread n | .wafId n => unsignedText n
  | .realIp ip | .listenIp ip => fullText inet ip
  | .dbPasswd t | .dbUser t | .dbName t | .dbIp t => t

/-- The setting in `g_cfg`. -/
def store (cfg : Cfg) : Setting → Cfg
  | .workThread n => { cfg with nwork := n }
  | .wafId n => { cfg with wafid := n }
  | .realIp ip => { cfg with rsaddr := ip }
  | .listenIp ip => { cfg with httpaddr := ip }
  | .dbPasswd t => { cfg with dcfg.dbPasswd := t }
  | .dbUser t => { cfg with dcfg.dbUser := t }
  | .dbName t => { cfg with dcfg.dbName := t }
  | .dbIp t => { cfg with dcfg.dbIp := t }

end Setting

/-- A value is one token of one line, and no key is found in it. -/
structure OneToken (t : List Byte) : Prop where
  ne : t ≠ []
  plain : ch '\t' ∉ t ∧ ch '\n' ∉ t ∧ 0 ∉ t
  keys : ∀ k : CfgKey, ¬ k.name <:+: t

/-- A text that fits its 32 bytes with a newline. -/
structure CfgText (t : List Byte) : Prop extends OneToken t where
  short : t.length ≤ 30

def Setting.Valid : Setting → Prop
  | .workThread n | .wafId n => n < 2 ^ 31
  | .realIp ip | .listenIp ip => ip.Valid
  | .dbPasswd t | .dbUser t | .dbName t | .dbIp t => CfgText t

/-- A line: a setting behind its key and one tab or more, or anything else. -/
inductive CfgLine where
  | other (t : List Byte)
  | setting (tabs : Nat) (s : Setting)

namespace CfgLine

def text (inet : Inet) : CfgLine → List Byte
  | .other t => t
  | .setting tabs s => s.key.name ++ ch '\t' :: (List.replicate tabs (ch '\t') ++ s.text inet)

/-- It fits the buffer with its newline; and what is no setting is a comment or has no key in it. -/
structure WellFormed (inet : Inet) (line : CfgLine) : Prop where
  short : (line.text inet).length ≤ 126
  other : ∀ t, line = .other t → ch '\n' ∉ t ∧ 0 ∉ t ∧ (t.head? = some (ch '#') ∨ ∀ k : CfgKey, ¬ k.name <:+: t)
  setting : ∀ tabs s, line = .setting tabs s → s.Valid

end CfgLine

/-- The file. -/
def renderCfg (inet : Inet) (lines : List CfgLine) : List Byte := lines.flatMap fun l => l.text inet ++ [ch '\n']

/-- The first setting of a key. -/
def firstOf (k : CfgKey) : List CfgLine → Option Setting
  | [] => none
  | .other _ :: lines => firstOf k lines
  | .setting _ s :: lines => if s.key = k then some s else firstOf k lines

/-! ## Texts in a line -/

/-- What does not have `c` in it stands in front of a `c` or behind it. -/
theorem within_sep {p a b : List Byte} {c : Byte} (hc : c ∉ p) : p <:+: a ++ c :: b ↔ p <:+: a ∨ p <:+: b := by
  constructor
  · intro h
    obtain ⟨s, t, h⟩ := h
    rw [List.append_assoc] at h
    rcases List.append_eq_append_iff.mp h with ⟨a', ha, hrest⟩ | ⟨s', hs, hrest⟩
    · rcases List.append_eq_append_iff.mp hrest with ⟨a'', ha', -⟩ | ⟨p', hp, hrest'⟩
      · exact Or.inl ⟨s, a'', by rw [ha, ha', List.append_assoc]⟩
      · cases p' with
        | nil =>
          rw [List.append_nil] at hp
          exact Or.inl ⟨s, [], by rw [ha, hp, List.append_nil]⟩
        | cons x p' =>
          rw [List.cons_append] at hrest'
          have hx := (List.cons.inj hrest').1
          exact absurd (hp ▸ List.mem_append_right _ (hx ▸ List.mem_cons_self)) hc
    · cases s' with
      | nil =>
        rw [List.nil_append] at hrest
        cases p with
        | nil => exact Or.inl List.nil_infix
        | cons x p =>
          rw [List.cons_append] at hrest
          exact absurd ((List.cons.inj hrest).1 ▸ List.mem_cons_self) hc
      | cons x s' =>
        rw [List.cons_append] at hrest
        exact Or.inr ⟨s', t, by rw [List.append_assoc, (List.cons.inj hrest).2]⟩
  · intro h
    rcases h with h | h
    · exact h.trans (List.prefix_append a (c :: b)).isInfix
    · exact h.trans ((List.suffix_cons c b).trans (List.suffix_append a (c :: b))).isInfix

theorem name_plain (k : CfgKey) : ch '\t' ∉ k.name ∧ ch '\n' ∉ k.name ∧ 0 ∉ k.name ∧ ch '_' ∈ k.name ∧
    k.name.head? ≠ some (ch '#') := by
  cases k <;> decide

theorem name_ne_nil (k : CfgKey) : k.name ≠ [] := by
  intro h
  have hmem := (name_plain k).2.2.2.1
  rw [h] at hmem
  cases hmem

/-- No key is part of another. -/
theorem name_within : ∀ k k' : CfgKey, k.name <:+: k'.name → k = k' := by
  intro k k'
  cases k <;> cases k' <;> decide

theorem within_tabs {k : CfgKey} {t : List Byte} (n : Nat) :
    k.name <:+: List.replicate n (ch '\t') ++ t ↔ k.name <:+: t := by
  induction n with
  | zero => exact Iff.rfl
  | succ n ih =>
    have hsep := @within_sep k.name [] (List.replicate n (ch '\t') ++ t) _ (name_plain k).1
    rw [List.replicate_succ, List.cons_append]
    rw [List.nil_append] at hsep
    rw [hsep, ih]
    exact ⟨fun h => h.resolve_left fun hnil => name_ne_nil k (List.eq_nil_of_infix_nil hnil), Or.inr⟩

/-! ## Values -/

/-- The bytes of numbers and addresses. -/
def valueByte (c : Byte) : Bool :=
  isxdigit c || c = ch '.' || c = ch ':' || c = ch '[' || c = ch ']'

theorem valueByte_plain : ∀ c, valueByte c = true → c ≠ ch '\t' ∧ c ≠ ch '\n' ∧ c ≠ 0 ∧ c ≠ ch '_' := by
  apply forall_byte
  decide +kernel

theorem unsignedText_bytes (n : Nat) : ∀ c ∈ unsignedText n, valueByte c = true := by
  intro c hc
  have hdigit : isdigit c = true := decimal_isdigit n c hc
  simp [valueByte, isdigit_isxdigit c hdigit]

theorem fullText_bytes {inet : Inet} {ip : IpPort} (h : ip.Valid) : ∀ c ∈ fullText inet ip, valueByte c = true := by
  intro c hc
  have hport := unsignedText_bytes (ntohs ip.port).toNat c
  rcases h with ⟨hfamily, hsize⟩ | ⟨hfamily, hsize⟩
  · rw [fullText_v4 hfamily] at hc
    have htext := (inet.pton4_text _ _ (inet.pton4_ntop4 _ hsize)).2.2 c
    simp only [List.mem_append, List.mem_cons] at hc
    rcases hc with hc | rfl | hc
    · rcases htext hc with hd | rfl
      · simp [valueByte, isdigit_isxdigit c hd]
      · decide
    · decide
    · exact hport hc
  · rw [fullText_v6 hfamily] at hc
    have htext := (inet.pton6_text _ _ (inet.pton6_ntop6 _ hsize)).2.2 c
    simp only [List.mem_append, List.mem_cons] at hc
    rcases hc with (rfl | hc) | rfl | rfl | hc
    · decide
    · rcases htext hc with hd | rfl | rfl
      · simp [valueByte, hd]
      · decide
      · decide
    · decide
    · decide
    · exact hport hc

theorem oneToken_of_bytes {t : List Byte} (hne : t ≠ []) (h : ∀ c ∈ t, valueByte c = true) : OneToken t where
  ne := hne
  plain := ⟨fun hc => (valueByte_plain _ (h _ hc)).1 rfl, fun hc => (valueByte_plain _ (h _ hc)).2.1 rfl,
    fun hc => (valueByte_plain _ (h _ hc)).2.2.1 rfl⟩
  keys := fun k hk => (valueByte_plain _ (h _ (hk.subset (name_plain k).2.2.2.1))).2.2.2 rfl

theorem Setting.Valid.oneToken {inet : Inet} {s : Setting} (h : s.Valid) : OneToken (s.text inet) := by
  cases s with
  | workThread n | wafId n => exact oneToken_of_bytes (decimal_ne_nil n) (unsignedText_bytes n)
  | realIp ip | listenIp ip =>
    exact oneToken_of_bytes (List.ne_nil_of_length_pos (fullText_pos h)) (fullText_bytes h)
  | dbPasswd t | dbUser t | dbName t | dbIp t => exact h.toOneToken

/-! ## Finding a setting -/

/-- A line that fits is read whole. -/
theorem takeLine_line {t rest : List Byte} : ∀ (n : Nat), t.length < n → ch '\n' ∉ t →
    takeLine n (t ++ ch '\n' :: rest) = (t ++ [ch '\n'], rest) := by
  induction t with
  | nil =>
    intro n hn _
    cases n with
    | zero => cases hn
    | succ n => rw [List.nil_append, takeLine, if_pos rfl, List.nil_append]
  | cons c t ih =>
    intro n hn hnl
    cases n with
    | zero => cases hn
    | succ n =>
      have hc : c ≠ ch '\n' := fun h => hnl (h ▸ List.mem_cons_self)
      rw [List.cons_append, takeLine, if_neg hc,
        ih n (Nat.lt_of_succ_lt_succ hn) fun h => hnl (List.mem_cons_of_mem _ h)]
      rfl

theorem fgets_line {t rest : List Byte} (hlen : t.length ≤ 126) (hnl : ch '\n' ∉ t) :
    fgets MAX_BUFFER_SIZE (t ++ ch '\n' :: rest) = some (t ++ [ch '\n'], rest) := by
  rw [fgets, if_neg (by simp), MAX_BUFFER_SIZE, takeLine_line _ (by omega) hnl]

/-- The string in the buffer is the line. -/
theorem line_string {t : List Byte} (h : 0 ∉ t) : (t ++ [ch '\n']).takeWhile (· ≠ 0) = t ++ [ch '\n'] := by
  apply List.takeWhile_eq_self_iff.mpr
  intro c hc
  rcases List.mem_append.mp hc with hc | hc
  · exact decide_eq_true fun h0 => h (h0 ▸ hc)
  · rw [List.mem_singleton.mp hc]
    decide

theorem line_within {k : CfgKey} {t : List Byte} : k.name <:+: t ++ [ch '\n'] ↔ k.name <:+: t := by
  rw [within_sep (name_plain k).2.1]
  exact ⟨fun h => h.resolve_right fun hnil => name_ne_nil k (List.eq_nil_of_infix_nil hnil), Or.inl⟩

/-- The line of a setting has its key in it and no other. -/
theorem setting_within {inet : Inet} {tabs : Nat} {s : Setting} (h : s.Valid) (k : CfgKey) :
    k.name <:+: (CfgLine.setting tabs s).text inet ↔ s.key = k := by
  rw [CfgLine.text, within_sep (name_plain k).1, within_tabs]
  constructor
  · intro hk
    rcases hk with hk | hk
    · exact (name_within k s.key hk).symm
    · exact absurd hk (h.oneToken.keys k)
  · intro hk
    rw [hk]
    exact Or.inl List.infix_rfl

/-- A token up to the tab behind it. -/
theorem strtok_front {t rest : List Byte} (hne : t ≠ []) (ht : ch '\t' ∉ t) :
    strtok (ch '\t') (t ++ ch '\t' :: rest) = some (t, rest) := by
  obtain ⟨b, t, rfl⟩ := List.exists_cons_of_ne_nil hne
  have hb : b ≠ ch '\t' := fun h => ht (h ▸ List.mem_cons_self)
  have hall : ∀ c ∈ b :: t, decide (c ≠ ch '\t') = true := fun c hc => decide_eq_true fun h => ht (h ▸ hc)
  have hdrop : (b :: (t ++ ch '\t' :: rest)).dropWhile (· = ch '\t') = b :: (t ++ ch '\t' :: rest) :=
    List.dropWhile_cons_of_neg (by simp [hb])
  rw [strtok, List.cons_append, hdrop]
  dsimp only
  rw [← List.cons_append, List.takeWhile_append_of_pos hall, List.dropWhile_append_of_pos hall]
  simp

/-- The last token, behind any number of tabs. -/
theorem strtok_last {t : List Byte} (hne : t ≠ []) (ht : ch '\t' ∉ t) (n : Nat) :
    strtok (ch '\t') (List.replicate n (ch '\t') ++ t) = some (t, []) := by
  have hskip : (List.replicate n (ch '\t') ++ t).dropWhile (· = ch '\t') = t := by
    rw [List.dropWhile_append_of_pos fun c hc => decide_eq_true (List.eq_of_mem_replicate hc)]
    obtain ⟨b, t, rfl⟩ := List.exists_cons_of_ne_nil hne
    have hb : b ≠ ch '\t' := fun h => ht (h ▸ List.mem_cons_self)
    exact List.dropWhile_cons_of_neg (by simp [hb])
  have hall : ∀ c ∈ t, decide (c ≠ ch '\t') = true := fun c hc => decide_eq_true fun h => ht (h ▸ hc)
  rw [strtok, hskip]
  obtain ⟨b, t, rfl⟩ := List.exists_cons_of_ne_nil hne
  dsimp only
  rw [List.takeWhile_eq_self_iff.mpr hall, List.dropWhile_eq_nil_iff.mpr hall]
  rfl

/-- What the loop makes of the first line of a file. -/
theorem findEntry_line {key t rest : List Byte} (hlen : t.length ≤ 126) (hnl : ch '\n' ∉ t) (h0 : 0 ∉ t) :
    findEntry key (t ++ ch '\n' :: rest) =
      if (t ++ [ch '\n']).head? = some (ch '#') then findEntry key rest
      else if ¬ key <:+: t ++ [ch '\n'] then findEntry key rest
      else
        match strtok (ch '\t') (t ++ [ch '\n']) with
        | none => .malformed
        | some (_, t) => .value ((strtok (ch '\t') t).map Prod.fst) := by
  rw [findEntry]
  split
  next hnone =>
    rw [fgets_line hlen hnl] at hnone
    cases hnone
  next buf rest' hsome =>
    rw [fgets_line hlen hnl] at hsome
    cases hsome
    rw [line_string h0]

theorem findEntry_nil (key : List Byte) : findEntry key [] = .missing := by
  rw [findEntry]
  rfl

theorem head_line {t : List Byte} (h : t ≠ []) : (t ++ [ch '\n']).head? = t.head? := List.head?_append_of_ne_nil _ h

/-- **The first line of a key** is the one that is found. -/
theorem findEntry_render (inet : Inet) (k : CfgKey) (lines : List CfgLine) (h : ∀ l ∈ lines, l.WellFormed inet) :
    findEntry k.name (renderCfg inet lines) =
      match firstOf k lines with
      | none => .missing
      | some s => .value (some (s.text inet ++ [ch '\n'])) := by
  induction lines with
  | nil => exact findEntry_nil _
  | cons line lines ih =>
    have hline := h line List.mem_cons_self
    have hrest := ih fun l hl => h l (List.mem_cons_of_mem _ hl)
    have hfile : renderCfg inet (line :: lines) = line.text inet ++ ch '\n' :: renderCfg inet lines := by
      rw [renderCfg, List.flatMap_cons, List.append_assoc]
      rfl
    rw [hfile]
    cases line with
    | other t =>
      obtain ⟨hnl, h0, hskip⟩ := hline.other t rfl
      have hlen : t.length ≤ 126 := hline.short
      rw [CfgLine.text, findEntry_line hlen hnl h0, firstOf, ← hrest]
      rcases hskip with hcomment | hnone
      · have hne : t ≠ [] := by
          intro hnil
          rw [hnil] at hcomment
          cases hcomment
        rw [head_line hne, if_pos hcomment]
      · have hno : ¬ k.name <:+: t ++ [ch '\n'] := fun hk => hnone k (line_within.mp hk)
        rw [if_pos hno, ite_self]
    | setting tabs s =>
      have hvalid := hline.setting tabs s rfl
      have htoken := @Setting.Valid.oneToken inet s hvalid
      obtain ⟨htab, hnl, h0⟩ := htoken.plain
      obtain ⟨ktab, knl, k0, -, khead⟩ := name_plain s.key
      have hclean : ∀ c : Byte, c ∉ s.key.name → c ≠ ch '\t' → c ∉ s.text inet →
          c ∉ (CfgLine.setting tabs s).text inet := by
        intro c hkey hne htext hc
        simp only [CfgLine.text, List.mem_append, List.mem_cons] at hc
        rcases hc with hc | hc | hc | hc
        · exact hkey hc
        · exact hne hc
        · exact hne (List.eq_of_mem_replicate hc)
        · exact htext hc
      have hlnl := hclean (ch '\n') knl (by decide) hnl
      have hl0 := hclean 0 k0 (by decide) h0
      have hne : (CfgLine.setting tabs s).text inet ≠ [] := fun hnil =>
        name_ne_nil s.key (List.append_eq_nil_iff.mp hnil).1
      have hhead : ((CfgLine.setting tabs s).text inet ++ [ch '\n']).head? ≠ some (ch '#') := by
        rw [head_line hne, CfgLine.text, List.head?_append_of_ne_nil _ (name_ne_nil s.key)]
        exact khead
      rw [findEntry_line hline.short hlnl hl0, if_neg hhead, firstOf]
      by_cases hk : s.key = k
      · have hin : k.name <:+: (CfgLine.setting tabs s).text inet ++ [ch '\n'] :=
          line_within.mpr ((setting_within hvalid k).mpr hk)
        have hcut : (CfgLine.setting tabs s).text inet ++ [ch '\n'] =
            s.key.name ++ ch '\t' :: (List.replicate tabs (ch '\t') ++ (s.text inet ++ [ch '\n'])) := by
          rw [CfgLine.text, List.append_assoc, List.cons_append, List.append_assoc]
        have hlast : ch '\t' ∉ s.text inet ++ [ch '\n'] := by
          intro hc
          rcases List.mem_append.mp hc with hc | hc
          · exact htab hc
          · exact absurd (List.mem_singleton.mp hc) (by decide)
        rw [if_neg (not_not.mpr hin), if_pos hk, hcut, strtok_front (name_ne_nil s.key) ktab]
        dsimp only
        rw [strtok_last (by simp) hlast, Option.map_some]
      · have hno : ¬ k.name <:+: (CfgLine.setting tabs s).text inet ++ [ch '\n'] := fun hin =>
          hk ((setting_within hvalid k).mp (line_within.mp hin))
        rw [if_pos hno, if_neg hk]
        exact hrest

/-! ## Storing it -/

/-- The function for a key. -/
def getter (inet : Inet) : CfgKey → List Byte → Cfg → Option (Int × Cfg)
  | .workThread => getWafThread
  | .wafId => getWafId
  | .realIp => getRealIp inet
  | .listenIp => getListenIp inet
  | .dbPasswd => getDbPasswd
  | .dbUser => getDbUser
  | .dbName => getDbName
  | .dbIp => getDbIp

/-- The order of `load_cfg`. -/
def loadOrder : List CfgKey :=
  [.listenIp, .realIp, .dbPasswd, .dbUser, .dbName, .dbIp, .wafId, .workThread]

theorem loadCfg_getters (inet : Inet) (file : List Byte) (cfg : Cfg) :
    loadCfg inet (some file) cfg = getAll (loadOrder.map fun k => getter inet k file) cfg := rfl

theorem atoi_line {n : Nat} (h : n < 2 ^ 31) : atoi (unsignedText n ++ [ch '\n']) = n := by
  have hnl : ∀ c ∈ [ch '\n'].head?, isdigit c = false := by
    intro c hc
    cases hc
    decide
  have hdigits : digits 10 0 (unsignedText n) = n := digits_decimal n
  have hvalue : strtol (unsignedText n ++ [ch '\n']) 10 = min (digits 10 0 (unsignedText n) : Int) LONG_MAX :=
    strtol_digits (decimal_ne_nil n) (decimal_isdigit n) hnl
  rw [atoi, hvalue, hdigits, LONG_MAX, min_eq_left (by omega)]
  exact toInt32_small (by omega) (by omega)

/-- A written address is read back in front of a newline. -/
theorem addr_line {inet : Inet} {ip : IpPort} (old : IpPort) (hvalid : ip.Valid)
    (hlen : (fullText inet ip).length ≤ 126) :
    ipPortFromStr inet old (fullText inet ip ++ [ch '\n']) = some (0, ip) := by
  have hport : PortText (unsignedText (ntohs ip.port).toNat ++ [ch '\n']) (ntohs ip.port).toNat :=
    ⟨_, [ch '\n'], rfl, decimal_ne_nil _, decimal_isdigit _, digits_decimal _, portNumber_le _, fun c hc => by
      cases hc
      decide⟩
  have haddr : AddrPort inet (fullText inet ip ++ [ch '\n']) ip.toIpAddr (ntohs ip.port).toNat := by
    rcases hvalid with ⟨hfamily, hsize⟩ | ⟨hfamily, hsize⟩
    · refine Or.inl ⟨_, _, ?_, hfamily, inet.pton4_ntop4 _ hsize, hport⟩
      rw [fullText_v4 hfamily, List.append_assoc, List.cons_append]
    · refine Or.inr ⟨_, _, ?_, hfamily, inet.pton6_ntop6 _ hsize, hport⟩
      rw [fullText_v6 hfamily, List.append_assoc]
      rfl
  have hshort : (fullText inet ip ++ [ch '\n']).length < 512 := by
    rw [List.length_append, List.length_singleton]
    omega
  rw [addrPort_parses old haddr hshort, (stored_port (portNumber_le ip.port) ip.port).mpr rfl]

theorem storeText_line {t : List Byte} (hlen : t.length ≤ 30) : storeText (some (t ++ [ch '\n'])) = some t := by
  have hfits : ¬ 32 ≤ (t ++ [ch '\n']).length := by
    rw [List.length_append, List.length_singleton]
    omega
  rw [storeText, Option.bind_some, if_neg hfits, cutNewline, if_pos (by simp)]
  simp

theorem getEntry_found {key file : List Byte} {p : Option (List Byte)}
    {store : Option (List Byte) → Cfg → Option (Int × Cfg)} {cfg : Cfg} (h : findEntry key file = .value p) :
    getEntry key store file cfg = store p cfg := by
  rw [getEntry, h]

/-- **What is stored** of a value that is found is the setting. -/
theorem getters_stored {inet : Inet} {s : Setting} {file : List Byte} (cfg : Cfg) (h : s.Valid)
    (hlen : (s.text inet).length ≤ 126)
    (hfind : findEntry s.key.name file = .value (some (s.text inet ++ [ch '\n']))) :
    getter inet s.key file cfg = some (0, s.store cfg) := by
  cases s with
  | workThread n =>
    have hstore := congrArg (fun i : Int => some ((0 : Int), { cfg with nwork := i })) (atoi_line h)
    rw [Setting.key, getter, getWafThread]
    refine (getEntry_found hfind).trans ?_
    exact hstore
  | wafId n =>
    have hstore := congrArg (fun i : Int => some ((0 : Int), { cfg with wafid := i })) (atoi_line h)
    rw [Setting.key, getter, getWafId]
    refine (getEntry_found hfind).trans ?_
    exact hstore
  | realIp ip =>
    have hstore : storeAddr inet cfg.rsaddr (some (fullText inet ip ++ [ch '\n'])) = some (0, ip) := by
      rw [storeAddr, addr_line cfg.rsaddr h hlen]
      rfl
    rw [Setting.key, getter, getRealIp]
    refine (getEntry_found hfind).trans ?_
    exact congrArg (Option.map fun r => (r.1, { cfg with rsaddr := r.2 })) hstore
  | listenIp ip =>
    have hstore : storeAddr inet cfg.httpaddr (some (fullText inet ip ++ [ch '\n'])) = some (0, ip) := by
      rw [storeAddr, addr_line cfg.httpaddr h hlen]
      rfl
    rw [Setting.key, getter, getListenIp]
    refine (getEntry_found hfind).trans ?_
    exact congrArg (Option.map fun r => (r.1, { cfg with httpaddr := r.2 })) hstore
  | dbPasswd t =>
    rw [Setting.key, getter, getDbPasswd]
    refine (getEntry_found hfind).trans ?_
    exact congrArg (Option.map fun t => ((0 : Int), { cfg with dcfg.dbPasswd := t })) (storeText_line h.short)
  | dbUser t =>
    rw [Setting.key, getter, getDbUser]
    refine (getEntry_found hfind).trans ?_
    exact congrArg (Option.map fun t => ((0 : Int), { cfg with dcfg.dbUser := t })) (storeText_line h.short)
  | dbName t =>
    rw [Setting.key, getter, getDbName]
    refine (getEntry_found hfind).trans ?_
    exact congrArg (Option.map fun t => ((0 : Int), { cfg with dcfg.dbName := t })) (storeText_line h.short)
  | dbIp t =>
    rw [Setting.key, getter, getDbIp]
    refine (getEntry_found hfind).trans ?_
    exact congrArg (Option.map fun t => ((0 : Int), { cfg with dcfg.dbIp := t })) (storeText_line h.short)

theorem getter_entry (inet : Inet) (k : CfgKey) : ∃ store, getter inet k = getEntry k.name store := by
  cases k <;> exact ⟨_, rfl⟩

theorem getter_missing {inet : Inet} {k : CfgKey} {file : List Byte} (cfg : Cfg)
    (hfind : findEntry k.name file = .missing) : getter inet k file cfg = some (0, cfg) := by
  obtain ⟨store, hget⟩ := getter_entry inet k
  rw [hget, getEntry, hfind]

/-! ## The file -/

theorem firstOf_mem {k : CfgKey} {s : Setting} : ∀ {lines : List CfgLine}, firstOf k lines = some s →
    s.key = k ∧ ∃ tabs, CfgLine.setting tabs s ∈ lines := by
  intro lines
  induction lines with
  | nil =>
    intro h
    cases h
  | cons line lines ih =>
    intro h
    cases line with
    | other t =>
      obtain ⟨hk, tabs, hmem⟩ := ih h
      exact ⟨hk, tabs, List.mem_cons_of_mem _ hmem⟩
    | setting tabs s' =>
      rw [firstOf] at h
      split at h
      next hk =>
        cases h
        exact ⟨hk, tabs, List.mem_cons_self⟩
      next =>
        obtain ⟨hk, tabs', hmem⟩ := ih h
        exact ⟨hk, tabs', List.mem_cons_of_mem _ hmem⟩

/-- What the lines say about `k`. -/
def storeFirst (lines : List CfgLine) (cfg : Cfg) (k : CfgKey) : Cfg :=
  match firstOf k lines with
  | none => cfg
  | some s => s.store cfg

theorem getter_render {inet : Inet} {lines : List CfgLine} (h : ∀ l ∈ lines, l.WellFormed inet) (k : CfgKey)
    (cfg : Cfg) : getter inet k (renderCfg inet lines) cfg = some (0, storeFirst lines cfg k) := by
  have hfind := findEntry_render inet k lines h
  rw [storeFirst]
  cases hfirst : firstOf k lines with
  | none =>
    rw [hfirst] at hfind
    exact getter_missing cfg hfind
  | some s =>
    rw [hfirst] at hfind
    obtain ⟨rfl, tabs, hmem⟩ := firstOf_mem hfirst
    have hline := h _ hmem
    have hshort := hline.short
    rw [CfgLine.text, List.length_append, List.length_cons, List.length_append] at hshort
    exact getters_stored cfg (hline.setting tabs s rfl) (by omega) hfind

/-- **A configuration is read back.** Whatever the order of the lines of a file and
whatever comments stand between them, `load_cfg` stores the first setting of every key
and leaves what has none. -/
theorem loadCfg_render (inet : Inet) {lines : List CfgLine} (h : ∀ l ∈ lines, l.WellFormed inet) (cfg : Cfg) :
    loadCfg inet (some (renderCfg inet lines)) cfg = some (0, loadOrder.foldl (storeFirst lines) cfg) := by
  have hall : ∀ (ks : List CfgKey) (cfg : Cfg),
      getAll (ks.map fun k => getter inet k (renderCfg inet lines)) cfg =
        some (0, ks.foldl (storeFirst lines) cfg) := by
    intro ks
    induction ks with
    | nil => exact fun _ => rfl
    | cons k ks ih =>
      intro cfg
      rw [List.map_cons, getAll, getter_render h]
      exact ih _
  rw [loadCfg_getters]
  exact hall loadOrder cfg

/-- `1.2.3.4:8080`. -/
def listenPort : IpPort := { webPort with port := ntohs 8080 }

/-- A comment, three settings, and a second value for one of them. -/
def someLines : List CfgLine :=
  [.other (str "#use tab"), .setting 0 (.wafId 7), .setting 1 (.listenIp listenPort), .other [],
    .setting 0 (.dbName (str "waf")), .setting 0 (.wafId 8)]

def someCfg : Cfg := { httpaddr := webPort, rsaddr := webPort, nwork := 2, wafid := 0, dcfg := ⟨[], [], [], []⟩ }

theorem loadCfg_render_some : loadCfg fullTexts (some (renderCfg fullTexts someLines)) someCfg =
    some (0, { someCfg with httpaddr := listenPort, wafid := 7, dcfg.dbName := str "waf" }) := by
  have hkeys : ∀ k : CfgKey, ¬ k.name <:+: str "waf" := by
    intro k
    cases k <;> decide
  have hnone : ∀ k : CfgKey, ¬ k.name <:+: [] := fun k hk => name_ne_nil k (List.eq_nil_of_infix_nil hk)
  have hlines : ∀ l ∈ someLines, l.WellFormed fullTexts := by
    have hset : ∀ tabs s, ((CfgLine.setting tabs s).text fullTexts).length ≤ 126 → s.Valid →
        (CfgLine.setting tabs s).WellFormed fullTexts := by
      intro tabs s hshort hvalid
      refine ⟨hshort, fun t ht => (by cases ht), fun tabs' s' hs => ?_⟩
      cases hs
      exact hvalid
    have hother : ∀ t, t.length ≤ 126 → ch '\n' ∉ t ∧ 0 ∉ t ∧
        (t.head? = some (ch '#') ∨ ∀ k : CfgKey, ¬ k.name <:+: t) → (CfgLine.other t).WellFormed fullTexts := by
      intro t hshort hplain
      refine ⟨hshort, fun t' ht => ?_, fun tabs s hs => (by cases hs)⟩
      cases ht
      exact hplain
    intro l hl
    simp only [someLines, List.mem_cons, List.not_mem_nil, or_false] at hl
    rcases hl with rfl | rfl | rfl | rfl | rfl | rfl
    · exact hother _ (by decide) ⟨by decide, by decide, Or.inl rfl⟩
    · exact hset _ _ (by decide) (show (7 : Nat) < 2 ^ 31 by decide)
    · exact hset _ _ (by decide +kernel) (Or.inl ⟨rfl, rfl⟩)
    · exact hother _ (by decide) ⟨by decide, by decide, Or.inr hnone⟩
    · exact hset _ _ (by decide) ⟨⟨by decide, ⟨by decide, by decide, by decide⟩, hkeys⟩, by decide⟩
    · exact hset _ _ (by decide) (show (8 : Nat) < 2 ^ 31 by decide)
  exact loadCfg_render fullTexts hlines someCfg

end WafProxy
