import WafProxy.Http.Types
import WafProxy.Lib.SqlText

/-
  The attack log — log_db.c

  `log_attack` copies what a request says about itself into an `alog_t`, and
  `log_data` prints that into an SQL statement. The text a `%s` prints starts at
  a field and ends at the first NUL, be it in that field or behind it, so the
  structure is kept byte by byte: `AlogMem` gives the byte at each offset. The
  two numbers set in it are kept apart; the bytes in front of them are 0.

  Correspondence (C ↔ Lean):
    `_escape_append_str`   ↔ `escapeAppendStr` (the bytes it writes: `escapeBytes`)
    `log_attack`           ↔ `alogOf` (the structure), `logAttack` (the statement)
    `log_data`             ↔ `logData`
    `http_get_str`         ↔ the fields of `AttackRequest`, up to their first NUL
    `get_pkt_buf`          ↔ `AttackRequest.pkt`
-/

namespace WafProxy
open Lib

/-! ## `alog_t` -/

/-- The bytes of an `alog_t` from its start. -/
abbrev AlogMem := Nat → Byte

def hostAt : Nat := 8
def urlAt : Nat := 136
def srcIpAt : Nat := 263
def dstIpAt : Nat := 287
def idAt : Nat := 320
def catalogAt : Nat := 352
def methodAt : Nat := 388
def msgAt : Nat := 398
def agentAt : Nat := 526
def cookieAt : Nat := 654
def rawAt : Nat := 1166

/-- `sizeof(alog_t)`; the last three bytes are padding. -/
def sizeofAlog : Nat := 3216

structure Alog where
  time : Int
  srcPort : Int
  mem : AlogMem

/-- Bytes written from `off` on. -/
def putBytes (m : AlogMem) (off : Nat) (bytes : List Byte) : AlogMem := fun j =>
  if off ≤ j ∧ j < off + bytes.length then bytes.getD (j - off) 0 else m j

/-- The string at the start of `l`. -/
def cString (l : List Byte) : List Byte := l.takeWhile (· ≠ 0)

/-- The `n` bytes that `strncpy` writes; a long string has no NUL behind it. -/
def padded (src : List Byte) (n : Nat) : List Byte :=
  (cString src).take n ++ List.replicate (n - (cString src).length) 0

def strncpy (m : AlogMem) (off : Nat) (src : List Byte) (n : Nat) : AlogMem :=
  putBytes m off (padded src n)

/-- What `_escape_append_str` writes with `n` bytes written. The test for the
room is made before a byte that takes two. -/
def escapeBytes (max : Nat) : Nat → List Byte → List Byte
  | _, [] => []
  | n, c :: s =>
    if c = 0 ∨ max ≤ n then []
    else if c = dquote then backslash :: dquote :: escapeBytes max (n + 2) s
    else c :: escapeBytes max (n + 1) s

def escapeAppendStr (m : AlogMem) (off : Nat) (src : List Byte) (max : Nat) : AlogMem :=
  putBytes m off (escapeBytes max 0 src)

/-- The string at `off`, which ends within `k` bytes. -/
def textAt (m : AlogMem) : Nat → Nat → List Byte
  | 0, _ => []
  | k + 1, off => if m off = 0 then [] else m off :: textAt m k (off + 1)

/-! ## Bytes written and texts read -/

theorem putBytes_lt {m : AlogMem} {off j : Nat} {bytes : List Byte} (h : j < off) :
    putBytes m off bytes j = m j := by
  unfold putBytes
  rw [if_neg (by omega)]

theorem putBytes_ge {m : AlogMem} {off j : Nat} {bytes : List Byte} (h : off + bytes.length ≤ j) :
    putBytes m off bytes j = m j := by
  unfold putBytes
  rw [if_neg (by omega)]

theorem putBytes_in {m : AlogMem} {off j : Nat} {bytes : List Byte} (h : off ≤ j)
    (hj : j < off + bytes.length) : putBytes m off bytes j = bytes.getD (j - off) 0 := by
  unfold putBytes
  rw [if_pos ⟨h, hj⟩]

/-- In front of NULs the bytes stand as they are, with NULs behind them. -/
theorem putBytes_field {m : AlogMem} {off j : Nat} {bytes : List Byte} (h : off ≤ j) (hm : m j = 0) :
    putBytes m off bytes j = bytes.getD (j - off) 0 := by
  unfold putBytes
  by_cases hj : j < off + bytes.length
  · rw [if_pos ⟨h, hj⟩]
  · rw [if_neg fun hin => hj hin.2, hm, List.getD_eq_getElem?_getD, List.getElem?_eq_none (by omega)]
    rfl

/-- A text that a NUL in its own field ends. -/
theorem textAt_eq {m : AlogMem} : ∀ {k off : Nat} {text : List Byte}, text.length < k → 0 ∉ text →
    (∀ i, i ≤ text.length → m (off + i) = text.getD i 0) → textAt m k off = text
  | 0, _, _, hk, _, _ => absurd hk (Nat.not_lt_zero _)
  | k + 1, off, [], _, _, hm => by
    have h0 : m off = 0 := hm 0 (Nat.le_refl _)
    rw [textAt, if_pos h0]
  | k + 1, off, b :: text, hk, hno, hm => by
    have h0 : m off = b := hm 0 (Nat.zero_le _)
    have hb : b ≠ 0 := fun heq => hno (heq ▸ List.mem_cons_self)
    rw [textAt, h0, if_neg hb]
    congr 1
    apply textAt_eq (Nat.lt_of_succ_lt_succ hk) fun hmem => hno (List.mem_cons_of_mem _ hmem)
    intro i hi
    have hnext := hm (i + 1) (Nat.succ_le_succ hi)
    rw [Nat.add_assoc, Nat.add_comm 1 i]
    exact hnext

theorem zero_notMem_textAt {m : AlogMem} : ∀ {k off : Nat}, (0 : Byte) ∉ textAt m k off
  | 0, _ => List.not_mem_nil
  | k + 1, off => by
    rw [textAt]
    split
    · exact List.not_mem_nil
    next h0 =>
      intro hmem
      rcases List.mem_cons.mp hmem with heq | hmem
      · exact h0 heq.symm
      · exact zero_notMem_textAt hmem

/-- A text ends at the first NUL behind its start. -/
theorem textAt_until {m : AlogMem} {stop : Nat} (h : m stop = 0) : ∀ {k off : Nat}, off ≤ stop →
    (textAt m k off).length ≤ stop - off ∧
      ∀ b ∈ textAt m k off, b ≠ 0 ∧ ∃ j, off ≤ j ∧ j < stop ∧ m j = b
  | 0, off, _ => ⟨Nat.zero_le _, fun b hb => by cases hb⟩
  | k + 1, off, hoff => by
    rw [textAt]
    by_cases h0 : m off = 0
    · rw [if_pos h0]
      exact ⟨Nat.zero_le _, fun b hb => by cases hb⟩
    · have hlt : off < stop := by
        apply Nat.lt_of_le_of_ne hoff
        intro heq
        exact h0 (heq ▸ h)
      obtain ⟨hlen, hmem⟩ := @textAt_until m stop h k (off + 1) hlt
      rw [if_neg h0]
      constructor
      · rw [List.length_cons]
        omega
      · intro b hb
        rcases List.mem_cons.mp hb with rfl | hb
        · exact ⟨h0, off, Nat.le_refl _, hlt, rfl⟩
        · obtain ⟨hne, j, hlo, hhi, hj⟩ := hmem b hb
          exact ⟨hne, j, Nat.le_of_succ_le hlo, hhi, hj⟩

theorem zero_notMem_cString (l : List Byte) : (0 : Byte) ∉ cString l := by
  intro hmem
  have h0 := List.all_eq_true.mp (List.all_takeWhile (p := fun b => decide (b ≠ 0))) 0 hmem
  simp at h0

/-! ## `log_data` -/

/-- `%d`. -/
def decimal (n : Int) : List Byte :=
  if n < 0 then ch '-' :: (Nat.toDigits 10 n.natAbs).map ch else (Nat.toDigits 10 n.natAbs).map ch

def insertHeader : List Byte :=
  str "insert into waf_log_cdate(time,host,url,src_ip,dst_ip,src_port,dst_port," ++
    str "sig_id, catalog,action,method,msg,agent,cookie,raw) values("

/-- The values of the statement; `dst_port` and `action` are never set. -/
def alogItems (log : Alog) : List SqlItem :=
  let text (off : Nat) := SqlItem.text (textAt log.mem sizeofAlog off)
  [.num (decimal (toInt32 log.time)), text hostAt, text urlAt, text srcIpAt, text dstIpAt,
    .num (decimal log.srcPort), .num (ch ' ' :: decimal 0), text idAt, text catalogAt,
    .num (decimal 0), text methodAt, text msgAt, text agentAt, text cookieAt, text rawAt]

/-- The statement `log_data` sends; its buffer has 4096 bytes. -/
def logData (log : Alog) : List Byte := (insertHeader ++ renderItems (alogItems log)).take 4095

/-! ## `log_attack` -/

/-- What `log_attack` takes from the connection. -/
structure AttackRequest where
  time : Int
  host : List Byte
  url : List Byte
  method : HttpMethod
  /-- What `ip_addr_to_str` writes. -/
  cliaddr : List Byte
  cliport : UInt16
  agent : List Byte
  cookie : List Byte
  /-- The first packet of the client's queue. -/
  pkt : List Byte

/-- `sublog_t`. -/
structure Sublog where
  id : List Byte
  catalog : List Byte

/-- The table `method`. -/
def methodName : HttpMethod → List Byte
  | .none => str "NONE"
  | .na => str "NA"
  | .get => str "GET"
  | .post => str "POST"
  | .head => str "HEAD"
  | .option => str "OPTION"
  | .put => str "PUT"
  | .connect => str "CONNECT"
  | .delete => str "DELETE"
  | .trace => str "TRACE"
  | .webdav => str "WEBDAV"

/-- The length that is passed for the packet. -/
def rawMax (r : AttackRequest) : Nat := if 2047 ≤ r.pkt.length then 2046 else r.pkt.length

/-- The `alog_t` that `log_attack` fills. -/
def alogOf (r : AttackRequest) (slog : Sublog) : Alog :=
  let m := strncpy (fun _ => 0) hostAt r.host 128
  let m := escapeAppendStr m urlAt r.url 126
  let m := strncpy m methodAt (methodName r.method) 10
  let m := strncpy m srcIpAt r.cliaddr 24
  let m := strncpy m idAt slog.id 32
  let m := strncpy m catalogAt slog.catalog 32
  let m := escapeAppendStr m agentAt r.agent 127
  let m := escapeAppendStr m cookieAt r.cookie 512
  let m := escapeAppendStr m rawAt r.pkt (rawMax r)
  { time := r.time, srcPort := r.cliport.toNat, mem := m }

def logAttack (r : AttackRequest) (slog : Sublog) : List Byte := logData (alogOf r slog)

end WafProxy
