import Mathlib.Algebra.Group.Int.Defs
import Mathlib.Algebra.Group.Nat.Defs
import WafProxy.Lib.Memory

/-
  The C library on bytes — character classes, `strtol`, `strncasecmp`

  In the C locale: a byte from 128 on is in no class. `strtol` reads a byte
  list that stands for the memory from the pointer on; its end stands for the
  NUL behind the string. `long` has 64 bits and saturates, `int` has 32.

  Correspondence (C ↔ Lean):
    `isspace`, `isdigit`, … , `tolower`  ↔ the same names
    `strtol(p, NULL, base)`              ↔ `strtol` (bases 8, 10 and 16)
    `strncasecmp(p, s, n)` with `n` at most the length of the constant `s`
                                         ↔ `strncasecmpEq` (on a memory, equal or not),
                                           `startsWithCase` (on a list)
-/

namespace Lib

/-- The bytes of a character and of a string constant. -/
def ch (c : Char) : UInt8 := c.toNat.toUInt8

def str (s : String) : List UInt8 := s.toList.map ch

def crlf : List UInt8 := [ch '\r', ch '\n']

/-- What holds of the numbers up to 255 holds of every byte. -/
theorem forall_byte {P : UInt8 → Prop} (h : ∀ n < 256, P (UInt8.ofNat n)) (b : UInt8) : P b := by
  have hb := h b.toNat b.toNat_lt
  rwa [UInt8.ofNat_toNat] at hb

/-- What holds of the bytes of a text, tested one by one. -/
theorem forall_text {P : UInt8 → Prop} [DecidablePred P] {l : List UInt8}
    (h : (l.all fun b => decide (P b)) = true) : ∀ b ∈ l, P b :=
  fun b hb => of_decide_eq_true (List.all_eq_true.mp h b hb)

/-! ## Character classes -/

def isspace (b : UInt8) : Bool := b = 32 || (9 ≤ b && b ≤ 13)

def isdigit (b : UInt8) : Bool := ch '0' ≤ b && b ≤ ch '9'

def isupper (b : UInt8) : Bool := ch 'A' ≤ b && b ≤ ch 'Z'

def islower (b : UInt8) : Bool := ch 'a' ≤ b && b ≤ ch 'z'

def isalnum (b : UInt8) : Bool := isupper b || islower b || isdigit b

def isxdigit (b : UInt8) : Bool :=
  isdigit b || (ch 'a' ≤ b && b ≤ ch 'f') || (ch 'A' ≤ b && b ≤ ch 'F')

def tolower (b : UInt8) : UInt8 := if isupper b then b + 32 else b

/-! ## `strtol` -/

/-- The value of a digit in bases up to 16. -/
def digitValue (b : UInt8) : Option Nat :=
  if isdigit b then some (b.toNat - 48)
  else if ch 'a' ≤ tolower b && tolower b ≤ ch 'f' then some ((tolower b).toNat - 87)
  else none

/-- What a hexadecimal digit is not. -/
theorem isxdigit_plain {c : UInt8} (h : isxdigit c = true) :
    isspace c = false ∧ c ≠ ch '-' ∧ c ≠ ch '+' ∧ tolower c ≠ ch 'x' ∧ tolower c ≠ ch 'u' ∧ c ≠ ch '\r' := by
  revert c
  apply forall_byte
  decide +kernel

theorem isdigit_isxdigit (b : UInt8) (h : isdigit b = true) : isxdigit b = true := by
  rw [isxdigit, h]
  rfl

theorem isalnum_tolower : ∀ b, isalnum (tolower b) = isalnum b := by
  apply forall_byte
  decide +kernel

/-- The digits of base 16. -/
theorem digitValue_hex (c : UInt8) : isxdigit c = true ↔ ∃ d, digitValue c = some d ∧ d < 16 := by
  have hall : ∀ c, isxdigit c = (digitValue c).any fun d => decide (d < 16) := by
    apply forall_byte
    decide +kernel
  rw [hall, Option.any_eq_true]
  simp

theorem digitValue_digit {b : UInt8} (h : isdigit b = true) : digitValue b = some (b.toNat - 48) := if_pos h

/-- A letter stands for 10 at least, and for 15 at most. -/
theorem digitValue_letter {b : UInt8} {d : Nat} (hb : isdigit b = false) (h : digitValue b = some d) :
    10 ≤ d ∧ d < 16 := by
  rw [digitValue, if_neg (by rw [hb]; exact Bool.false_ne_true)] at h
  split at h
  next hletter =>
    rw [Bool.and_eq_true, decide_eq_true_eq, decide_eq_true_eq, UInt8.le_iff_toNat_le,
      UInt8.le_iff_toNat_le] at hletter
    have ha : (ch 'a').toNat = 97 := rfl
    have hf : (ch 'f').toNat = 102 := rfl
    have hd := Option.some.inj h
    omega
  next => cases h

theorem digitValue_noHex {b : UInt8} (h : isxdigit b = false) : digitValue b = none := by
  cases hd : digitValue b with
  | none => rfl
  | some d =>
    have hdigit : isdigit b = false := by
      by_contra hno
      rw [isdigit_isxdigit b (Bool.not_eq_false _ ▸ hno)] at h
      cases h
    rw [(digitValue_hex b).mpr ⟨d, hd, (digitValue_letter hdigit hd).2⟩] at h
    cases h

/-- The number the leading digits of a base spell, on top of `acc`. -/
def digits (base : Nat) : Nat → List UInt8 → Nat
  | acc, [] => acc
  | acc, b :: l =>
    match digitValue b with
    | some d => if d < base then digits base (acc * base + d) l else acc
    | none => acc

def LONG_MAX : Int := 2 ^ 63 - 1

/-- The prefix `0x` of base 16, which counts only in front of a digit. -/
def skipHexMark (base : Nat) (l : List UInt8) : List UInt8 :=
  match l with
  | z :: x :: d :: rest =>
    if base = 16 ∧ z = ch '0' ∧ tolower x = ch 'x' ∧ isxdigit d then d :: rest else l
  | _ => l

def strtol (l : List UInt8) (base : Nat) : Int :=
  match l.dropWhile isspace with
  | [] => 0
  | s :: rest =>
    if s = ch '-' then max (-(digits base 0 (skipHexMark base rest) : Int)) (-LONG_MAX - 1)
    else if s = ch '+' then min (digits base 0 (skipHexMark base rest)) LONG_MAX
    else min (digits base 0 (skipHexMark base (s :: rest))) LONG_MAX

/-- The conversion to a 32-bit `int`. -/
def toInt32 (n : Int) : Int := Int.bmod n (2 ^ 32)

theorem toInt32_small {n : Int} (h0 : 0 ≤ n) (h : n < 2 ^ 31) : toInt32 n = n := by
  unfold toInt32
  rw [Int.bmod_def]
  split <;> omega

example : strtol (str "1aG") 16 = 26 := by decide

/-! ## Comparison without regard to case -/

/-- `strncasecmp(p, s, strlen(s)) == 0` for the bytes `l` at `p`. -/
def startsWithCase : List UInt8 → List UInt8 → Bool
  | _, [] => true
  | [], _ :: _ => false
  | b :: l, c :: s => tolower b = tolower c && startsWithCase l s

/-- The same in a memory; the comparison stops at the first difference. -/
def strncasecmpEq (p : Int) : List UInt8 → Access UInt8 Bool
  | [] => pure true
  | c :: s => do
    let b ← Access.read p
    if tolower b = tolower c then strncasecmpEq (p + 1) s else pure false

end Lib
