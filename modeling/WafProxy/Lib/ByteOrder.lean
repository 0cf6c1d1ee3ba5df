import Mathlib.Algebra.Order.Group.Nat
import Mathlib.Data.Nat.Bitwise
import Mathlib.Tactic.Ring

/-
  Bytes and the numbers they stand for

  A list of bytes is a number in two ways, the least significant byte first
  (`little`) or last (`big`).

  Rules:
    1. `littleBytes_little`, `little_littleBytes` — bytes and numbers of a width.
    2. `little_reverse`, `big_inj` — the other order is the list turned round.
    3. `memcmp_neg`, `memcmp_pos`, `memcmp_zero` — texts of one length compare as
       the numbers they are with the most significant byte first.
-/

namespace Lib

def little : List UInt8 → Nat
  | [] => 0
  | b :: bs => b.toNat + 256 * little bs

def big : List UInt8 → Nat
  | [] => 0
  | b :: bs => b.toNat * 256 ^ bs.length + big bs

/-- The `w` low bytes of a number, the least significant first. -/
def littleBytes : Nat → Nat → List UInt8
  | 0, _ => []
  | w + 1, n => UInt8.ofNat (n % 256) :: littleBytes w (n / 256)

@[simp] theorem littleBytes_length (w n : Nat) : (littleBytes w n).length = w := by
  induction w generalizing n with
  | zero => rfl
  | succ w ih => rw [littleBytes, List.length_cons, ih]

theorem little_lt (l : List UInt8) : little l < 256 ^ l.length := by
  induction l with
  | nil => exact Nat.one_pos
  | cons b l ih =>
    have hb := b.toNat_lt
    rw [little, List.length_cons, Nat.pow_succ]
    omega

theorem big_lt (l : List UInt8) : big l < 256 ^ l.length := by
  induction l with
  | nil => exact Nat.one_pos
  | cons b l ih =>
    have hb := Nat.mul_le_mul_right (256 ^ l.length) (Nat.succ_le_of_lt b.toNat_lt)
    rw [Nat.succ_mul] at hb
    rw [big, List.length_cons, Nat.pow_succ]
    omega

theorem littleBytes_little (l : List UInt8) : littleBytes l.length (little l) = l := by
  induction l with
  | nil => rfl
  | cons b l ih =>
    have hb := b.toNat_lt
    have hmod : (b.toNat + 256 * little l) % 256 = b.toNat := by omega
    have hdiv : (b.toNat + 256 * little l) / 256 = little l := by omega
    rw [little, List.length_cons, littleBytes, hmod, hdiv, ih, UInt8.ofNat_toNat]

theorem little_littleBytes (w n : Nat) : little (littleBytes w n) = n % 256 ^ w := by
  induction w generalizing n with
  | zero => rw [Nat.pow_zero, Nat.mod_one]; rfl
  | succ w ih =>
    have hbyte : (UInt8.ofNat (n % 256)).toNat = n % 256 := by
      rw [UInt8.toNat_ofNat']
      omega
    rw [littleBytes, little, ih, hbyte, Nat.pow_succ', Nat.mod_mul]

theorem little_append (l r : List UInt8) : little (l ++ r) = little l + 256 ^ l.length * little r := by
  induction l with
  | nil => rw [List.nil_append, List.length_nil, Nat.pow_zero, Nat.one_mul, little, Nat.zero_add]
  | cons b l ih =>
    rw [List.cons_append, little, ih, little, List.length_cons, Nat.pow_succ]
    ring

theorem little_reverse (l : List UInt8) : little l.reverse = big l := by
  induction l with
  | nil => rfl
  | cons b l ih =>
    rw [List.reverse_cons, little_append, ih, List.length_reverse, big, little, little]
    ring

theorem big_append (l r : List UInt8) : big (l ++ r) = big l * 256 ^ r.length + big r := by
  induction l with
  | nil => rw [List.nil_append, big, Nat.zero_mul, Nat.zero_add]
  | cons b l ih =>
    rw [List.cons_append, big, ih, big, List.length_append, Nat.pow_add]
    ring

/-- Bytes of one length are known by their number. -/
theorem big_inj {l r : List UInt8} (hlen : l.length = r.length) (h : big l = big r) : l = r := by
  rw [← little_reverse, ← little_reverse] at h
  have hbytes := littleBytes_little l.reverse
  rw [h, List.length_reverse, hlen, ← List.length_reverse, littleBytes_little] at hbytes
  exact (List.reverse_inj.mp hbytes).symm

/-- A number is known by its bytes. -/
theorem littleBytes_inj {w m n : Nat} (hm : m < 256 ^ w) (hn : n < 256 ^ w)
    (h : littleBytes w m = littleBytes w n) : m = n := by
  have hlittle := congrArg little h
  rwa [little_littleBytes, little_littleBytes, Nat.mod_eq_of_lt hm, Nat.mod_eq_of_lt hn] at hlittle

/-! ## Comparison -/

/-- `memcmp` on two texts of one length; only the sign of its result means something. -/
def memcmp : List UInt8 → List UInt8 → Int
  | a :: as, b :: bs => if a = b then memcmp as bs else (a.toNat : Int) - b.toNat
  | _, _ => 0

/-- Before the first difference both texts are one number. -/
theorem memcmp_cases {l r : List UInt8} (h : l.length = r.length) :
    memcmp l r = 0 ∧ l = r ∨ memcmp l r < 0 ∧ big l < big r ∨ 0 < memcmp l r ∧ big r < big l := by
  induction l generalizing r with
  | nil =>
    left
    exact ⟨by cases r <;> rfl, (List.length_eq_zero_iff.mp h.symm).symm⟩
  | cons a l ih =>
    cases r with
    | nil => cases h
    | cons b r =>
      have hlen := Nat.succ.inj h
      rw [memcmp, big, big, hlen]
      by_cases hab : a = b
      · rw [if_pos hab, hab]
        rcases ih hlen with ⟨hzero, rfl⟩ | ⟨hneg, hlt⟩ | ⟨hpos, hlt⟩
        · exact Or.inl ⟨hzero, rfl⟩
        · exact Or.inr (Or.inl ⟨hneg, Nat.add_lt_add_left hlt _⟩)
        · exact Or.inr (Or.inr ⟨hpos, Nat.add_lt_add_left hlt _⟩)
      · rw [if_neg hab]
        have hl := big_lt l
        have hr := big_lt r
        rw [hlen] at hl
        have hne : a.toNat ≠ b.toNat := fun heq => hab (UInt8.toNat_inj.mp heq)
        right
        rcases Nat.lt_or_gt_of_ne hne with hlt | hgt
        · have hmul := Nat.mul_le_mul_right (256 ^ r.length) (Nat.succ_le_of_lt hlt)
          rw [Nat.succ_mul] at hmul
          exact Or.inl ⟨by omega, by omega⟩
        · have hmul := Nat.mul_le_mul_right (256 ^ r.length) (Nat.succ_le_of_lt hgt)
          rw [Nat.succ_mul] at hmul
          exact Or.inr ⟨by omega, by omega⟩

section
variable {l r : List UInt8} (h : l.length = r.length)
include h

theorem memcmp_neg : memcmp l r < 0 ↔ big l < big r := by
  rcases memcmp_cases h with ⟨hzero, rfl⟩ | ⟨hneg, hlt⟩ | ⟨hpos, hlt⟩
  · exact iff_of_false (by omega) (Nat.lt_irrefl _)
  · exact iff_of_true hneg hlt
  · exact iff_of_false (by omega) (by omega)

theorem memcmp_pos : 0 < memcmp l r ↔ big r < big l := by
  rcases memcmp_cases h with ⟨hzero, rfl⟩ | ⟨hneg, hlt⟩ | ⟨hpos, hlt⟩
  · exact iff_of_false (by omega) (Nat.lt_irrefl _)
  · exact iff_of_false (by omega) (by omega)
  · exact iff_of_true hpos hlt

theorem memcmp_zero : memcmp l r = 0 ↔ l = r := by
  rcases memcmp_cases h with ⟨hzero, rfl⟩ | ⟨hneg, hlt⟩ | ⟨hpos, hlt⟩
  · exact iff_of_true hzero rfl
  · exact iff_of_false (by omega) (fun heq => absurd (congrArg big heq) (by omega))
  · exact iff_of_false (by omega) (fun heq => absurd (congrArg big heq) (by omega))

end

end Lib
