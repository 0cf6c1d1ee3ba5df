import WafProxy.Lib.CString

/-
  Decimal numbers

  What `strtol` reads of the digits that `printf` writes, whole or cut off.

  Rules:
    1. `digits_front`, `digits_stop` — digits in front go into the number, and it
       ends where no digit is.
    2. `strtol_digits` — the number a run of digits is.
    3. `digits_decimal`, `digits_cut` — a printed number is read back, and is not
       when digits of it are missing.
-/

namespace Lib

/-- A number as it is printed. -/
def decimal (n : Nat) : List UInt8 := (Nat.toDigits 10 n).map ch

theorem digits_front {base : Nat} {front : List UInt8} (hfront : ∀ c ∈ front, ∃ d, digitValue c = some d ∧ d < base)
    (back : List UInt8) : ∀ acc, digits base acc (front ++ back) = digits base (digits base acc front) back := by
  induction front with
  | nil => exact fun _ => rfl
  | cons c front ih =>
    intro acc
    obtain ⟨d, hd, hlt⟩ := hfront c List.mem_cons_self
    rw [List.cons_append, digits, digits, hd]
    dsimp only
    rw [if_pos hlt, if_pos hlt]
    exact ih (fun q hq => hfront q (List.mem_cons_of_mem _ hq)) _

theorem digits_stop {base : Nat} {back : List UInt8}
    (hback : ∀ c ∈ back.head?, ∀ d, digitValue c = some d → base ≤ d) (acc : Nat) : digits base acc back = acc := by
  cases back with
  | nil => rfl
  | cons c back =>
    rw [digits]
    cases hd : digitValue c with
    | none => rfl
    | some d => exact if_neg (Nat.not_lt.mpr (hback c rfl d hd))

/-! ## Runs of digits -/

theorem isdigit_value {c : UInt8} (h : isdigit c = true) : ∃ d, digitValue c = some d ∧ d < 10 := by
  have hlt : ∀ c, isdigit c = true → c.toNat - 48 < 10 := by
    apply forall_byte
    decide +kernel
  exact ⟨c.toNat - 48, digitValue_digit h, hlt c h⟩

/-- No base has a mark in front but 16. -/
theorem skipHexMark_decimal (l : List UInt8) : skipHexMark 10 l = l := by
  rcases l with _ | ⟨z, _ | ⟨x, _ | ⟨d, rest⟩⟩⟩
  · rfl
  · rfl
  · rfl
  · rw [skipHexMark, if_neg fun h => absurd h.1 (show ¬ 10 = 16 by decide)]

theorem strtol_digits {digs tail : List UInt8} (hne : digs ≠ []) (hdigs : ∀ c ∈ digs, isdigit c = true)
    (htail : ∀ c ∈ tail.head?, isdigit c = false) :
    strtol (digs ++ tail) 10 = min (digits 10 0 digs : Int) LONG_MAX := by
  obtain ⟨c, rest, rfl⟩ := List.exists_cons_of_ne_nil hne
  obtain ⟨hspace, hminus, hplus, -⟩ := isxdigit_plain (isdigit_isxdigit c (hdigs c List.mem_cons_self))
  have hnumber : digits 10 0 (c :: (rest ++ tail)) = digits 10 0 (c :: rest) := by
    rw [← List.cons_append, digits_front (fun q hq => isdigit_value (hdigs q hq)), digits_stop]
    intro q hq d hd
    exact (digitValue_letter (htail q hq) hd).1
  unfold strtol
  rw [List.cons_append, List.dropWhile_cons, hspace, if_neg Bool.false_ne_true]
  dsimp only
  rw [if_neg hminus, if_neg hplus, skipHexMark_decimal, hnumber]

/-! ## Printed numbers -/

theorem digitChar_value : ∀ d < 10, digitValue (ch (Nat.digitChar d)) = some d ∧
    isdigit (ch (Nat.digitChar d)) = true := by
  decide

theorem decimal_small {n : Nat} (h : n < 10) : decimal n = [ch (Nat.digitChar n)] := by
  rw [decimal, Nat.toDigits_of_lt_base h]
  rfl

theorem decimal_large {n : Nat} (h : 10 ≤ n) : decimal n = decimal (n / 10) ++ [ch (Nat.digitChar (n % 10))] := by
  rw [decimal, Nat.toDigits_of_base_le (by decide) h, List.map_append]
  rfl

theorem decimal_ne_nil (n : Nat) : decimal n ≠ [] := fun h => Nat.toDigits_ne_nil (List.map_eq_nil_iff.mp h)

theorem decimal_isdigit (n : Nat) : ∀ c ∈ decimal n, isdigit c = true := by
  induction n using Nat.strongRecOn with
  | ind n ih =>
    intro c hc
    by_cases h : n < 10
    · rw [decimal_small h, List.mem_singleton] at hc
      rw [hc]
      exact (digitChar_value n h).2
    · rw [decimal_large (Nat.not_lt.mp h), List.mem_append, List.mem_singleton] at hc
      rcases hc with hc | hc
      · exact ih (n / 10) (by omega) c hc
      · rw [hc]
        exact (digitChar_value (n % 10) (by omega)).2

/-- **A printed number** is read back. -/
theorem digits_decimal (n : Nat) : digits 10 0 (decimal n) = n := by
  induction n using Nat.strongRecOn with
  | ind n ih =>
    by_cases h : n < 10
    · rw [decimal_small h, digits, (digitChar_value n h).1]
      dsimp only
      rw [if_pos h, digits]
      omega
    · have hlast : n % 10 < 10 := by omega
      rw [decimal_large (Nat.not_lt.mp h), digits_front (fun c hc => isdigit_value (decimal_isdigit _ c hc)),
        ih (n / 10) (by omega), digits, (digitChar_value _ hlast).1]
      dsimp only
      rw [if_pos hlast, digits]
      omega

/-- What is left of a number without its last digits. -/
theorem digits_take_le (n : Nat) : ∀ j, digits 10 0 ((decimal n).take j) ≤ n := by
  induction n using Nat.strongRecOn with
  | ind n ih =>
    intro j
    by_cases hj : (decimal n).length ≤ j
    · exact Nat.le_of_eq (by rw [List.take_of_length_le hj, digits_decimal])
    · have hj := Nat.not_le.mp hj
      by_cases h : n < 10
      · rw [decimal_small h, List.length_singleton, Nat.lt_one_iff] at hj
        rw [hj, List.take_zero]
        exact Nat.zero_le n
      · rw [decimal_large (Nat.not_lt.mp h), List.length_append, List.length_singleton] at hj
        rw [decimal_large (Nat.not_lt.mp h), List.take_append_of_le_length (by omega)]
        exact Nat.le_trans (ih (n / 10) (by omega) j) (Nat.div_le_self n 10)

/-- Without digits of it only 0 is what it was. -/
theorem digits_cut {n j : Nat} (hj : j < (decimal n).length) : digits 10 0 ((decimal n).take j) = n ↔ n = 0 := by
  by_cases h : n < 10
  · rw [decimal_small h, List.length_singleton, Nat.lt_one_iff] at hj
    rw [hj, List.take_zero]
    exact eq_comm
  · rw [decimal_large (Nat.not_lt.mp h), List.length_append, List.length_singleton] at hj
    rw [decimal_large (Nat.not_lt.mp h), List.take_append_of_le_length (by omega)]
    have hle := digits_take_le (n / 10) j
    exact iff_of_false (by omega) (by omega)

end Lib
