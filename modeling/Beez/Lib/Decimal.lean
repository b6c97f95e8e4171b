import Mathlib.Tactic.Common
import Mathlib.Algebra.Ring.Nat

/-! # Decimal digits, padded with zeros -/

namespace Beez.Lib

def decimal (n : Nat) : List Char := Nat.toDigits 10 n

/-- The digits of `n`, with zeros before them up to `width`. -/
def padded (width n : Nat) : List Char := (decimal n).leftpad width '0'

theorem ofDigitChars_padded (width n : Nat) : Nat.ofDigitChars 10 (padded width n) 0 = n := by
  unfold padded decimal List.leftpad
  rw [Nat.ofDigitChars_append, Nat.ofDigitChars_replicate_zero, Nat.mul_zero,
    Nat.ofDigitChars_ten_toDigits]

theorem padded_inj {width m n : Nat} (h : padded width m = padded width n) : m = n := by
  rw [← ofDigitChars_padded width m, h, ofDigitChars_padded]

theorem decimal_inj {m n : Nat} (h : decimal m = decimal n) : m = n := by
  have same : padded 0 m = padded 0 n := by simp [padded, List.leftpad, h]
  exact padded_inj same

theorem length_padded {width n : Nat} (positive : 0 < width) (h : n < 10 ^ width) :
    (padded width n).length = width := by
  have := (Nat.length_toDigits_le_iff (b := 10) (by decide) positive).mpr h
  simp only [padded, decimal, List.leftpad, List.length_append, List.length_replicate]
  omega

theorem isDigit_of_mem_decimal {n : Nat} {c : Char} (h : c ∈ decimal n) : c.isDigit :=
  Nat.isDigit_of_mem_toDigits (by decide) (by decide) h

theorem not_mem_decimal {c : Char} (h : c.isDigit = false) (n : Nat) : c ∉ decimal n := by
  intro hmem
  rw [isDigit_of_mem_decimal hmem] at h
  cases h

theorem isDigit_of_mem_padded {width n : Nat} {c : Char} (h : c ∈ padded width n) : c.isDigit := by
  unfold padded List.leftpad at h
  rcases List.mem_append.mp h with h | h
  · rw [List.eq_of_mem_replicate h]
    decide
  · exact isDigit_of_mem_decimal h

example : padded 3 42 = ['0', '4', '2'] := by decide

end Beez.Lib
