import Beez.Lib.Decimal
import Mathlib.Data.Char
import Mathlib.Data.List.Lex

/-! # Numbers of one width sort by their digits -/

namespace Beez.Lib

theorem append_lt_append {α : Type*} [LT α] {front front' : List α}
    (length : front.length = front'.length) (h : front < front') (rest rest' : List α) :
    front ++ rest < front' ++ rest' := by
  induction front generalizing front' with
  | nil =>
    obtain rfl := List.length_eq_zero_iff.mp length.symm
    exact absurd h (List.not_lt_nil _)
  | cons a front ih =>
    cases front' with
    | nil => cases length
    | cons b front' =>
      rw [List.cons_lt_cons_iff] at h
      rw [List.cons_append, List.cons_append, List.cons_lt_cons_iff]
      rcases h with less | ⟨rfl, h⟩
      · exact .inl less
      · exact .inr ⟨rfl, ih (Nat.succ.inj length) h⟩

theorem ofDigitChars_cons_eq (c : Char) (digits : List Char) :
    Nat.ofDigitChars 10 (c :: digits) 0 =
      10 ^ digits.length * (c.toNat - '0'.toNat) + Nat.ofDigitChars 10 digits 0 := by
  rw [Nat.ofDigitChars_cons, Nat.ofDigitChars_eq_ofDigitChars_zero, Nat.mul_zero, Nat.zero_add]

theorem ofDigitChars_lt_pow {digits : List Char} (h : ∀ c ∈ digits, c.isDigit) :
    Nat.ofDigitChars 10 digits 0 < 10 ^ digits.length := by
  induction digits with
  | nil => decide
  | cons c digits ih =>
    rw [List.forall_mem_cons] at h
    have value := ih h.2
    have digit : c.toNat - '0'.toNat ≤ 9 := by
      have : c.toNat ≤ '9'.toNat := (Bool.and_eq_true_iff.mp h.1).2 |> of_decide_eq_true
      simp at this ⊢
      omega
    have scaled := Nat.mul_le_mul_left (10 ^ digits.length) digit
    rw [ofDigitChars_cons_eq, List.length_cons, Nat.pow_succ]
    omega

/-- A list of digits that is less, and as long, writes a smaller number. -/
theorem ofDigitChars_lt {s t : List Char} (length : s.length = t.length)
    (hs : ∀ c ∈ s, c.isDigit) (ht : ∀ c ∈ t, c.isDigit) (h : s < t) :
    Nat.ofDigitChars 10 s 0 < Nat.ofDigitChars 10 t 0 := by
  induction s generalizing t with
  | nil =>
    obtain rfl := List.length_eq_zero_iff.mp length.symm
    exact absurd h (List.not_lt_nil _)
  | cons c s ih =>
    cases t with
    | nil => cases length
    | cons d t =>
      rw [List.forall_mem_cons] at hs ht
      have same : s.length = t.length := Nat.succ.inj length
      rw [List.cons_lt_cons_iff] at h
      rw [ofDigitChars_cons_eq, ofDigitChars_cons_eq, same]
      rcases h with less | ⟨rfl, h⟩
      · have hc : '0'.toNat ≤ c.toNat := (Bool.and_eq_true_iff.mp hs.1).1 |> of_decide_eq_true
        have hcd : c.toNat < d.toNat := less
        have digit : c.toNat - '0'.toNat + 1 ≤ d.toNat - '0'.toNat := by omega
        have scaled := Nat.mul_le_mul_left (10 ^ t.length) digit
        have value := ofDigitChars_lt_pow hs.2
        rw [same] at value
        rw [Nat.mul_add] at scaled
        omega
      · have := ih same hs.2 ht.2 h
        omega

theorem padded_lt {width m n : Nat} (positive : 0 < width) (h : m < n) (hn : n < 10 ^ width) :
    padded width m < padded width n := by
  have digits : ∀ k, ∀ c ∈ padded width k, c.isDigit := fun k c => isDigit_of_mem_padded
  have length : (padded width n).length = (padded width m).length := by
    rw [length_padded positive hn, length_padded positive (Nat.lt_trans h hn)]
  rcases lt_trichotomy (padded width m) (padded width n) with less | same | more
  · exact less
  · exact absurd (padded_inj same) (Nat.ne_of_lt h)
  · have := ofDigitChars_lt length (digits n) (digits m) more
    rw [ofDigitChars_padded, ofDigitChars_padded] at this
    omega

theorem padded_append_lt {width m n : Nat} (positive : 0 < width) (h : m < n) (hn : n < 10 ^ width)
    (rest rest' : List Char) : padded width m ++ rest < padded width n ++ rest' := by
  refine append_lt_append ?_ (padded_lt positive h hn) rest rest'
  rw [length_padded positive hn, length_padded positive (Nat.lt_trans h hn)]

end Beez.Lib
