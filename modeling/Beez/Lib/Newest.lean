import Mathlib.Data.List.Sort

/-! # The greatest entries of a list -/

namespace Beez.Lib

variable {α : Type*} [LinearOrder α] {l : List α} {a : α} {keep : Nat}

/-- The entries of a list but the `keep` greatest, the least one first. -/
def oldest (keep : Nat) (l : List α) : List α := (l.insertionSort (· ≤ ·)).take (l.length - keep)

/-- How many entries are not less than `a`. -/
def countFrom (a : α) (l : List α) : Nat := l.countP (a ≤ ·)

theorem length_oldest (keep : Nat) (l : List α) : (oldest keep l).length = l.length - keep := by
  unfold oldest
  rw [List.length_take, List.length_insertionSort]
  omega

theorem mem_of_mem_oldest (h : a ∈ oldest keep l) : a ∈ l :=
  (List.mem_insertionSort _).mp (List.mem_of_mem_take h)

/-- An entry is among the oldest if and only if more than `keep` entries, it included, are not
less. -/
theorem mem_oldest_iff (mem : a ∈ l) : a ∈ oldest keep l ↔ keep < countFrom a l := by
  have sorted : (l.insertionSort (· ≤ ·)).Pairwise (· ≤ ·) := List.pairwise_insertionSort _ l
  have length : (l.insertionSort (· ≤ ·)).length = l.length := List.length_insertionSort _ l
  have split := List.take_append_drop (l.length - keep) (l.insertionSort (· ≤ ·))
  have count : countFrom a l = countFrom a (oldest keep l) +
      countFrom a ((l.insertionSort (· ≤ ·)).drop (l.length - keep)) := by
    unfold countFrom oldest
    rw [← List.countP_append, split, (List.perm_insertionSort _ l).countP_eq]
  have rest : ((l.insertionSort (· ≤ ·)).drop (l.length - keep)).length =
      l.length - (l.length - keep) := by
    rw [List.length_drop, length]
  rw [← split, List.pairwise_append] at sorted
  obtain ⟨-, -, before⟩ := sorted
  constructor
  · intro old
    have own : 0 < countFrom a (oldest keep l) :=
      List.countP_pos_iff.mpr ⟨a, old, by simp⟩
    have all : countFrom a ((l.insertionSort (· ≤ ·)).drop (l.length - keep)) =
        ((l.insertionSort (· ≤ ·)).drop (l.length - keep)).length := by
      refine List.countP_eq_length.mpr fun b hb => ?_
      simpa using before a old b hb
    have some := List.length_pos_of_mem old
    rw [length_oldest] at some
    omega
  · intro more
    by_contra new
    have late : a ∈ (l.insertionSort (· ≤ ·)).drop (l.length - keep) := by
      have all : a ∈ oldest keep l ++ (l.insertionSort (· ≤ ·)).drop (l.length - keep) := by
        unfold oldest
        rw [split]
        exact (List.mem_insertionSort _).mpr mem
      exact (List.mem_append.mp all).resolve_left new
    have none : countFrom a (oldest keep l) = 0 := by
      refine List.countP_eq_zero.mpr fun b hb => ?_
      have le := before b hb a late
      have ne : b ≠ a := fun h => new (h ▸ hb)
      simpa using lt_of_le_of_ne le ne
    have some : countFrom a ((l.insertionSort (· ≤ ·)).drop (l.length - keep)) ≤
        ((l.insertionSort (· ≤ ·)).drop (l.length - keep)).length := List.countP_le_length
    omega

theorem countFrom_le {b : α} (h : a ≤ b) : countFrom b l ≤ countFrom a l := by
  refine List.countP_mono_left fun c _ hc => ?_
  simp only [decide_eq_true_eq] at hc ⊢
  exact h.trans hc

end Beez.Lib
