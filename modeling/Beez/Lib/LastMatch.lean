import Mathlib.Data.List.Basic
import Mathlib.Tactic.Common

/-! # Ordered rules, of which the last that applies decides -/

namespace Beez.Lib

universe u

variable {ρ : Type u} {applies : ρ → Bool} {rules earlier later : List ρ} {rule : ρ}

/-- The last rule that applies. -/
def lastMatch (applies : ρ → Bool) (rules : List ρ) : Option ρ := rules.reverse.find? applies

theorem lastMatch_append :
    lastMatch applies (earlier ++ later) = (lastMatch applies later).or (lastMatch applies earlier) := by
  unfold lastMatch
  rw [List.reverse_append, List.find?_append]

theorem mem_of_lastMatch (h : lastMatch applies rules = some rule) : rule ∈ rules :=
  List.mem_reverse.mp (List.mem_of_find?_eq_some h)

theorem applies_of_lastMatch (h : lastMatch applies rules = some rule) : applies rule = true :=
  List.find?_some h

theorem lastMatch_eq_none : lastMatch applies rules = none ↔ ∀ rule ∈ rules, applies rule = false := by
  simp [lastMatch]

theorem exists_lastMatch (mem : rule ∈ rules) (h : applies rule = true) :
    ∃ rule, lastMatch applies rules = some rule := by
  cases found : lastMatch applies rules with
  | some rule => exact ⟨rule, rfl⟩
  | none =>
    rw [lastMatch_eq_none] at found
    rw [found rule mem] at h
    cases h

theorem lastMatch_eq_some (h : lastMatch applies rules = some rule) :
    ∃ before after, rules = before ++ rule :: after ∧ ∀ other ∈ after, applies other = false := by
  unfold lastMatch at h
  rw [List.find?_eq_some_iff_append] at h
  obtain ⟨-, before, after, heq, hbefore⟩ := h
  refine ⟨after.reverse, before.reverse, ?_, fun other hmem => ?_⟩
  · rw [← List.reverse_reverse rules, heq]
    simp
  · simpa using hbefore other (List.mem_reverse.mp hmem)

theorem lastMatch_append_of_none (h : lastMatch applies later = none) :
    lastMatch applies (earlier ++ later) = lastMatch applies earlier := by
  rw [lastMatch_append, h, Option.none_or]

theorem lastMatch_append_eq_some (h : lastMatch applies (earlier ++ later) = some rule) :
    lastMatch applies later = some rule ∨
      lastMatch applies later = none ∧ lastMatch applies earlier = some rule := by
  rw [lastMatch_append, Option.or_eq_some_iff] at h
  exact h

end Beez.Lib
