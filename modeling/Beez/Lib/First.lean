import Mathlib.Data.Int.LeastGreatest
import Mathlib.Order.Bounds.Basic
import Mathlib.Order.MinMax
import Mathlib.Tactic.Common

/-! # The first element after a start that has a property -/

namespace Beez.Lib

universe u

variable {α : Type u} [LinearOrder α] {p q : α → Prop} {start : α}

/-- The first element with `p` after `start`, or nothing when none has it. -/
def FirstAfter (p : α → Prop) (start : α) : Option α → Prop
  | some next => IsLeast { a | start < a ∧ p a } next
  | none => ∀ a, start < a → ¬p a

def earlier : Option α → Option α → Option α
  | some a, some b => some (min a b)
  | some a, none | none, some a => some a
  | none, none => none

@[simp] theorem earlier_none (found : Option α) : earlier found none = found := by
  cases found with
  | none => rfl
  | some => rfl

namespace FirstAfter

theorem congr (same : ∀ a, p a ↔ q a) {found : Option α} (h : FirstAfter p start found) :
    FirstAfter q start found := by
  obtain rfl : p = q := funext fun a => propext (same a)
  exact h

theorem unique {found other : Option α} (h : FirstAfter p start found)
    (h' : FirstAfter p start other) : found = other := by
  match found, other with
  | none, none => rfl
  | some next, some next' => exact congrArg some (IsLeast.unique h h')
  | none, some next' => exact absurd h'.1.2 (h next' h'.1.1)
  | some next, none => exact absurd h.1.2 (h' next h.1.1)

theorem eq_some_iff {found : Option α} (h : FirstAfter p start found) {next : α} :
    found = some next ↔ IsLeast { a | start < a ∧ p a } next := by
  constructor
  · rintro rfl
    exact h
  · intro least
    have other : FirstAfter p start (some next) := least
    exact h.unique other

theorem eq_none_iff {found : Option α} (h : FirstAfter p start found) :
    found = none ↔ ∀ a, start < a → ¬p a := by
  constructor
  · rintro rfl
    exact h
  · intro never
    have other : FirstAfter p start none := never
    exact h.unique other

theorem or {found other : Option α} (h : FirstAfter p start found)
    (h' : FirstAfter q start other) :
    FirstAfter (fun a => p a ∨ q a) start (earlier found other) := by
  match found, other with
  | some next, some next' =>
    have lower : min next next' ∈ lowerBounds { a | start < a ∧ (p a ∨ q a) } := by
      rintro a ⟨later, holds | holds⟩
      · exact (min_le_left _ _).trans (h.2 ⟨later, holds⟩)
      · exact (min_le_right _ _).trans (h'.2 ⟨later, holds⟩)
    rcases min_choice next next' with same | same
    · exact ⟨same.symm ▸ ⟨h.1.1, .inl h.1.2⟩, lower⟩
    · exact ⟨same.symm ▸ ⟨h'.1.1, .inr h'.1.2⟩, lower⟩
  | some next, none =>
    refine ⟨⟨h.1.1, .inl h.1.2⟩, ?_⟩
    rintro a ⟨later, holds | holds⟩
    · exact h.2 ⟨later, holds⟩
    · exact absurd holds (h' a later)
  | none, some next =>
    refine ⟨⟨h'.1.1, .inr h'.1.2⟩, ?_⟩
    rintro a ⟨later, holds | holds⟩
    · exact absurd holds (h a later)
    · exact h'.2 ⟨later, holds⟩
  | none, none =>
    rintro a later (holds | holds)
    · exact h a later holds
    · exact h' a later holds

end FirstAfter

theorem exists_firstAfter (p : Int → Prop) (start : Int) : ∃ found, FirstAfter p start found := by
  by_cases some : ∃ a, start < a ∧ p a
  · obtain ⟨next, holds, least⟩ := Int.exists_least_of_bdd ⟨start, fun a h => h.1.le⟩ some
    exact ⟨.some next, holds, fun a h => least a h⟩
  · exact ⟨none, fun a later holds => some ⟨a, later, holds⟩⟩

/-! ## One first after the other -/

/-- The element that is found after `start` in the turn `k`, when each turn starts at what the one
before found. -/
def turns (next : α → Option α) (start : α) : Nat → Option α
  | 0 => next start
  | k + 1 => (turns next start k).bind next

section

variable {next : α → Option α} {a b : α} {j k : Nat}

theorem turns_found (found : ∀ start, FirstAfter p start (next start))
    (h : turns next start k = some a) : start < a ∧ p a := by
  induction k generalizing a with
  | zero => exact ((found start).eq_some_iff.mp h).1
  | succ k ih =>
    obtain ⟨b, hb, ha⟩ := Option.bind_eq_some_iff.mp h
    have least := ((found b).eq_some_iff.mp ha).1
    exact ⟨(ih hb).1.trans least.1, least.2⟩

theorem turns_lt (found : ∀ start, FirstAfter p start (next start)) (less : j < k)
    (ha : turns next start j = some a) (hb : turns next start k = some b) : a < b := by
  induction k generalizing b with
  | zero => omega
  | succ k ih =>
    obtain ⟨c, hc, hb⟩ := Option.bind_eq_some_iff.mp hb
    have step := ((found c).eq_some_iff.mp hb).1.1
    rcases Nat.lt_succ_iff_lt_or_eq.mp less with less | rfl
    · exact (ih less hc).trans step
    · obtain rfl := Option.some.inj (ha.symm.trans hc)
      exact step

end

end Beez.Lib
