import Mathlib.Data.List.Induction

/-! # Merging in layers

A later layer adds to the lists of an earlier one and replaces the settings it makes.
-/

namespace Beez.Lib

/-! ## A layer that may be missing -/

section

variable {α : Type} {merge : α → α → α}

/-- `base`, with the layer over it if there is one. -/
def mergeSome (merge : α → α → α) (base : α) (layer : Option α) : α :=
  layer.elim base (merge base)

@[simp] theorem mergeSome_none (base : α) : mergeSome merge base none = base := rfl

@[simp] theorem mergeSome_some (base layer : α) :
    mergeSome merge base (some layer) = merge base layer := rfl

theorem merge_some (base : α) (layer : Option α) :
    Option.merge merge (some base) layer = some (mergeSome merge base layer) := by
  cases layer <;> rfl

theorem mergeSome_assoc [assoc : Std.Associative merge] (base : α) (first second : Option α) :
    mergeSome merge (mergeSome merge base first) second =
      mergeSome merge base (Option.merge merge first second) := by
  cases first with
  | none => cases second <;> rfl
  | some first =>
    cases second with
    | none => rfl
    | some second => exact assoc.assoc base first second

theorem mergeSome_again [Std.Associative merge] [idem : Std.IdempotentOp merge] (base : α)
    (layer : Option α) :
    mergeSome merge (mergeSome merge base layer) layer = mergeSome merge base layer := by
  have same : Option.merge merge layer layer = layer := Std.IdempotentOp.idempotent layer
  rw [mergeSome_assoc, same]

/-- What holds of a merge exactly where it holds of a part of it, holds over a missing layer. -/
theorem mergeSome_iff (holds : α → Prop)
    (parts : ∀ base layer, holds (merge base layer) ↔ holds base ∨ holds layer)
    (base : α) (layer : Option α) :
    holds (mergeSome merge base layer) ↔ holds base ∨ ∃ top ∈ layer, holds top := by
  cases layer with
  | none => simp
  | some layer => simp [parts]

theorem merge_iff (holds : α → Prop)
    (parts : ∀ base layer, holds (merge base layer) ↔ holds base ∨ holds layer)
    (base layer : Option α) : (∃ both ∈ Option.merge merge base layer, holds both) ↔
      (∃ bottom ∈ base, holds bottom) ∨ ∃ top ∈ layer, holds top := by
  cases base with
  | none => cases layer <;> simp
  | some base => cases layer <;> simp [parts]

end

/-! ## Lists -/

section

variable {α : Type} [DecidableEq α] {target values : List α}

/-- Adds every value that is not in `target` yet. -/
def extend (target values : List α) : List α :=
  values.foldl (fun target value => if value ∈ target then target else target ++ [value]) target

@[simp] theorem extend_nil (target : List α) : extend target [] = target := rfl

theorem extend_append (target front back : List α) :
    extend target (front ++ back) = extend (extend target front) back := List.foldl_append

theorem extend_singleton (target : List α) (a : α) :
    extend target [a] = if a ∈ target then target else target ++ [a] := rfl

@[simp] theorem mem_extend {a : α} : a ∈ extend target values ↔ a ∈ target ∨ a ∈ values := by
  induction values using List.reverseRecOn generalizing a with
  | nil => simp
  | append_singleton values value ih =>
    rw [extend_append, extend_singleton, List.mem_append, List.mem_singleton]
    split
    · rename_i known
      rw [ih] at known ⊢
      constructor
      · exact Or.imp_right .inl
      · rintro (old | new | rfl)
        · exact .inl old
        · exact .inr new
        · exact known
    · rw [List.mem_append, ih, List.mem_singleton, or_assoc]

theorem extend_of_subset (h : values ⊆ target) : extend target values = target := by
  induction values using List.reverseRecOn with
  | nil => rfl
  | append_singleton values value ih =>
    obtain ⟨known, new⟩ := List.append_subset.mp h
    rw [extend_append, ih known, extend_singleton, if_pos (new (List.mem_singleton_self _))]

theorem extend_assoc (first second third : List α) :
    extend (extend first second) third = extend first (extend second third) := by
  induction third using List.reverseRecOn with
  | nil => rfl
  | append_singleton third value ih =>
    rw [extend_append, extend_append, ih, extend_singleton, extend_singleton, ← ih]
    by_cases known : value ∈ extend second third
    · have old : value ∈ extend (extend first second) third := by
        rw [ih, mem_extend]
        exact .inr known
      rw [if_pos known, if_pos old, ih]
    · rw [if_neg known, extend_append, extend_singleton, ih]

instance : Std.Associative (extend : List α → List α → List α) := ⟨extend_assoc⟩

instance : Std.IdempotentOp (extend : List α → List α → List α) :=
  ⟨fun values => extend_of_subset (List.Subset.refl values)⟩

end

end Beez.Lib
