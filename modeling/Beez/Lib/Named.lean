import Mathlib.Data.List.Basic
import Mathlib.Data.List.Nodup
import Mathlib.Data.String.Basic

/-! # Values with a fixed set of names -/

namespace Beez.Lib

/-- Every value once, and a name of its own for each. -/
structure NameTable (α : Type) where
  all : List α
  name : α → String
  complete : ∀ value, value ∈ all
  distinct : (all.map name).Nodup

namespace NameTable

variable {α : Type} (table : NameTable α)

theorem name_injective {value other : α} (h : table.name value = table.name other) :
    value = other :=
  List.inj_on_of_nodup_map table.distinct (table.complete value) (table.complete other) h

/-- The value that a name selects. -/
def fromName (name : List Char) : Option α := table.all.find? fun value => (table.name value).toList = name

theorem fromName_eq_some {name : List Char} {value : α} :
    table.fromName name = some value ↔ name = (table.name value).toList := by
  unfold fromName
  constructor
  · intro h
    have found : (table.name value).toList = name := by simpa using List.find?_some h
    exact found.symm
  · rintro rfl
    cases h : table.all.find? fun other => (table.name other).toList = (table.name value).toList with
    | none =>
      have := List.find?_eq_none.mp h value (table.complete value)
      simp at this
    | some other =>
      have same : (table.name other).toList = (table.name value).toList := by
        simpa using List.find?_some h
      rw [table.name_injective (String.toList_injective same)]

/-- Every name, with commas between. -/
def choices : List Char := ((", ".intercalate (table.all.map table.name))).toList

end NameTable

end Beez.Lib
