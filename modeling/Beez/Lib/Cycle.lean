import Mathlib.Data.List.Chain

/-! # Cycles of a relation -/

namespace Beez.Lib

variable {α : Type*} {r : α → α → Prop} {l : List α} {a : α}

/-- The entries follow one another under `r`, the last one is the first again, and no other entry
stands twice. -/
structure SimpleCycle (r : α → α → Prop) (l : List α) : Prop where
  long : 2 ≤ l.length
  closed : l.head? = l.getLast?
  apart : l.dropLast.Nodup
  linked : l.IsChain r

/-- A path without a repetition that comes back to one of its entries has a cycle at its end. -/
theorem SimpleCycle.of_trail [DecidableEq α] (linked : (l ++ [a]).IsChain r) (apart : l.Nodup)
    (mem : a ∈ l) : SimpleCycle r (l.drop (l.idxOf a) ++ [a]) := by
  have lt := List.idxOf_lt_length_of_mem mem
  obtain ⟨rest, cut⟩ : ∃ rest, l.drop (l.idxOf a) = a :: rest := by
    refine ⟨l.drop (l.idxOf a + 1), ?_⟩
    rw [List.drop_eq_getElem_cons lt, List.getElem_idxOf lt]
  have within : l.drop (l.idxOf a) ++ [a] <:+ l ++ [a] := by
    rw [List.suffix_append_self_iff]
    exact List.drop_suffix _ _
  refine ⟨?_, ?_, ?_, linked.suffix within⟩
  · simp [cut]
  · rw [List.getLast?_concat, cut]
    rfl
  · rw [List.dropLast_concat]
    exact apart.sublist (List.drop_sublist _ _)

/-- What stands on a cycle leads back to itself. -/
theorem SimpleCycle.returns (cycle : SimpleCycle r l) : ∃ a, Relation.TransGen r a a := by
  obtain ⟨long, closed, -, linked⟩ := cycle
  match l, long with
  | a :: b :: rest, _ =>
    rw [List.isChain_cons_cons] at linked
    refine ⟨a, .head' linked.1 ?_⟩
    refine List.relationReflTransGen_of_exists_isChain_cons rest linked.2 ?_
    rw [List.getLast?_cons_cons, List.getLast?_eq_some_getLast (List.cons_ne_nil b rest)] at closed
    exact (Option.some.inj closed).symm

end Beez.Lib
