import Mathlib.Data.List.Basic

/-! # What stands in a ledger

Each entry says what has been done, and a later one may undo it.
-/

namespace Beez.Lib

variable {α : Type*} {undoes : α → α → Prop} {ledger : List α} {entry new : α}

/-- The entry is there, and no later one undoes it. -/
def Stands (undoes : α → α → Prop) (ledger : List α) (entry : α) : Prop :=
  ∃ before after, ledger = before ++ entry :: after ∧ ∀ later ∈ after, ¬undoes later entry

theorem not_stands_nil : ¬Stands undoes [] entry := by
  rintro ⟨before, after, heq, -⟩
  simp at heq

theorem stands_snoc : Stands undoes (ledger ++ [new]) entry ↔
    entry = new ∨ Stands undoes ledger entry ∧ ¬undoes new entry := by
  constructor
  · rintro ⟨before, after, heq, hlater⟩
    rcases List.eq_nil_or_concat after with rfl | ⟨front, last, rfl⟩
    · exact .inl (by simpa using (List.append_inj' heq rfl).2.symm)
    · rw [List.concat_eq_append, ← List.cons_append, ← List.append_assoc] at heq
      obtain ⟨rfl, hlast⟩ := List.append_inj' heq rfl
      obtain rfl := List.singleton_inj.mp hlast
      refine .inr ⟨⟨before, front, rfl, fun later hmem => hlater later (by simp [hmem])⟩, ?_⟩
      exact hlater new (by simp)
  · rintro (rfl | ⟨⟨before, after, rfl, hlater⟩, hnew⟩)
    · exact ⟨ledger, [], rfl, by simp⟩
    · refine ⟨before, after ++ [new], by simp, ?_⟩
      intro later hmem
      rcases List.mem_append.mp hmem with hmem | hmem
      · exact hlater later hmem
      · rwa [List.mem_singleton.mp hmem]

/-- What every entry that stands promises stays true when a new entry keeps it. -/
theorem stands_keep {holds holds' : α → Prop} (all : ∀ entry, Stands undoes ledger entry → holds entry)
    (start : holds' new) (keep : ∀ entry, holds entry → ¬undoes new entry → holds' entry) :
    ∀ entry, Stands undoes (ledger ++ [new]) entry → holds' entry := by
  intro entry h
  rcases stands_snoc.mp h with rfl | ⟨h, hnew⟩
  · exact start
  · exact keep entry (all entry h) hnew

end Beez.Lib
