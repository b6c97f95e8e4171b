import Mathlib.Order.Lattice.Nat
import Mathlib.Logic.Relation
import Mathlib.Tactic.Common

/-! # Chains of dependencies

`deps i` lists what `i` depends on directly.
-/

namespace Beez.Lib

variable (deps : Nat → List Nat)

/-- Some numbering puts every dependency before its dependents. -/
def Acyclic : Prop := ∃ rank : Nat → Nat, ∀ i, ∀ d ∈ deps i, rank d < rank i

/-- A chain of `k` dependencies that ends in `i`. -/
inductive Chain : Nat → Nat → Prop
  | single (i : Nat) : Chain 0 i
  | step {k d i : Nat} : d ∈ deps i → Chain k d → Chain (k + 1) i

/-- `i` depends on `d`, directly or through others. -/
def Needs (i d : Nat) : Prop := Relation.TransGen (fun i d => d ∈ deps i) i d

open Classical in
/-- The length of the longest chain of dependencies that ends in `i`. -/
noncomputable def depth (i : Nat) : Nat := sSup {k | Chain deps k i}

variable {deps}

theorem exists_above (rank : Nat → Nat) (l : List Nat) : ∃ bound, ∀ d ∈ l, rank d < bound := by
  induction l with
  | nil => exact ⟨0, by simp⟩
  | cons a rest ih =>
    obtain ⟨bound, h⟩ := ih
    refine ⟨max bound (rank a + 1), fun d hd => ?_⟩
    rw [List.mem_cons] at hd
    rcases hd with rfl | hd
    · omega
    · have := h d hd
      omega

theorem Chain.le_rank {rank : Nat → Nat} (hrank : ∀ i, ∀ d ∈ deps i, rank d < rank i)
    {k i : Nat} (h : Chain deps k i) : k ≤ rank i := by
  induction h with
  | single i => exact Nat.zero_le _
  | step hd _ ih => exact Nat.lt_of_le_of_lt ih (hrank _ _ hd)

theorem chain_bdd (h : Acyclic deps) (i : Nat) : BddAbove {k | Chain deps k i} := by
  obtain ⟨rank, hrank⟩ := h
  exact ⟨rank i, fun k hk => hk.le_rank hrank⟩

theorem chain_depth (h : Acyclic deps) (i : Nat) : Chain deps (depth deps i) i :=
  Nat.sSup_mem ⟨0, Chain.single i⟩ (chain_bdd h i)

theorem Chain.le_depth (h : Acyclic deps) {k i : Nat} (hk : Chain deps k i) : k ≤ depth deps i :=
  le_csSup (chain_bdd h i) hk

theorem depth_lt (h : Acyclic deps) {i d : Nat} (hd : d ∈ deps i) : depth deps d < depth deps i :=
  Chain.le_depth h (.step hd (chain_depth h d))

theorem Needs.depth_lt (h : Acyclic deps) {i d : Nat} (hd : Needs deps i d) :
    depth deps d < depth deps i := by
  induction hd with
  | single hd => exact Lib.depth_lt h hd
  | tail _ hd ih => exact (Lib.depth_lt h hd).trans ih

theorem exists_dep_of_depth (h : Acyclic deps) {i k : Nat} (hk : depth deps i = k + 1) :
    ∃ d ∈ deps i, depth deps d = k := by
  have hc := chain_depth h i
  rw [hk] at hc
  cases hc with
  | step hd hc =>
    refine ⟨_, hd, ?_⟩
    have := hc.le_depth h
    have := Lib.depth_lt h hd
    omega

theorem exists_needs_of_depth (h : Acyclic deps) {i k : Nat} (hk : k < depth deps i) :
    ∃ d, Needs deps i d ∧ depth deps d = k := by
  obtain ⟨n, hn⟩ : ∃ n, depth deps i = k + 1 + n := ⟨depth deps i - (k + 1), by omega⟩
  induction n generalizing i with
  | zero =>
    obtain ⟨d, hd, hdk⟩ := exists_dep_of_depth h hn
    exact ⟨d, .single hd, hdk⟩
  | succ n ih =>
    obtain ⟨d, hd, hdk⟩ := exists_dep_of_depth h (k := k + 1 + n) hn
    obtain ⟨e, he, hek⟩ := ih (i := d) (by omega) hdk
    exact ⟨e, .head hd he, hek⟩

end Beez.Lib
