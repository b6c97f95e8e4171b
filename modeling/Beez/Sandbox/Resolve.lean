import Beez.Sandbox.Tree
import Mathlib.Data.List.Sort
import Mathlib.Data.List.Dedup
import Mathlib.Data.List.Lex

/-! # Resolved sandboxes -/

namespace Beez.Sandbox

/-- Sorted, with each path once. -/
def dedup (paths : List Path) : List Path := paths.dedup.insertionSort (· ≤ ·)

@[simp] theorem mem_dedup {paths : List Path} {path : Path} : path ∈ dedup paths ↔ path ∈ paths := by
  simp [dedup]

theorem dedup_sorted (paths : List Path) : (dedup paths).Pairwise (· < ·) := by
  have sorted : (dedup paths).Pairwise (· ≤ ·) := List.pairwise_insertionSort _ _
  have nodup : (dedup paths).Nodup :=
    (List.perm_insertionSort _ _).nodup_iff.mpr (List.nodup_dedup paths)
  exact sorted.imp₂ (fun _ _ hle hne => lt_of_le_of_ne hle hne) nodup

/-- A parent sorts before its children. -/
theorem prefix_le {parent path : Path} (h : parent <+: path) : parent ≤ path :=
  not_lt.mp h.le

/-- A policy turned into absolute host paths. -/
structure ResolvedSandbox where
  localhost : Bool
  readDeny : List Path
  writeAllow : List Path
  writeDeny : List Path
  executables : Option (List Path)
  workingDirectory : Path
  program : Path
deriving DecidableEq, Repr

namespace ResolvedSandbox

variable {resolved : ResolvedSandbox} {path : Path}

def insideWriteAllow (resolved : ResolvedSandbox) (path : Path) : Bool :=
  resolved.writeAllow.any fun allowed => path.startsWith allowed && path != allowed

/-- Parents of write-denied paths that sit inside a writable directory. -/
def protectedAncestors (resolved : ResolvedSandbox) : List Path :=
  dedup ((resolved.writeDeny.flatMap fun denied => (Path.ancestors denied).tail).filter
    resolved.insideWriteAllow)

theorem insideWriteAllow_iff : resolved.insideWriteAllow path = true ↔
    ∃ allowed ∈ resolved.writeAllow, allowed <+: path ∧ path ≠ allowed := by
  simp [insideWriteAllow, Path.startsWith_iff]

end ResolvedSandbox

/-- A sandbox resolved on a host. What does not exist there is dropped, except for write denies. -/
structure Resolved (tree : Tree) extends ResolvedSandbox where
  readDeny_sorted : readDeny.Pairwise (· < ·)
  writeAllow_sorted : writeAllow.Pairwise (· < ·)
  writeDeny_sorted : writeDeny.Pairwise (· < ·)
  readDeny_present : ∀ path ∈ readDeny, tree.isPresent path = true
  writeAllow_present : ∀ path ∈ writeAllow, tree.isPresent path = true

/-- The rules that exist on the host. -/
def existing (tree : Tree) (paths : List Path) : List Path := dedup (paths.filter tree.isPresent)

/-- `ResolvedSandbox::resolve`, from the canonical path of each rule. -/
def Resolved.resolve (tree : Tree) (rules : ResolvedSandbox) : Resolved tree where
  localhost := rules.localhost
  readDeny := existing tree rules.readDeny
  writeAllow := existing tree rules.writeAllow
  writeDeny := dedup rules.writeDeny
  executables := rules.executables
  workingDirectory := rules.workingDirectory
  program := rules.program
  readDeny_sorted := dedup_sorted _
  writeAllow_sorted := dedup_sorted _
  writeDeny_sorted := dedup_sorted _
  readDeny_present := by simp [existing]
  writeAllow_present := by simp [existing]

end Beez.Sandbox
