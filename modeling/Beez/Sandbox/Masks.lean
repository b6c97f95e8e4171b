import Beez.Sandbox.Resolve
import Beez.Text

/-! # Masks over denied paths that do not exist -/

namespace Beez.Sandbox

/-! ## Markers -/

/-- Marks a mask directory as needed by a running sandbox. -/
def markerPrefix : Text := ".beez-mask-".toList

def isMarker (name : String) : Bool := markerPrefix.isPrefixOf name.toList

/-- The entries of `directory` that are markers. -/
def Tree.markers (tree : Tree) (directory : Path) : List Path :=
  (tree.nodes.filter fun node =>
    node.1.dropLast == directory && node.1.getLast?.any isMarker).map (·.1)

def Tree.isMarked (tree : Tree) (directory : Path) : Bool := tree.markers directory != []

/-- The process that a marker names. -/
def markerOwner (marker : Path) : Text :=
  ((Text.stripPrefix markerPrefix ((marker.getLast?.map String.toList).getD [])).getD []).takeWhile
    (· != '-')

theorem mem_markers {tree : Tree} {directory marker : Path} : marker ∈ tree.markers directory ↔
    ∃ name, marker = directory ++ [name] ∧ isMarker name = true ∧ tree.entry marker ≠ none := by
  simp only [Tree.markers, List.mem_map, List.mem_filter, Bool.and_eq_true, beq_iff_eq,
    Option.any_eq_true]
  constructor
  · rintro ⟨⟨path, kind⟩, ⟨hmem, rfl, name, hname, hmarker⟩, rfl⟩
    refine ⟨name, ?_, hmarker, Tree.entry_of_mem hmem⟩
    rw [List.dropLast_append_getLast? name hname]
  · rintro ⟨name, rfl, hmarker, hentry⟩
    obtain ⟨kind, hkind⟩ := Option.ne_none_iff_exists'.mp hentry
    exact ⟨_, ⟨Tree.mem_of_entry hkind, by simp, name, by simp, hmarker⟩, rfl⟩

theorem isMarked_iff {tree : Tree} {directory : Path} : tree.isMarked directory = true ↔
    ∃ name, isMarker name = true ∧ tree.entry (directory ++ [name]) ≠ none := by
  rw [Tree.isMarked, bne_iff_ne, ne_eq, List.eq_nil_iff_forall_not_mem, not_forall_not]
  constructor
  · rintro ⟨marker, hmem⟩
    obtain ⟨name, rfl, hmarker, hentry⟩ := mem_markers.mp hmem
    exact ⟨name, hmarker, hentry⟩
  · rintro ⟨name, hmarker, hentry⟩
    exact ⟨_, mem_markers.mpr ⟨name, rfl, hmarker, hentry⟩⟩

/-! ## Planning -/

/-- The directories a mask of `path` needs, deepest first. -/
def maskDirectories (tree : Tree) (path : Path) : List Path :=
  (Path.ancestors path).takeWhile fun directory => !tree.isPresent directory || tree.isMarked directory

/-- A masked path with the directories it needs, deepest first. -/
structure Mask where
  path : Path
  directories : List Path
deriving DecidableEq, Repr

/-- The denied paths that need an empty directory to mask them. -/
abbrev MaskPlan := List Mask

def MaskPlan.of (tree : Tree) (resolved : ResolvedSandbox) : MaskPlan :=
  ((resolved.writeDeny.filter resolved.insideWriteAllow).map fun path =>
    ⟨path, maskDirectories tree path⟩).filter (·.directories != [])

def MaskPlan.covers (plan : MaskPlan) (path : Path) : Bool := plan.any (·.path == path)

theorem maskDirectories_ne_nil {tree : Tree} {path : Path} : maskDirectories tree path ≠ [] ↔
    tree.isPresent path = false ∨ tree.isMarked path = true := by
  have hcons : ∃ rest, Path.ancestors path = path :: rest := by
    rcases List.eq_nil_or_concat path with rfl | ⟨parent, name, rfl⟩
    · exact ⟨[], rfl⟩
    · rw [List.concat_eq_append]
      exact ⟨_, Path.ancestors_snoc parent name⟩
  obtain ⟨rest, hrest⟩ := hcons
  rw [maskDirectories, hrest, List.takeWhile_cons]
  cases tree.isPresent path <;> cases tree.isMarked path <;> simp

theorem covers_iff {tree : Tree} {resolved : ResolvedSandbox} {path : Path} :
    (MaskPlan.of tree resolved).covers path = true ↔ path ∈ resolved.writeDeny ∧
      resolved.insideWriteAllow path = true ∧
        (tree.isPresent path = false ∨ tree.isMarked path = true) := by
  simp only [MaskPlan.covers, MaskPlan.of, List.any_eq_true, List.mem_filter, List.mem_map,
    beq_iff_eq, bne_iff_ne]
  constructor
  · rintro ⟨mask, ⟨⟨denied, ⟨hmem, hinside⟩, rfl⟩, hne⟩, rfl⟩
    exact ⟨hmem, hinside, maskDirectories_ne_nil.mp hne⟩
  · rintro ⟨hmem, hinside, hmissing⟩
    exact ⟨_, ⟨⟨path, ⟨hmem, hinside⟩, rfl⟩, maskDirectories_ne_nil.mpr hmissing⟩, rfl⟩

/-! ## Holding -/

/-- Removes the markers of runs that ended without giving their masks back. `alive` answers
whether `/proc` has an entry of that name. -/
def removeDeadMarkers (alive : Text → Bool) (tree : Tree) (directory : Path) : Tree :=
  (tree.markers directory).foldl
    (fun tree marker => if alive (markerOwner marker) then tree else tree.removeFile marker) tree

/-- Writes one marker in each directory and answers where they went, unless one fails. -/
def writeMarkers (name : String) : List Path → Tree → Option (List Path) × Tree
  | [], tree => (some [], tree)
  | directory :: rest, tree =>
    let marker := directory ++ [name]
    let tree := tree.writeFile marker
    if tree.entry marker = some .file then
      let (written, tree) := writeMarkers name rest tree
      (written.map (marker :: ·), tree)
    else (none, tree)

def markAttempts : Nat := 4

/-- Creates the directories of one mask and marks each with `name`, parents first. -/
def markInUse (alive : Text → Bool) (name : String) (mask : Mask) :
    Nat → Tree → Option (List Path) × Tree
  | 0, tree => (none, tree)
  | attempts + 1, tree =>
    let tree := tree.createDirAll mask.path
    if !tree.isDir mask.path then (none, tree)
    else match writeMarkers name mask.directories.reverse tree with
      | (some marked, tree) =>
        (some marked, mask.directories.foldl (removeDeadMarkers alive) tree)
      | (none, tree) => markInUse alive name mask attempts tree

structure HeldMasks where
  markers : List Path
  directories : List Path
deriving DecidableEq, Repr

/-- Holds one mask after others. -/
def holdMask (alive : Text → Bool) (name : String) (held : HeldMasks × Tree) (mask : Mask) :
    HeldMasks × Tree :=
  match markInUse alive name mask markAttempts held.2 with
  | (some marked, tree) => (⟨held.1.markers ++ marked, held.1.directories ++ mask.directories⟩, tree)
  | (none, tree) => (held.1, tree)

/-- Builds every mask directory and marks it as in use. -/
def MaskPlan.hold (alive : Text → Bool) (name : String) (plan : MaskPlan) (tree : Tree) :
    HeldMasks × Tree :=
  plan.foldl (holdMask alive name) (⟨[], []⟩, tree)

end Beez.Sandbox
