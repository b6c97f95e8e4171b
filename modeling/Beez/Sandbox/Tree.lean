import Beez.Lib.Keyed
import Beez.Path
import Mathlib.Data.List.Infix

/-! # The tree of a host

Paths are canonical, so a symbolic link matters only where it leads nowhere.
-/

open Beez.Lib

namespace Beez.Sandbox

inductive Kind where
  | directory | file | danglingLink
deriving DecidableEq, Repr

/-- The entries of a host. The parent of each is a directory. -/
structure Tree where
  nodes : List (Path × Kind)
  root : nodes.lookup [] = some .directory
  closed : ∀ node ∈ nodes, node.1 ≠ [] → nodes.lookup node.1.dropLast = some .directory

namespace Tree

variable {tree : Tree} {path other : Path} {kind : Kind} {name : String}

def entry (tree : Tree) (path : Path) : Option Kind := tree.nodes.lookup path

/-- `path.exists()`, which follows links. -/
def isPresent (tree : Tree) (path : Path) : Bool :=
  tree.entry path == some .directory || tree.entry path == some .file

/-- `path.is_dir()`. -/
def isDir (tree : Tree) (path : Path) : Bool := tree.entry path == some .directory

/-- What stands at the path, or at the first of its parents that is there. -/
def nearest (tree : Tree) (path : Path) : Option Kind := (Path.ancestors path).findSome? tree.entry

/-- Nothing stands in the directory. -/
def isEmpty (tree : Tree) (path : Path) : Bool :=
  tree.nodes.all fun node => node.1 == [] || node.1.dropLast != path

/-! ## Lookups -/

theorem mem_of_entry (h : tree.entry path = some kind) : (path, kind) ∈ tree.nodes := by
  unfold entry at h
  rw [List.lookup_eq_some_iff] at h
  obtain ⟨before, after, heq, -⟩ := h
  rw [heq]
  simp

theorem entry_of_mem (h : (path, kind) ∈ tree.nodes) : tree.entry path ≠ none := by
  intro hnone
  unfold entry at hnone
  rw [List.lookup_eq_none_iff] at hnone
  simpa using hnone _ h

theorem entry_parent (h : tree.entry (path ++ [name]) ≠ none) :
    tree.entry path = some .directory := by
  obtain ⟨kind, hkind⟩ := Option.ne_none_iff_exists'.mp h
  have := tree.closed _ (mem_of_entry hkind) (by simp)
  rwa [List.dropLast_concat] at this

theorem entry_ancestor {rest : Path} (h : tree.entry (path ++ rest) ≠ none) (hrest : rest ≠ []) :
    tree.entry path = some .directory := by
  induction rest using List.reverseRecOn with
  | nil => exact absurd rfl hrest
  | append_singleton rest name ih =>
    rw [← List.append_assoc] at h
    have hparent := entry_parent h
    by_cases hnil : rest = []
    · rwa [hnil, List.append_nil] at hparent
    · exact ih (by rw [hparent]; simp) hnil

/-- Everything on the way to a directory is a directory. -/
theorem entry_of_prefix_dir (h : tree.entry path = some .directory) (hpre : other <+: path) :
    tree.entry other = some .directory := by
  obtain ⟨rest, rfl⟩ := hpre
  by_cases hrest : rest = []
  · rwa [hrest, List.append_nil] at h
  · exact entry_ancestor (by rw [h]; simp) hrest

theorem isEmpty_iff : tree.isEmpty path = true ↔ ∀ name, tree.entry (path ++ [name]) = none := by
  unfold isEmpty
  rw [List.all_eq_true]
  constructor
  · intro h name
    by_contra hsome
    obtain ⟨kind, hkind⟩ := Option.ne_none_iff_exists'.mp hsome
    simpa using h _ (mem_of_entry hkind)
  · rintro h ⟨place, kind⟩ hmem
    rcases List.eq_nil_or_concat place with rfl | ⟨parent, name, rfl⟩
    · simp
    · have hne := entry_of_mem hmem
      simp only [List.concat_eq_append, List.dropLast_concat, Bool.or_eq_true, bne_iff_ne] at *
      right
      rintro rfl
      exact hne (h name)

theorem entry_below (h : tree.entry path ≠ some .directory) {rest : Path} (hrest : rest ≠ []) :
    tree.entry (path ++ rest) = none := by
  by_contra below
  exact h (entry_ancestor below hrest)

theorem isEmpty_of_not_dir (h : tree.entry path ≠ some .directory) : tree.isEmpty path = true :=
  isEmpty_iff.mpr fun _ => entry_below h (by simp)

theorem nearest_snoc : tree.nearest (path ++ [name]) =
    (tree.entry (path ++ [name])).or (tree.nearest path) := by
  unfold nearest
  rw [Path.ancestors_snoc, List.findSome?_cons]
  cases tree.entry (path ++ [name]) with
  | none => rfl
  | some kind => rfl

theorem nearest_nil : tree.nearest [] = some .directory := by
  have hroot : tree.entry [] = some .directory := tree.root
  simp [nearest, Path.ancestors, hroot]

/-! ## Adding and removing entries -/

def put (tree : Tree) (path : Path) (kind : Kind) : Tree :=
  if h : tree.entry path = none ∧ tree.entry path.dropLast = some .directory then
    { nodes := tree.nodes ++ [(path, kind)]
      root := by rw [List.lookup_append, tree.root, Option.some_or]
      closed := by
        intro node hmem hne
        rw [List.lookup_append]
        rcases List.mem_append.mp hmem with hold | hnew
        · rw [tree.closed node hold hne, Option.some_or]
        · rw [List.mem_singleton.mp hnew]
          unfold entry at h
          rw [h.2, Option.some_or] }
  else tree

/-- Removes an entry with nothing in it. -/
def erase (tree : Tree) (path : Path) : Tree :=
  if h : path ≠ [] ∧ tree.isEmpty path = true then
    { nodes := tree.nodes.filter (·.1 != path)
      root := by
        rw [lookup_filter_ne, if_neg (Ne.symm h.1)]
        exact tree.root
      closed := by
        intro node hmem hne
        obtain ⟨hold, hpath⟩ := List.mem_filter.mp hmem
        rw [lookup_filter_ne, if_neg, tree.closed node hold hne]
        rintro rfl
        simpa [hne] using List.all_eq_true.mp h.2 node hold }
  else tree

theorem entry_put : (tree.put path kind).entry other =
    if other = path ∧ tree.entry path = none ∧ tree.entry path.dropLast = some .directory then
      some kind
    else tree.entry other := by
  unfold put
  split
  · next h =>
    change (tree.nodes ++ [(path, kind)]).lookup other = _
    rw [List.lookup_append, List.lookup_cons, List.lookup_nil]
    by_cases hother : other = path
    · subst hother
      have hnone : tree.nodes.lookup other = none := h.1
      simp [h, hnone]
    · rw [if_neg fun hand => hother hand.1, beq_eq_false_iff_ne.mpr hother]
      exact Option.or_none
  · next h => rw [if_neg fun hand => h hand.2]

theorem entry_put_of_ne (h : other ≠ path) :
    (tree.put path kind).entry other = tree.entry other := by
  rw [entry_put, if_neg fun hand => h hand.1]

theorem entry_put_of_some {found : Kind} (h : tree.entry other = some found) :
    (tree.put path kind).entry other = some found := by
  rw [entry_put, if_neg, h]
  rintro ⟨rfl, hnone, -⟩
  rw [h] at hnone
  cases hnone

theorem entry_erase : (tree.erase path).entry other =
    if other = path ∧ path ≠ [] ∧ tree.isEmpty path = true then none else tree.entry other := by
  unfold erase
  split
  · next h =>
    refine (lookup_filter_ne tree.nodes path other).trans ?_
    by_cases hother : other = path
    · rw [if_pos hother, if_pos ⟨hother, h⟩]
    · rw [if_neg hother, if_neg fun hand => hother hand.1]
      rfl
  · next h => rw [if_neg fun hand => h hand.2]

theorem entry_erase_of_ne (h : other ≠ path) : (tree.erase path).entry other = tree.entry other := by
  rw [entry_erase, if_neg fun hand => h hand.1]

/-- `fs::create_dir_all`. Where a parent is no directory nothing is made. -/
def createDirAll (tree : Tree) (path : Path) : Tree :=
  path.inits.foldl (fun tree directory => tree.put directory .directory) tree

/-- `fs::write` of an empty file. It fails where the file is not there afterwards. -/
def writeFile (tree : Tree) (path : Path) : Tree := tree.put path .file

/-- `fs::remove_file`. -/
def removeFile (tree : Tree) (path : Path) : Tree :=
  if tree.isDir path then tree else tree.erase path

/-- `fs::remove_dir`, which removes only an empty directory. -/
def removeDir (tree : Tree) (path : Path) : Tree :=
  if tree.isDir path then tree.erase path else tree

theorem entry_removeFile (tree : Tree) (path other : Path) : (tree.removeFile path).entry other =
    if other = path ∧ tree.entry path ≠ some .directory then none else tree.entry other := by
  unfold removeFile isDir
  by_cases dir : tree.entry path = some .directory
  · simp [dir]
  · have root : path ≠ [] := by
      rintro rfl
      exact dir tree.root
    simp [dir, entry_erase, root, isEmpty_of_not_dir dir]

theorem entry_removeDir (tree : Tree) (path other : Path) : (tree.removeDir path).entry other =
    if other = path ∧ path ≠ [] ∧ tree.entry path = some .directory ∧ tree.isEmpty path = true then
      none
    else tree.entry other := by
  unfold removeDir isDir
  by_cases dir : tree.entry path = some .directory
  · simp [dir, entry_erase]
  · simp [dir]

theorem createDirAll_snoc :
    tree.createDirAll (path ++ [name]) = (tree.createDirAll path).put (path ++ [name]) .directory := by
  unfold createDirAll
  rw [List.inits_append, List.foldl_append]
  rfl

theorem entry_createDirAll_of_some (h : tree.entry other = some kind) :
    (tree.createDirAll path).entry other = some kind := by
  induction path using List.reverseRecOn with
  | nil => exact entry_put_of_some h
  | append_singleton path name ih =>
    rw [createDirAll_snoc]
    exact entry_put_of_some ih

theorem entry_createDirAll_elsewhere (h : ¬other <+: path) :
    (tree.createDirAll path).entry other = tree.entry other := by
  induction path using List.reverseRecOn with
  | nil =>
    refine entry_put_of_ne ?_
    rintro rfl
    exact h List.nil_prefix
  | append_singleton path name ih =>
    rw [createDirAll_snoc, entry_put_of_ne, ih]
    · exact fun hpre => h (hpre.trans (List.prefix_append _ _))
    · rintro rfl
      exact h List.prefix_rfl

theorem nearest_eq_directory_of_isDir (h : tree.entry path = some .directory) :
    tree.nearest path = some .directory := by
  rcases List.eq_nil_or_concat path with rfl | ⟨parent, name, rfl⟩
  · exact nearest_nil
  · rw [List.concat_eq_append] at *
    rw [nearest_snoc, h, Option.some_or]

/-- Where a directory is the nearest entry, the rest of the path can be made. -/
theorem isDir_createDirAll (h : tree.nearest path = some .directory) :
    (tree.createDirAll path).entry path = some .directory := by
  induction path using List.reverseRecOn with
  | nil => exact entry_createDirAll_of_some tree.root
  | append_singleton path name ih =>
    rw [nearest_snoc, Option.or_eq_some_iff] at h
    rcases h with h | ⟨hnone, h⟩
    · exact entry_createDirAll_of_some h
    · rw [createDirAll_snoc, entry_put, if_pos]
      refine ⟨rfl, ?_, ?_⟩
      · rw [entry_createDirAll_elsewhere, hnone]
        intro hpre
        simpa using hpre.length_le
      · rw [List.dropLast_concat]
        exact ih h

end Tree

end Beez.Sandbox
