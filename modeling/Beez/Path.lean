import Mathlib.Data.List.Sort
import Mathlib.Data.String.Basic
import Mathlib.Data.List.Infix

/-! # Absolute paths -/

namespace Beez

/-- The components of an absolute path, from the root down. The root has none. -/
abbrev Path := List String

namespace Path

def display (path : Path) : List Char :=
  if path = [] then ['/'] else path.flatMap fun name => '/' :: name.toList

def startsWith (path directory : Path) : Bool := directory.isPrefixOf path

theorem startsWith_iff (path directory : Path) :
    startsWith path directory = true ↔ directory <+: path := by
  simp [startsWith]

/-- `path.ancestors()`: the path itself, then each parent, the root last. -/
def ancestors (path : Path) : List Path := path.inits.reverse

theorem mem_ancestors (path directory : Path) : directory ∈ ancestors path ↔ directory <+: path := by
  simp [ancestors]

theorem ancestors_snoc (directory : Path) (name : String) :
    ancestors (directory ++ [name]) = (directory ++ [name]) :: ancestors directory := by
  simp [ancestors, List.inits_append]

end Path

/-- A name without its last extension. A name that starts with its only dot has none. -/
def stemOf (name : List Char) : List Char :=
  match name.reverse.dropWhile (· != '.') with
  | [] | [_] => name
  | _ :: before => before.reverse

/-- `path.file_stem()`. -/
def Path.fileStem (path : Path) : Option String :=
  path.getLast?.map fun name => String.ofList (stemOf name.toList)

example : Path.fileStem ["work", "nightly.yaml"] = some "nightly" := by decide
example : Path.fileStem ["work", ".yaml"] = some ".yaml" := by decide

end Beez
