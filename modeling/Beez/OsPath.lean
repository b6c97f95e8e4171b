import Beez.Path
import Beez.Utf8

/-! # Paths as the bytes of the host -/

namespace Beez

/-- The bytes of a path or an argument, which need not be text. -/
abbrev OsString := List Byte

namespace OsString

def slash : Byte := 0x2F

def dot : Byte := 0x2E

def ofString (text : String) : OsString := Text.toUtf8 text.toList

/-- `path.join(other)`. An absolute path replaces what it is joined to. -/
def join (path other : OsString) : OsString :=
  if other.head? = some slash then other
  else if path = [] ∨ path.getLast? = some slash then path ++ other
  else path ++ slash :: other

/-- `env::split_paths(path)`. -/
def splitPaths (path : OsString) : List OsString := path.splitOn 0x3A

inductive Component where
  | rootDir | curDir | parentDir
  | normal (name : OsString)
deriving DecidableEq, Repr

/-- Repeated separators and a dot after the first component name nothing. -/
def componentOf (segment : OsString) : Option Component :=
  if segment = [] ∨ segment = [dot] then none
  else if segment = [dot, dot] then some .parentDir
  else some (.normal segment)

/-- `path.components()`. -/
def components (path : OsString) : List Component :=
  let segments := path.splitOn slash
  (if path.head? = some slash then [.rootDir]
    else if segments.head? = some [dot] then [.curDir]
    else []) ++ segments.filterMap componentOf

/-- `path.file_name()`. -/
def fileName (path : OsString) : Option OsString :=
  match (components path).getLast? with
  | some (.normal name) => some name
  | _ => none

example : components (ofString "./a//b/.") = [.curDir, .normal (ofString "a"), .normal (ofString "b")] := by
  decide
example : fileName (ofString "/usr/bin/..") = none := by decide

end OsString

end Beez
