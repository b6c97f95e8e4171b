import Beez.Policy
import Beez.Text

/-! # Tasks -/

namespace Beez.Core

inductive TaskIdError where
  | empty
  | invalidCharacter (character : Char)
deriving DecidableEq, Repr

/-- `is_ascii_alphanumeric`, or an underscore. -/
def isIdCharacter (c : Char) : Bool :=
  ('0' ≤ c && c ≤ '9') || ('A' ≤ c && c ≤ 'Z') || ('a' ≤ c && c ≤ 'z') || c == '_'

/-- A task ID of ASCII letters, digits, or underscores. -/
structure TaskId where
  text : Text
  valid : text ≠ [] ∧ text.all isIdCharacter = true
deriving DecidableEq

/-- `TaskId::from_str`. -/
def TaskId.fromStr (value : Text) : Except TaskIdError TaskId :=
  if empty : value = [] then .error .empty
  else match found : value.find? (fun c => !isIdCharacter c) with
    | some character => .error (.invalidCharacter character)
    | none => .ok ⟨value, empty, by simpa using List.find?_eq_none.mp found⟩

/-- A task action Beez can execute. -/
inductive TaskRequest where
  | harness (harness : HeadlessHarness) (prompt : Text) (options : HarnessOptions)
  | command (program : Text) (arguments : List Text)
deriving DecidableEq

namespace TaskRequest

/-- The texts that may read the output of other tasks. -/
def texts : TaskRequest → List Text
  | .harness _ prompt _ => [prompt]
  | .command _ arguments => arguments

/-- Replaces each text from `texts` with what `map` returns for it. -/
def tryMapTexts {ε : Type} (map : Text → Except ε Text) : TaskRequest → Except ε TaskRequest
  | .harness agent prompt options => do return .harness agent (← map prompt) options
  | .command program arguments => do return .command program (← arguments.mapM map)

end TaskRequest

/-- A task declaration with dependencies identified by task ID. -/
structure TaskDefinition where
  id : TaskId
  dependsOn : List TaskId
  request : TaskRequest
  sandbox : Option SandboxPolicy

/-- A task with resolved predecessor references, which are positions in the task list. -/
structure Task where
  id : TaskId
  dependencies : List Nat
  reads : List Nat
  request : TaskRequest
  sandbox : Option SandboxPolicy
deriving DecidableEq

end Beez.Core
