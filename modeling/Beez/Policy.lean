import Mathlib.Tactic.Common

/-! # What a manifest may allow a task -/

namespace Beez

/-- A headless coding harness Beez can prompt. -/
inductive HeadlessHarness where
  | pi | omp | claude | codex
deriving DecidableEq, Repr

/-- The name a manifest uses for the harness, which is also its program. -/
def HeadlessHarness.name : HeadlessHarness → String
  | .pi => "pi"
  | .omp => "omp"
  | .claude => "claude"
  | .codex => "codex"

structure HarnessOptions where
  model : Option String
  effort : Option String
deriving DecidableEq, Repr

/-- A named set of hosts a task may need. -/
inductive DomainGroup where
  | anthropic | openAi | google | openRouter | bedrock | vertex | azureOpenAi | mistral | deepSeek
  | xai | groq | ollama | huggingFace | claudeOptional | claudeTelemetry | github | gitlab
  | bitbucket | npm | pypi | crates | go | rubygems | maven | nuget | homebrew | dockerHub
  | containerRegistry | hashicorp | playwright
deriving DecidableEq, Repr

/-- A named set of programs a task may run. -/
inductive ExecutableGroup where
  | coreutils | text | git | net | node | python | rust | go | jvm | ruby | dotnet | zig | build
  | container | iac | process
deriving DecidableEq, Repr

/-- A host the sandbox may reach. Without a port the rule matches every port. -/
structure DomainRule where
  host : String
  wildcard : Bool
  port : Option (BitVec 16)
deriving DecidableEq, Repr

/-- Default groups a section may disable, and groups it adds of its own. -/
structure GroupSelection (G : Type) where
  defaults : Option Bool
  groups : List G
  disable : List G
deriving DecidableEq, Repr

structure NetworkPolicy where
  groups : GroupSelection DomainGroup
  allow : List DomainRule
  localhost : Option Bool
deriving DecidableEq, Repr

/-- A filesystem rule path before it is resolved on a host. -/
structure SandboxPath where
  text : String
deriving DecidableEq, Repr

structure FilesystemPolicy where
  defaults : Option Bool
  readDeny : List SandboxPath
  writeAllow : List SandboxPath
  writeDeny : List SandboxPath
deriving DecidableEq, Repr

structure ExecutablePolicy where
  groups : GroupSelection ExecutableGroup
  allow : List SandboxPath
deriving DecidableEq, Repr

/-- Restrictions Beez applies to a task's process tree. -/
structure SandboxPolicy where
  network : NetworkPolicy
  filesystem : FilesystemPolicy
  executables : Option ExecutablePolicy
deriving DecidableEq, Repr

end Beez
