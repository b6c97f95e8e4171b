import Beez.Lib.Fallible
import Beez.Lib.Named
import Beez.Policy.Merge

/-! # Policies as a manifest writes them

A manifest and the flags of a command hold the values of a policy as text.
-/

open Beez.Lib

namespace Beez

/-- `{:?}` of a string and of a character, which escape what does not print. -/
class RustDebug where
  string : Text → Text
  char : Char → Text

/-! ## Names -/

namespace HeadlessHarness

def table : NameTable HeadlessHarness where
  all := [.pi, .omp, .claude, .codex]
  name := HeadlessHarness.name
  complete value := by cases value <;> decide
  distinct := by decide

end HeadlessHarness

namespace DomainGroup

def name : DomainGroup → String
  | anthropic => "anthropic"
  | openAi => "openai"
  | google => "google"
  | openRouter => "openrouter"
  | bedrock => "bedrock"
  | vertex => "vertex"
  | azureOpenAi => "azure-openai"
  | mistral => "mistral"
  | deepSeek => "deepseek"
  | xai => "xai"
  | groq => "groq"
  | ollama => "ollama"
  | huggingFace => "huggingface"
  | claudeOptional => "claude-optional"
  | claudeTelemetry => "claude-telemetry"
  | github => "github"
  | gitlab => "gitlab"
  | bitbucket => "bitbucket"
  | npm => "npm"
  | pypi => "pypi"
  | crates => "crates"
  | go => "go"
  | rubygems => "rubygems"
  | maven => "maven"
  | nuget => "nuget"
  | homebrew => "homebrew"
  | dockerHub => "docker-hub"
  | containerRegistry => "container-registry"
  | hashicorp => "hashicorp"
  | playwright => "playwright"

def table : NameTable DomainGroup where
  all := all
  name := name
  complete := mem_all
  distinct := by decide

end DomainGroup

namespace ExecutableGroup

def name : ExecutableGroup → String
  | coreutils => "coreutils"
  | text => "text"
  | git => "git"
  | net => "net"
  | node => "node"
  | python => "python"
  | rust => "rust"
  | go => "go"
  | jvm => "jvm"
  | ruby => "ruby"
  | dotnet => "dotnet"
  | zig => "zig"
  | build => "build"
  | container => "container"
  | iac => "iac"
  | process => "process"

def table : NameTable ExecutableGroup where
  all := all
  name := name
  complete := mem_all
  distinct := by decide

end ExecutableGroup

/-- The error text for a name that no value carries, with every choice. -/
def unknownName [RustDebug] {α : Type} (table : NameTable α) (kind : String) (name : Text) : Text :=
  "unknown ".toList ++ kind.toList ++ ' ' :: RustDebug.string name ++
    "; expected one of ".toList ++ table.choices

/-- `value.parse()` for a value of a name table, with the text of its error. -/
def parseName [RustDebug] {α : Type} (table : NameTable α) (kind : String) (value : Text) :
    Except Text α :=
  match table.fromName value with
  | some found => .ok found
  | none => .error (unknownName table kind value)

section

variable [RustDebug]

def HeadlessHarness.parse : Text → Except Text HeadlessHarness := parseName table "headless harness"

def DomainGroup.parse : Text → Except Text DomainGroup := parseName table "domain group"

def ExecutableGroup.parse : Text → Except Text ExecutableGroup := parseName table "executable group"

theorem parseName_eq_ok {α : Type} (table : NameTable α) (kind : String) {name : Text} {value : α} :
    parseName table kind name = .ok value ↔ name = (table.name value).toList := by
  rw [← table.fromName_eq_some]
  unfold parseName
  split <;> simp [*]

theorem parseName_name {α : Type} (table : NameTable α) (kind : String) (value : α) :
    parseName table kind (table.name value).toList = .ok value :=
  (parseName_eq_ok table kind).mpr rfl

/-! ## Host rules and paths -/

def DomainRuleError.display : DomainRuleError → Text
  | .empty => "domain rule must name a host".toList
  | .invalidCharacter character =>
    "domain rule contains invalid character ".toList ++ RustDebug.char character
  | .misplacedWildcard => "domain rule may use `*` only as the first label".toList
  | .invalidPort port => "domain rule has invalid port ".toList ++ RustDebug.string port

def DomainRule.parse (value : Text) : Except Text DomainRule :=
  (DomainRule.fromStr value).mapError DomainRuleError.display

end

def SandboxPathError.display : SandboxPathError → Text
  | .empty => "sandbox path must not be empty".toList
  | .nul => "sandbox path must not contain NUL".toList

def SandboxPath.parse (value : Text) : Except Text SandboxPath :=
  (SandboxPath.fromStr value).mapError SandboxPathError.display

/-! ## Tables -/

structure ManifestNetwork where
  defaults : Option Bool
  groups : List Text
  disable : List Text
  allow : List Text
  localhost : Option Bool

structure ManifestFilesystem where
  defaults : Option Bool
  readDeny : List Text
  writeAllow : List Text
  writeDeny : List Text

structure ManifestExecutables where
  defaults : Option Bool
  groups : List Text
  disable : List Text
  allow : List Text

/-- Policy sections as written in a manifest. Missing sections keep defaults. -/
structure ManifestSandbox where
  network : Option ManifestNetwork
  filesystem : Option ManifestFilesystem
  executables : Option ManifestExecutables

/-- `parse_all`: it stops at the first value that it cannot read. -/
def parseAll {α : Type} (parse : Text → Except Text α) (values : List Text) : Except Text (List α) :=
  values.mapM parse

/-- A section that is there is read. -/
def readSection {α β : Type} (read : α → Except Text β) : Option α → Except Text (Option β)
  | none => .ok none
  | some written => some <$> read written

section

variable [RustDebug]

def ManifestNetwork.read (network : ManifestNetwork) : Except Text NetworkPolicy := do
  let groups ← parseAll DomainGroup.parse network.groups
  let disable ← parseAll DomainGroup.parse network.disable
  let allow ← parseAll DomainRule.parse network.allow
  return ⟨⟨network.defaults, groups, disable⟩, allow, network.localhost⟩

def ManifestFilesystem.read (filesystem : ManifestFilesystem) : Except Text FilesystemPolicy := do
  let readDeny ← parseAll SandboxPath.parse filesystem.readDeny
  let writeAllow ← parseAll SandboxPath.parse filesystem.writeAllow
  let writeDeny ← parseAll SandboxPath.parse filesystem.writeDeny
  return ⟨filesystem.defaults, readDeny, writeAllow, writeDeny⟩

def ManifestExecutables.read (executables : ManifestExecutables) : Except Text ExecutablePolicy := do
  let groups ← parseAll ExecutableGroup.parse executables.groups
  let disable ← parseAll ExecutableGroup.parse executables.disable
  let allow ← parseAll SandboxPath.parse executables.allow
  return ⟨⟨executables.defaults, groups, disable⟩, allow⟩

/-- The sections that `apply_to` adds to a base. -/
def ManifestSandbox.read (sandbox : ManifestSandbox) : Except Text Sections := do
  let network ← readSection ManifestNetwork.read sandbox.network
  let filesystem ← readSection ManifestFilesystem.read sandbox.filesystem
  let executables ← readSection ManifestExecutables.read sandbox.executables
  return ⟨network, filesystem, executables⟩

def ManifestSandbox.applyTo (sandbox : ManifestSandbox) (base : SandboxPolicy) :
    Except Text SandboxPolicy := do
  return (← sandbox.read).applyTo base

/-! ## What a table is refused for -/

def errorsIn {α : Type} (parse : Text → Except Text α) (values : List Text) : List Text :=
  values.filterMap fun value => errorOf (parse value)

def ManifestNetwork.errors (network : ManifestNetwork) : List Text :=
  errorsIn DomainGroup.parse network.groups ++ (errorsIn DomainGroup.parse network.disable ++
    errorsIn DomainRule.parse network.allow)

def ManifestFilesystem.errors (filesystem : ManifestFilesystem) : List Text :=
  errorsIn SandboxPath.parse filesystem.readDeny ++
    (errorsIn SandboxPath.parse filesystem.writeAllow ++
      errorsIn SandboxPath.parse filesystem.writeDeny)

def ManifestExecutables.errors (executables : ManifestExecutables) : List Text :=
  errorsIn ExecutableGroup.parse executables.groups ++
    (errorsIn ExecutableGroup.parse executables.disable ++
      errorsIn SandboxPath.parse executables.allow)

/-- What cannot be read in a table, in the order in which it is read. -/
def ManifestSandbox.errors (sandbox : ManifestSandbox) : List Text :=
  sandbox.network.elim [] ManifestNetwork.errors ++
    (sandbox.filesystem.elim [] ManifestFilesystem.errors ++
      sandbox.executables.elim [] ManifestExecutables.errors)

omit [RustDebug] in
theorem errorOf_parseAll {α : Type} (parse : Text → Except Text α) (values : List Text) :
    errorOf (parseAll parse values) = (errorsIn parse values).head? :=
  errorOf_mapM parse values

omit [RustDebug] in
theorem errorOf_readSection {α β : Type} {read : α → Except Text β} {errors : α → List Text}
    (h : ∀ written, errorOf (read written) = (errors written).head?) (section_ : Option α) :
    errorOf (readSection read section_) = (section_.elim [] errors).head? := by
  cases section_ with
  | none => rfl
  | some written => exact (errorOf_map some (read written)).trans (h written)

omit [RustDebug] in
/-- Three lists that are read one after the other. -/
theorem errorOf_three {α β γ δ : Type} {first : Except Text α} {second : Except Text β}
    {third : Except Text γ} {make : α → β → γ → δ} {errors errors' errors'' : List Text}
    (h : errorOf first = errors.head?) (h' : errorOf second = errors'.head?)
    (h'' : errorOf third = errors''.head?) :
    errorOf (do return make (← first) (← second) (← third)) =
      (errors ++ (errors' ++ errors'')).head? := by
  rw [List.head?_append, List.head?_append, ← h, ← h', ← h'']
  refine errorOf_bind _ fun a => errorOf_bind _ fun b => ?_
  rw [errorOf_bind none fun _ => rfl, Option.or_none]

theorem ManifestNetwork.errorOf_read (network : ManifestNetwork) :
    errorOf network.read = network.errors.head? :=
  errorOf_three (errorOf_parseAll _ _) (errorOf_parseAll _ _) (errorOf_parseAll _ _)

omit [RustDebug] in
theorem ManifestFilesystem.errorOf_read (filesystem : ManifestFilesystem) :
    errorOf filesystem.read = filesystem.errors.head? :=
  errorOf_three (errorOf_parseAll _ _) (errorOf_parseAll _ _) (errorOf_parseAll _ _)

theorem ManifestExecutables.errorOf_read (executables : ManifestExecutables) :
    errorOf executables.read = executables.errors.head? :=
  errorOf_three (errorOf_parseAll _ _) (errorOf_parseAll _ _) (errorOf_parseAll _ _)

theorem ManifestSandbox.errorOf_read (sandbox : ManifestSandbox) :
    errorOf sandbox.read = sandbox.errors.head? :=
  errorOf_three (errorOf_readSection ManifestNetwork.errorOf_read _)
    (errorOf_readSection ManifestFilesystem.errorOf_read _)
    (errorOf_readSection ManifestExecutables.errorOf_read _)

/-! ## Tables that write a policy -/

def SandboxPath.Valid (path : SandboxPath) : Prop :=
  path.text.toList ≠ [] ∧ Char.ofNat 0 ∉ path.text.toList

/-- Every value is one that some text writes. -/
structure Sections.WellFormed (sections : Sections) : Prop where
  hosts : ∀ network ∈ sections.network, ∀ rule ∈ network.allow, rule.WellFormed
  paths : ∀ filesystem ∈ sections.filesystem,
    (∀ path ∈ filesystem.readDeny, path.Valid) ∧ (∀ path ∈ filesystem.writeAllow, path.Valid) ∧
      ∀ path ∈ filesystem.writeDeny, path.Valid
  programs : ∀ executables ∈ sections.executables, ∀ path ∈ executables.allow, path.Valid

def SandboxPath.display (path : SandboxPath) : Text := path.text.toList

def NetworkPolicy.write (policy : NetworkPolicy) : ManifestNetwork where
  defaults := policy.groups.defaults
  groups := policy.groups.groups.map fun group => group.name.toList
  disable := policy.groups.disable.map fun group => group.name.toList
  allow := policy.allow.map DomainRule.display
  localhost := policy.localhost

def FilesystemPolicy.write (policy : FilesystemPolicy) : ManifestFilesystem where
  defaults := policy.defaults
  readDeny := policy.readDeny.map SandboxPath.display
  writeAllow := policy.writeAllow.map SandboxPath.display
  writeDeny := policy.writeDeny.map SandboxPath.display

def ExecutablePolicy.write (policy : ExecutablePolicy) : ManifestExecutables where
  defaults := policy.groups.defaults
  groups := policy.groups.groups.map fun group => group.name.toList
  disable := policy.groups.disable.map fun group => group.name.toList
  allow := policy.allow.map SandboxPath.display

/-- The table that names everything in the sections. -/
def Sections.write (sections : Sections) : ManifestSandbox where
  network := sections.network.map NetworkPolicy.write
  filesystem := sections.filesystem.map FilesystemPolicy.write
  executables := sections.executables.map ExecutablePolicy.write

theorem DomainRule.parse_display {rule : DomainRule} (h : rule.WellFormed) :
    DomainRule.parse rule.display = .ok rule := by
  unfold DomainRule.parse
  rw [DomainRule.fromStr_display h]
  rfl

omit [RustDebug] in
theorem SandboxPath.parse_display {path : SandboxPath} (h : path.Valid) :
    SandboxPath.parse path.display = .ok path := by
  unfold SandboxPath.parse SandboxPath.fromStr SandboxPath.display
  rw [if_neg h.1, if_neg h.2, String.ofList_toList]
  rfl

theorem DomainRule.parse_wellFormed {value : Text} {rule : DomainRule}
    (h : DomainRule.parse value = .ok rule) : rule.WellFormed := by
  unfold DomainRule.parse at h
  cases hread : DomainRule.fromStr value with
  | error error =>
    rw [hread] at h
    cases h
  | ok found =>
    rw [hread] at h
    cases h
    exact DomainRule.fromStr_wellFormed hread

omit [RustDebug] in
theorem SandboxPath.parse_valid {value : Text} {path : SandboxPath}
    (h : SandboxPath.parse value = .ok path) : path.Valid := by
  unfold SandboxPath.parse SandboxPath.fromStr at h
  split at h
  · cases h
  · next named =>
    split at h
    · cases h
    · next noNul =>
      cases h
      unfold SandboxPath.Valid
      rw [String.toList_ofList]
      exact ⟨named, noNul⟩

theorem NetworkPolicy.read_write {policy : NetworkPolicy}
    (hosts : ∀ rule ∈ policy.allow, rule.WellFormed) : policy.write.read = .ok policy := by
  have groups (list : List DomainGroup) :
      parseAll DomainGroup.parse (list.map fun group => group.name.toList) = .ok list :=
    mapM_map_eq_ok fun group _ => parseName_name DomainGroup.table _ group
  have allow : parseAll DomainRule.parse (policy.allow.map DomainRule.display) = .ok policy.allow :=
    mapM_map_eq_ok fun rule hrule => DomainRule.parse_display (hosts rule hrule)
  unfold ManifestNetwork.read NetworkPolicy.write
  dsimp only
  rw [groups, groups, allow]
  rfl

omit [RustDebug] in
theorem parseAll_paths {paths : List SandboxPath} (valid : ∀ path ∈ paths, path.Valid) :
    parseAll SandboxPath.parse (paths.map SandboxPath.display) = .ok paths :=
  mapM_map_eq_ok fun path hpath => SandboxPath.parse_display (valid path hpath)

omit [RustDebug] in
theorem FilesystemPolicy.read_write {policy : FilesystemPolicy}
    (paths : (∀ path ∈ policy.readDeny, path.Valid) ∧ (∀ path ∈ policy.writeAllow, path.Valid) ∧
      ∀ path ∈ policy.writeDeny, path.Valid) : policy.write.read = .ok policy := by
  unfold ManifestFilesystem.read FilesystemPolicy.write
  dsimp only
  rw [parseAll_paths paths.1, parseAll_paths paths.2.1, parseAll_paths paths.2.2]
  rfl

theorem ExecutablePolicy.read_write {policy : ExecutablePolicy}
    (programs : ∀ path ∈ policy.allow, path.Valid) : policy.write.read = .ok policy := by
  have groups (list : List ExecutableGroup) :
      parseAll ExecutableGroup.parse (list.map fun group => group.name.toList) = .ok list :=
    mapM_map_eq_ok fun group _ => parseName_name ExecutableGroup.table _ group
  unfold ManifestExecutables.read ExecutablePolicy.write
  dsimp only
  rw [groups, groups, parseAll_paths programs]
  rfl

omit [RustDebug] in
theorem readSection_write {α β : Type} (read : α → Except Text β) (write : β → α) {section_ : Option β}
    (h : ∀ policy ∈ section_, read (write policy) = .ok policy) :
    readSection read (section_.map write) = .ok section_ := by
  cases section_ with
  | none => rfl
  | some policy =>
    rw [Option.map_some, readSection, h policy rfl]
    rfl

theorem Sections.read_write {sections : Sections} (wellFormed : sections.WellFormed) :
    sections.write.read = .ok sections := by
  have network := readSection_write ManifestNetwork.read NetworkPolicy.write
    fun policy h => NetworkPolicy.read_write (wellFormed.hosts policy h)
  have filesystem := readSection_write ManifestFilesystem.read FilesystemPolicy.write
    fun policy h => FilesystemPolicy.read_write (wellFormed.paths policy h)
  have executables := readSection_write ManifestExecutables.read ExecutablePolicy.write
    fun policy h => ExecutablePolicy.read_write (wellFormed.programs policy h)
  unfold ManifestSandbox.read Sections.write
  dsimp only
  rw [network, filesystem, executables]
  rfl

omit [RustDebug] in
theorem readSection_good {α β : Type} {read : α → Except Text β} (good : β → Prop)
    (h : ∀ a b, read a = .ok b → good b) {section_ : Option α} {result : Option β}
    (ok : readSection read section_ = .ok result) : ∀ b ∈ result, good b := by
  cases section_ with
  | none =>
    obtain rfl := Except.ok.inj ok
    simp
  | some written =>
    cases hread : read written with
    | error error =>
      rw [readSection, hread] at ok
      cases ok
    | ok policy =>
      rw [readSection, hread] at ok
      obtain rfl := Except.ok.inj ok
      rintro _ ⟨⟩
      exact h written policy hread

theorem ManifestSandbox.read_wellFormed {sandbox : ManifestSandbox} {sections : Sections}
    (h : sandbox.read = .ok sections) : sections.WellFormed := by
  unfold ManifestSandbox.read at h
  simp only [bind_eq_ok, pure_eq_ok] at h
  obtain ⟨network, hnetwork, filesystem, hfilesystem, executables, hexecutables, rfl⟩ := h
  refine ⟨?_, ?_, ?_⟩
  · refine readSection_good (fun policy : NetworkPolicy =>
      ∀ rule ∈ policy.allow, rule.WellFormed) ?_ hnetwork
    intro written policy hread
    unfold ManifestNetwork.read at hread
    simp only [bind_eq_ok, pure_eq_ok] at hread
    obtain ⟨_, _, _, _, allow, hallow, rfl⟩ := hread
    exact mapM_forall (fun _ _ h => DomainRule.parse_wellFormed h) hallow
  · refine readSection_good (fun policy : FilesystemPolicy =>
      (∀ path ∈ policy.readDeny, path.Valid) ∧ (∀ path ∈ policy.writeAllow, path.Valid) ∧
        ∀ path ∈ policy.writeDeny, path.Valid) ?_ hfilesystem
    intro written policy hread
    unfold ManifestFilesystem.read at hread
    simp only [bind_eq_ok, pure_eq_ok] at hread
    obtain ⟨readDeny, hreadDeny, writeAllow, hwriteAllow, writeDeny, hwriteDeny, rfl⟩ := hread
    exact ⟨mapM_forall (fun _ _ h => SandboxPath.parse_valid h) hreadDeny,
      mapM_forall (fun _ _ h => SandboxPath.parse_valid h) hwriteAllow,
      mapM_forall (fun _ _ h => SandboxPath.parse_valid h) hwriteDeny⟩
  · refine readSection_good (fun policy : ExecutablePolicy =>
      ∀ path ∈ policy.allow, path.Valid) ?_ hexecutables
    intro written policy hread
    unfold ManifestExecutables.read at hread
    simp only [bind_eq_ok, pure_eq_ok] at hread
    obtain ⟨_, _, _, _, allow, hallow, rfl⟩ := hread
    exact mapM_forall (fun _ _ h => SandboxPath.parse_valid h) hallow

/-- A table is refused for the first of its values that cannot be read. What a table can give are the
sections of well-formed values, and each of them is read back from the table that names its values. -/
theorem sandbox_table_reads (sandbox : ManifestSandbox) (sections : Sections) :
    errorOf sandbox.read = sandbox.errors.head? ∧
      ((∃ written : ManifestSandbox, written.read = .ok sections) ↔ sections.WellFormed) ∧
      (sections.WellFormed → sections.write.read = .ok sections) := by
  refine ⟨sandbox.errorOf_read, ⟨?_, ?_⟩, Sections.read_write⟩
  · rintro ⟨written, h⟩
    exact ManifestSandbox.read_wellFormed h
  · intro wellFormed
    exact ⟨sections.write, Sections.read_write wellFormed⟩

end

end Beez
