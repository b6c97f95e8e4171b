import Beez.OsPath
import Beez.Policy
import Beez.Sandbox.Resolve

/-! # What a task may execute -/

namespace Beez

/-! ## The groups -/

def ExecutableGroup.all : List ExecutableGroup :=
  [.coreutils, .text, .git, .net, .node, .python, .rust, .go, .jvm, .ruby, .dotnet, .zig, .build,
    .container, .iac, .process]

theorem ExecutableGroup.mem_all (group : ExecutableGroup) : group ∈ all := by
  cases group <;> decide

/-- Program names in the group, looked up on `PATH` at launch. -/
def ExecutableGroup.programs : ExecutableGroup → List String
  | coreutils =>
    ["ls", "cat", "cp", "mv", "rm", "mkdir", "rmdir", "touch", "chmod", "ln", "head", "tail", "wc",
      "sort", "uniq", "cut", "tr", "tee", "echo", "printf", "pwd", "true", "false", "test", "[",
      "dirname", "basename", "realpath", "readlink", "stat", "date", "sleep", "xargs", "env", "id",
      "uname", "which", "mktemp", "du", "df", "tar", "gzip", "gunzip", "zip", "unzip"]
  | text =>
    ["grep", "egrep", "fgrep", "rg", "sed", "awk", "find", "diff", "patch", "jq", "less", "file",
      "tree"]
  | git => ["git", "ssh", "gh", "glab"]
  | net => ["curl", "wget", "nc", "ssh"]
  | node => ["node", "npm", "npx", "pnpm", "bun", "yarn", "corepack"]
  | python => ["python", "python3", "pip", "pip3", "uv", "uvx", "poetry"]
  | rust =>
    ["cargo", "rustc", "rustup", "rustfmt", "cargo-clippy", "clippy-driver", "rust-analyzer", "cc",
      "c++", "ld", "clang", "gcc", "ar"]
  | go => ["go", "gofmt", "cc", "gcc"]
  | jvm => ["java", "javac", "jar", "mvn", "gradle"]
  | ruby => ["ruby", "gem", "bundle", "bundler", "rake", "irb"]
  | dotnet => ["dotnet"]
  | zig => ["zig"]
  | build => ["make", "cmake", "ninja", "pkg-config"]
  | container => ["docker", "docker-compose", "podman", "kubectl", "helm"]
  | iac => ["terraform", "tofu", "terragrunt", "ansible", "ansible-playbook"]
  | process => ["ps", "kill", "pkill", "pgrep", "lsof", "top"]

/-- The groups the section grants, each once and in the order of `every`. -/
def GroupSelection.selected {G : Type} [DecidableEq G] (every : List G)
    (selection : GroupSelection G) (defaultGroups : List G) : List G :=
  every.filter fun group =>
    (selection.defaults.getD true && defaultGroups.contains group &&
      !selection.disable.contains group) || selection.groups.contains group

/-- A group the section names applies, whatever it disables and whatever its defaults are. -/
theorem GroupSelection.mem_selected_of_named {G : Type} [DecidableEq G] {every defaultGroups : List G}
    {selection : GroupSelection G} {group : G} (mem : group ∈ every)
    (named : group ∈ selection.groups) : group ∈ selection.selected every defaultGroups := by
  rw [selected, List.mem_filter]
  exact ⟨mem, by simp [named]⟩

def defaultExecutableGroups : List ExecutableGroup := [.coreutils, .text, .git, .net]

/-- `executables.groups()`. A group the section names applies even when it is disabled too. -/
def ExecutablePolicy.chosen (policy : ExecutablePolicy) : List ExecutableGroup :=
  policy.groups.selected ExecutableGroup.all defaultExecutableGroups

namespace SandboxPath

/-- A bare name has no directory separator. -/
def isBareName (path : SandboxPath) : Bool := !path.text.toList.contains '/' && path.text != "~"

/-- The path this rule names on a host. -/
def resolve (path : SandboxPath) (home workingDirectory : OsString) : OsString :=
  if path.text = "~" then home
  else match Text.stripPrefix ['~', '/'] path.text.toList with
    | some rest => home.join (Text.toUtf8 rest)
    -- An absolute path replaces the working directory when joined.
    | none => workingDirectory.join (.ofString path.text)

end SandboxPath

namespace Sandbox

/-! ## The host -/

structure Metadata where
  isFile : Bool
  isDir : Bool
  mode : BitVec 32
deriving DecidableEq, Repr

/-- What the launcher reads of the host. A canonical path is a `Path`, any other path its bytes. -/
structure HostSystem where
  /-- The bytes of a name, which are its text where it is ASCII. -/
  nameBytes : String → OsString
  nameBytes_ascii : ∀ name : String, (∀ c ∈ name.toList, c.toNat < 0x80) →
    nameBytes name = .ofString name
  /-- `env::var_os("PATH")`. -/
  searchPath : Option OsString
  /-- `fs::canonicalize`. -/
  canonicalize : OsString → Option Path
  /-- `fs::metadata`, which follows links. -/
  metadata : OsString → Option Metadata
  /-- What one read into 256 bytes gets of a file. -/
  readHead : OsString → Option (List Byte)
  /-- The names of the entries of a directory that could be read. -/
  readDir : OsString → Option (List OsString)

/-- Programs every harness needs to run its own tools. -/
def harnessPrograms : List String := ["sh", "bash", "zsh", "env", "node", "bun", "rg"]

/-- Where Git keeps its helper programs, relative to the prefix of the `git` binary. -/
def gitHelperDirectories : List Path := [["libexec", "git-core"], ["lib", "git-core"]]

/-- Where the dynamic loaders live, by architecture and libc. -/
def loaderDirectories : List String := ["/lib", "/lib64", "/usr/lib"]

namespace HostSystem

variable (host : HostSystem)

/-- The bytes of a canonical path. -/
def bytes (path : Path) : OsString :=
  if path = [] then [OsString.slash]
  else path.flatMap fun name => OsString.slash :: host.nameBytes name

def isFile (path : OsString) : Bool := (host.metadata path).any Metadata.isFile

def isDir (path : OsString) : Bool := (host.metadata path).any Metadata.isDir

def isExecutableFile (path : OsString) : Bool :=
  (host.metadata path).any fun metadata => metadata.isFile && metadata.mode &&& 0o111 != 0

def findOnPath (name : OsString) : Option OsString :=
  ((host.searchPath.toList.flatMap OsString.splitPaths).map (·.join name)).find?
    host.isExecutableFile

/-- The canonical path of `path`, when it is a file that may execute. -/
def canonicalExecutable (path : OsString) : Option Path :=
  (host.canonicalize path).filter fun path => host.isExecutableFile (host.bytes path)

/-- Finds a program the way a shell would: on `PATH` for bare names, else by path. -/
def locateProgram (program : OsString) (workingDirectory : Path) : Option Path :=
  if program.components.length = 1 ∧ program.components.head? ≠ some .rootDir then
    (host.findOnPath program).bind host.canonicalExecutable
  else host.canonicalExecutable ((host.bytes workingDirectory).join program)

/-- The canonical path of one rule, when it exists on this host. -/
def canonical (home workingDirectory : OsString) (path : SandboxPath) : Option Path :=
  host.canonicalize (path.resolve home workingDirectory)

/-- `program_locations` on Linux: the canonical file behind a program name. -/
def programLocations (name : OsString) : List Path :=
  ((host.findOnPath name).bind host.canonicalExecutable).toList

/-- Helper directories next to a `git` binary. -/
def helpersOf (git : Path) : List Path :=
  if git.length < 2 then []
  else (gitHelperDirectories.map (git.dropLast.dropLast ++ ·)).filter fun directory =>
    host.isDir (host.bytes directory)

/-- The interpreter a `#!` script runs, and the program `env` would look up. -/
def shebangInterpreters (script : Path) : List Path :=
  match host.readHead (host.bytes script) with
  | none => []
  | some head =>
    if [0x23, 0x21].isPrefixOf head then
      let line := Text.fromUtf8Lossy ((head.drop 2).takeWhile (· != 0x0A))
      match Text.splitWhitespace line with
      | [] => []
      | interpreter :: words =>
        let interpreter : OsString := Text.toUtf8 interpreter
        (host.canonicalize interpreter).toList ++
          if OsString.fileName interpreter = some (.ofString "env") then
            (words.find? fun word => word.head? != some '-').toList.flatMap fun word =>
              host.programLocations (Text.toUtf8 word)
          else []
    else []

/-- The dynamic loaders on this host, which Landlock checks too. -/
def dynamicLoaders : List Path :=
  loaderDirectories.flatMap fun directory =>
    (((host.readDir (.ofString directory)).getD []).filter
      (OsString.ofString "ld-").isPrefixOf).filterMap fun name =>
        host.canonicalize ((OsString.ofString directory).join name)

/-- Every file or directory the execute allowlist must cover. -/
def resolveExecutables (groups : List ExecutableGroup) (allow : List SandboxPath) (program : Path)
    (home workingDirectory : OsString) : List Path :=
  let names := (harnessPrograms ++ groups.flatMap ExecutableGroup.programs ++
    (allow.filter SandboxPath.isBareName).map SandboxPath.text).map OsString.ofString
  let paths := dedup (program :: names.flatMap host.programLocations ++
    (allow.filter fun path => !path.isBareName).filterMap (host.canonical home workingDirectory))
  let paths :=
    if groups.contains .git then
      dedup (paths ++ (paths.filter fun path =>
        path.getLast?.any fun name => host.nameBytes name == .ofString "git").flatMap host.helpersOf)
    else paths
  let interpreters := (paths.filter fun path => host.isFile (host.bytes path)).flatMap
    host.shebangInterpreters
  dedup (paths ++ interpreters ++ host.dynamicLoaders)

variable {host}

/-- The program itself may run, so no allowlist is empty. -/
theorem program_mem_resolveExecutables (groups : List ExecutableGroup) (allow : List SandboxPath)
    (program : Path) (home workingDirectory : OsString) :
    program ∈ host.resolveExecutables groups allow program home workingDirectory := by
  unfold resolveExecutables
  simp only [mem_dedup, List.mem_append]
  refine .inl (.inl ?_)
  split
  · simp
  · simp

theorem head_bytes (host : HostSystem) (path : Path) :
    (host.bytes path).head? = some OsString.slash := by
  unfold bytes
  split
  · rfl
  · rename_i named
    obtain ⟨name, rest, rfl⟩ := List.exists_cons_of_ne_nil named
    rfl

end HostSystem

/-! ## Resolving a policy for one program -/

inductive ResolveError where
  /-- What `fs::canonicalize` says of the working directory. -/
  | workingDirectory
  | notFound (message : Text)
deriving DecidableEq, Repr

/-- `ResolvedSandbox::resolve`, from the canonical path of each filesystem rule. -/
def ResolvedSandbox.resolve (host : HostSystem) (tree : Tree) (rules : ResolvedSandbox)
    (policy : SandboxPolicy) (program workingDirectory home : OsString) :
    Except ResolveError (Resolved tree) :=
  match host.canonicalize workingDirectory with
  | none => .error .workingDirectory
  | some directory =>
    match host.locateProgram program directory with
    | none =>
      .error (.notFound ("sandbox cannot find program ".toList ++ Text.fromUtf8Lossy program))
    | some found => .ok (.resolve tree { rules with
        executables := policy.executables.map fun executables =>
          host.resolveExecutables executables.chosen executables.allow found home
            (host.bytes directory)
        workingDirectory := directory
        program := found })

section

variable {host : HostSystem} {tree : Tree} {rules : ResolvedSandbox} {policy : SandboxPolicy}
  {program workingDirectory home : OsString} {directory found : Path} {resolved : Resolved tree}

theorem ResolvedSandbox.resolve_ok (hdirectory : host.canonicalize workingDirectory = some directory)
    (hfound : host.locateProgram program directory = some found) :
    resolve host tree rules policy program workingDirectory home = .ok
      (Resolved.resolve tree { rules with
        executables := policy.executables.map fun executables =>
          host.resolveExecutables executables.chosen executables.allow found home (host.bytes directory)
        workingDirectory := directory
        program := found }) := by
  simp only [resolve, hdirectory, hfound]

/-- What a policy resolves to allows the program to run, where it restricts execution at all. -/
theorem ResolvedSandbox.resolve_executables
    (h : resolve host tree rules policy program workingDirectory home = .ok resolved) :
    (resolved.executables = none ↔ policy.executables = none) ∧
      ∀ executables, resolved.executables = some executables → resolved.program ∈ executables := by
  cases hdirectory : host.canonicalize workingDirectory with
  | none => simp [resolve, hdirectory] at h
  | some directory =>
    cases hfound : host.locateProgram program directory with
    | none => simp [resolve, hdirectory, hfound] at h
    | some found =>
      rw [resolve_ok hdirectory hfound] at h
      obtain rfl := Except.ok.inj h
      refine ⟨Option.map_eq_none_iff, fun executables hsome => ?_⟩
      obtain ⟨-, -, rfl⟩ := Option.map_eq_some_iff.mp hsome
      exact HostSystem.program_mem_resolveExecutables _ _ _ _ _

end

end Sandbox

end Beez
