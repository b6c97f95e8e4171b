import Beez.Lib.Merge
import Beez.Policy.Groups
import Beez.Sandbox.Executables

/-! # The policy of a workflow, with the sections of a task over it -/

open Beez.Lib

namespace Beez

/-! ## Groups -/

namespace GroupSelection

variable {G : Type} [DecidableEq G]

def merge (selection other : GroupSelection G) : GroupSelection G where
  defaults := other.defaults.or selection.defaults
  groups := extend selection.groups other.groups
  disable := extend selection.disable other.disable

instance : Std.Associative (merge : GroupSelection G → GroupSelection G → GroupSelection G) where
  assoc first second third := by
    simp only [merge, Std.Associative.assoc]

instance : Std.IdempotentOp (merge : GroupSelection G → GroupSelection G → GroupSelection G) where
  idempotent selection := by
    simp only [merge, Std.IdempotentOp.idempotent]

end GroupSelection

/-! ## The sections -/

/-- One thing that a section names. -/
inductive PolicyEntry where
  | domainGroup (group : DomainGroup)
  | host (rule : DomainRule)
  | readDeny (path : SandboxPath)
  | writeAllow (path : SandboxPath)
  | writeDeny (path : SandboxPath)
  | executableGroup (group : ExecutableGroup)
  | executable (path : SandboxPath)
deriving DecidableEq, Repr

namespace NetworkPolicy

def merge (policy other : NetworkPolicy) : NetworkPolicy where
  groups := policy.groups.merge other.groups
  allow := extend policy.allow other.allow
  localhost := other.localhost.or policy.localhost

/-- Every host rule the policy grants for a harness. -/
def allowedDomains (policy : NetworkPolicy) (profile : Option HarnessProfile) : List DomainRule :=
  let defaults := profile.elim [] HarnessProfile.defaultDomainGroups
  let groups := policy.groups.selected DomainGroup.all defaults
  -- A harness reaches no provider at all without its required groups.
  let groups := DomainGroup.all.filter fun group =>
    groups.contains group || profile.any fun profile => profile.requiredDomainGroups.contains group
  groups.flatMap DomainGroup.rules ++ policy.allow

def Names (policy : NetworkPolicy) : PolicyEntry → Prop
  | .domainGroup group => group ∈ policy.groups.groups
  | .host rule => rule ∈ policy.allow
  | _ => False

instance : Std.Associative merge where
  assoc first second third := by
    simp only [merge, Std.Associative.assoc]

instance : Std.IdempotentOp merge where
  idempotent policy := by
    simp only [merge, Std.IdempotentOp.idempotent]

theorem names_merge (entry : PolicyEntry) (policy other : NetworkPolicy) :
    (policy.merge other).Names entry ↔ policy.Names entry ∨ other.Names entry := by
  cases entry <;> simp [Names, merge, GroupSelection.merge]

end NetworkPolicy

namespace FilesystemPolicy

def defaultReadDenyGroups : List PathGroup := [.keys, .cloud, .logins, .tokens, .history, .secrets]

def defaultWriteAllowGroups : List PathGroup := [.workspace]

/-- Files a run could use to execute code outside the sandbox later, and the artifacts of the run
itself. -/
def defaultWriteDenyGroups : List PathGroup :=
  [.git, .ci, .editor, .toolchain, .harness, .artifacts]

def merge (policy other : FilesystemPolicy) : FilesystemPolicy where
  defaults := other.defaults.or policy.defaults
  readDeny := extend policy.readDeny other.readDeny
  writeAllow := extend policy.writeAllow other.writeAllow
  writeDeny := extend policy.writeDeny other.writeDeny

/-- `filesystem.defaults()`. -/
def hasDefaults (policy : FilesystemPolicy) : Bool := policy.defaults.getD true

def withDefaults (policy : FilesystemPolicy) (groups : List PathGroup) (own : List SandboxPath) :
    List SandboxPath :=
  (if policy.hasDefaults then groups else []).flatMap PathGroup.sandboxPaths ++ own

/-- `filesystem.read_deny()`. -/
def readDenyPaths (policy : FilesystemPolicy) : List SandboxPath :=
  policy.withDefaults defaultReadDenyGroups policy.readDeny

/-- `filesystem.write_allow(profile)`, including the harness's own state. -/
def writeAllowPaths (policy : FilesystemPolicy) (profile : Option HarnessProfile) :
    List SandboxPath :=
  policy.withDefaults defaultWriteAllowGroups policy.writeAllow ++
    profile.elim [] HarnessProfile.statePaths

/-- `filesystem.write_deny()`. -/
def writeDenyPaths (policy : FilesystemPolicy) : List SandboxPath :=
  policy.withDefaults defaultWriteDenyGroups policy.writeDeny

def Names (policy : FilesystemPolicy) : PolicyEntry → Prop
  | .readDeny path => path ∈ policy.readDeny
  | .writeAllow path => path ∈ policy.writeAllow
  | .writeDeny path => path ∈ policy.writeDeny
  | _ => False

instance : Std.Associative merge where
  assoc first second third := by
    simp only [merge, Std.Associative.assoc]

instance : Std.IdempotentOp merge where
  idempotent policy := by
    simp only [merge, Std.IdempotentOp.idempotent]

theorem names_merge (entry : PolicyEntry) (policy other : FilesystemPolicy) :
    (policy.merge other).Names entry ↔ policy.Names entry ∨ other.Names entry := by
  cases entry <;> simp [Names, merge]

end FilesystemPolicy

namespace ExecutablePolicy

def merge (policy other : ExecutablePolicy) : ExecutablePolicy where
  groups := policy.groups.merge other.groups
  allow := extend policy.allow other.allow

def Names (policy : ExecutablePolicy) : PolicyEntry → Prop
  | .executableGroup group => group ∈ policy.groups.groups
  | .executable path => path ∈ policy.allow
  | _ => False

instance : Std.Associative merge where
  assoc first second third := by
    simp only [merge, Std.Associative.assoc]

instance : Std.IdempotentOp merge where
  idempotent policy := by
    simp only [merge, Std.IdempotentOp.idempotent]

theorem names_merge (entry : PolicyEntry) (policy other : ExecutablePolicy) :
    (policy.merge other).Names entry ↔ policy.Names entry ∨ other.Names entry := by
  cases entry <;> simp [Names, merge, GroupSelection.merge]

end ExecutablePolicy

/-! ## The whole policy -/

/-- The sections that a task's table defines, read. -/
structure Sections where
  network : Option NetworkPolicy
  filesystem : Option FilesystemPolicy
  executables : Option ExecutablePolicy
deriving DecidableEq, Repr

/-- Adds each section the other policy defines to this policy. -/
def SandboxPolicy.merge (policy : SandboxPolicy) (network : Option NetworkPolicy)
    (filesystem : Option FilesystemPolicy) (executables : Option ExecutablePolicy) :
    SandboxPolicy where
  network := mergeSome NetworkPolicy.merge policy.network network
  filesystem := mergeSome FilesystemPolicy.merge policy.filesystem filesystem
  executables := match executables with
    | none => policy.executables
    | some executables => some (match policy.executables with
      | some base => base.merge executables
      | none => executables)

def SandboxPolicy.sections (policy : SandboxPolicy) : Sections where
  network := some policy.network
  filesystem := some policy.filesystem
  executables := policy.executables

namespace Sections

/-- Adds each section this table defines to `base`. -/
def applyTo (sections : Sections) (base : SandboxPolicy) : SandboxPolicy :=
  base.merge sections.network sections.filesystem sections.executables

def Names (sections : Sections) (entry : PolicyEntry) : Prop :=
  (∃ network ∈ sections.network, network.Names entry) ∨
    (∃ filesystem ∈ sections.filesystem, filesystem.Names entry) ∨
      ∃ executables ∈ sections.executables, executables.Names entry

variable (sections : Sections) (base : SandboxPolicy)

theorem applyTo_executables : (sections.applyTo base).executables =
    Option.merge ExecutablePolicy.merge base.executables sections.executables := by
  unfold applyTo SandboxPolicy.merge
  cases sections.executables with
  | none => cases base.executables <;> rfl
  | some executables => cases base.executables <;> rfl

theorem applyTo_eq : sections.applyTo base =
    { network := mergeSome NetworkPolicy.merge base.network sections.network
      filesystem := mergeSome FilesystemPolicy.merge base.filesystem sections.filesystem
      executables := Option.merge ExecutablePolicy.merge base.executables sections.executables } := by
  rw [← applyTo_executables]
  rfl

theorem applyTo_assoc (first second : SandboxPolicy) :
    sections.applyTo (second.sections.applyTo first) =
      (sections.applyTo second).sections.applyTo first := by
  simp only [applyTo_eq, SandboxPolicy.sections, mergeSome_assoc, merge_some,
    Std.Associative.assoc]

theorem applyTo_again : sections.applyTo (sections.applyTo base) = sections.applyTo base := by
  have executables : Option.merge ExecutablePolicy.merge sections.executables sections.executables =
      sections.executables := Std.IdempotentOp.idempotent _
  simp only [applyTo_eq, mergeSome_again, Std.Associative.assoc, executables]

theorem names_sections (entry : PolicyEntry) : base.sections.Names entry ↔
    base.network.Names entry ∨ base.filesystem.Names entry ∨
      ∃ executables ∈ base.executables, executables.Names entry := by
  simp [Names, SandboxPolicy.sections]

/-- A table over a policy names what either of them names. -/
theorem names_applyTo (entry : PolicyEntry) : (sections.applyTo base).sections.Names entry ↔
    base.sections.Names entry ∨ sections.Names entry := by
  have network : (sections.applyTo base).network.Names entry ↔
      base.network.Names entry ∨ ∃ network ∈ sections.network, network.Names entry :=
    mergeSome_iff (NetworkPolicy.Names · entry) (NetworkPolicy.names_merge entry) _ _
  have filesystem : (sections.applyTo base).filesystem.Names entry ↔
      base.filesystem.Names entry ∨
        ∃ filesystem ∈ sections.filesystem, filesystem.Names entry :=
    mergeSome_iff (FilesystemPolicy.Names · entry) (FilesystemPolicy.names_merge entry) _ _
  have executables := merge_iff (ExecutablePolicy.Names · entry) (ExecutablePolicy.names_merge entry)
    base.executables sections.executables
  rw [← applyTo_executables] at executables
  rw [names_sections, names_sections, network, filesystem, executables]
  exact (or_congr Iff.rfl or_or_or_comm).trans or_or_or_comm

end Sections

/-! ## What is named applies -/

/-- The policy grants or denies the entry to a program, run for the harness of `profile` if any. -/
def SandboxPolicy.Applies (policy : SandboxPolicy) (profile : Option HarnessProfile) :
    PolicyEntry → Prop
  | .domainGroup group => ∀ rule ∈ group.rules, rule ∈ policy.network.allowedDomains profile
  | .host rule => rule ∈ policy.network.allowedDomains profile
  | .readDeny path => path ∈ policy.filesystem.readDenyPaths
  | .writeAllow path => path ∈ policy.filesystem.writeAllowPaths profile
  | .writeDeny path => path ∈ policy.filesystem.writeDenyPaths
  | .executableGroup group => ∃ executables ∈ policy.executables, group ∈ executables.chosen
  | .executable path => ∃ executables ∈ policy.executables, path ∈ executables.allow

namespace NetworkPolicy

variable {policy : NetworkPolicy} {group : DomainGroup} {rule : DomainRule}

theorem mem_allowedDomains_of_allow (named : rule ∈ policy.allow)
    (profile : Option HarnessProfile) : rule ∈ policy.allowedDomains profile :=
  List.mem_append_right _ named

theorem mem_allowedDomains_of_group (named : group ∈ policy.groups.groups)
    (profile : Option HarnessProfile) (mem : rule ∈ group.rules) :
    rule ∈ policy.allowedDomains profile := by
  have chosen : group ∈ policy.groups.selected DomainGroup.all
      (profile.elim [] HarnessProfile.defaultDomainGroups) :=
    GroupSelection.mem_selected_of_named group.mem_all named
  refine List.mem_append_left _ (List.mem_flatMap.mpr ⟨group, ?_, mem⟩)
  rw [List.mem_filter]
  exact ⟨group.mem_all, by simp [chosen]⟩

end NetworkPolicy

theorem FilesystemPolicy.mem_withDefaults {own : List SandboxPath} {path : SandboxPath}
    (named : path ∈ own) (policy : FilesystemPolicy) (groups : List PathGroup) :
    path ∈ policy.withDefaults groups own :=
  List.mem_append_right _ named

/-- What a policy names applies, whatever the policy disables and whatever its defaults are. -/
theorem SandboxPolicy.applies_of_names {policy : SandboxPolicy} {entry : PolicyEntry}
    (named : policy.sections.Names entry) (profile : Option HarnessProfile) :
    policy.Applies profile entry := by
  rw [Sections.names_sections] at named
  rcases named with named | named | ⟨executables, some, named⟩
  · cases entry with
    | domainGroup group =>
      exact fun rule mem => NetworkPolicy.mem_allowedDomains_of_group named profile mem
    | host rule => exact NetworkPolicy.mem_allowedDomains_of_allow named profile
    | _ => exact named.elim
  · cases entry with
    | readDeny path => exact FilesystemPolicy.mem_withDefaults named _ _
    | writeAllow path =>
      exact List.mem_append_left _ (FilesystemPolicy.mem_withDefaults named _ _)
    | writeDeny path => exact FilesystemPolicy.mem_withDefaults named _ _
    | _ => exact named.elim
  · cases entry with
    | executableGroup group =>
      exact ⟨executables, some, GroupSelection.mem_selected_of_named group.mem_all named⟩
    | executable path => exact ⟨executables, some, named⟩
    | _ => exact named.elim

/-- Merging does not depend on the grouping, adds nothing the second time, and takes back nothing
that either side names. -/
theorem Sections.merge_keeps (task : Sections) (workflow : SandboxPolicy) :
    (∀ second : SandboxPolicy, task.applyTo (second.sections.applyTo workflow) =
      (task.applyTo second).sections.applyTo workflow) ∧
    task.applyTo (task.applyTo workflow) = task.applyTo workflow ∧
    ∀ entry, workflow.sections.Names entry ∨ task.Names entry →
      ∀ profile, (task.applyTo workflow).Applies profile entry := by
  refine ⟨task.applyTo_assoc workflow, task.applyTo_again workflow, fun entry named => ?_⟩
  exact SandboxPolicy.applies_of_names ((task.names_applyTo workflow entry).mpr named)

def cratesOnly : SandboxPolicy where
  network := ⟨⟨none, [.crates], []⟩, [], none⟩
  filesystem := ⟨none, [], [], []⟩
  executables := none

/-- A task that wants no default group, and disables the group of the workflow. -/
def noCrates : Sections := ⟨some ⟨⟨some false, [], [.crates]⟩, [], none⟩, none, none⟩

theorem Sections.merge_keeps_disabled : (noCrates.applyTo cratesOnly).Applies
    (some (HarnessProfile.forHarness .pi)) (.domainGroup .crates) :=
  (merge_keeps noCrates cratesOnly).2.2 _ (.inl (.inl ⟨_, rfl, List.mem_cons_self⟩)) _

/-! ## The policy of a task -/

/-- A task's `sandbox` field: `true`, `false`, or a policy table as it reads. -/
inductive SandboxSetting where
  | enabled (on : Bool)
  | policy (sections : Except Text Sections)

def SandboxPolicy.default : SandboxPolicy where
  network := ⟨⟨none, [], []⟩, [], none⟩
  filesystem := ⟨none, [], [], []⟩
  executables := none

/-- A task's sandbox from the workflow default and the task's own setting. It runs sandboxed unless
it sets `sandbox: false`. -/
def resolveSandbox (workflow : Option SandboxPolicy) (task : Option SandboxSetting) :
    Except Text (Option SandboxPolicy) :=
  let base := workflow.getD .default
  match task with
  | none | some (.enabled true) => .ok (some base)
  | some (.enabled false) => .ok none
  | some (.policy (.ok sections)) => .ok (some (sections.applyTo base))
  | some (.policy (.error error)) => .error error

/-- A task that runs sandboxed cannot take back what its workflow names. -/
theorem resolveSandbox_keeps {workflow policy : SandboxPolicy} {task : Option SandboxSetting}
    {entry : PolicyEntry} (h : resolveSandbox (some workflow) task = .ok (some policy))
    (named : workflow.sections.Names entry) (profile : Option HarnessProfile) :
    policy.Applies profile entry := by
  unfold resolveSandbox at h
  split at h
  · obtain rfl := Option.some.inj (Except.ok.inj h)
    exact SandboxPolicy.applies_of_names named profile
  · obtain rfl := Option.some.inj (Except.ok.inj h)
    exact SandboxPolicy.applies_of_names named profile
  · cases h
  · rename_i sections
    obtain rfl := Option.some.inj (Except.ok.inj h)
    exact SandboxPolicy.applies_of_names
      ((sections.names_applyTo workflow entry).mpr (.inl named)) profile
  · cases h

end Beez
