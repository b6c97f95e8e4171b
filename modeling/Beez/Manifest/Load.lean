import Beez.Core.Accepted
import Beez.Core.Lossless
import Beez.Manifest.Entries
import Beez.Policy.Written

/-! # Loading a workflow manifest

A manifest is read as text, parsed by its extension, and checked from the schedules over the sandbox
to the tasks. The parsers of YAML and JSON come from other crates. -/

open Beez.Core Beez.Lib

namespace Beez

/-- What stands after the last dot of a name. A name that starts with its only dot has none. -/
def extensionOf (name : List Char) : Option (List Char) :=
  match name.reverse.dropWhile (· != '.') with
  | [] | [_] => none
  | _ :: _ => some (name.reverse.takeWhile (· != '.')).reverse

/-- `path.extension()`. -/
def Path.extension (path : Path) : Option (List Char) :=
  path.getLast?.bind fun name => extensionOf name.toList

/-- `directory.join(file)`. An absolute file replaces the directory. -/
def Text.join (directory file : Text) : Text :=
  if file.head? = some '/' then file
  else if directory = [] ∨ directory.getLast? = some '/' then directory ++ file
  else directory ++ '/' :: file

namespace Core

variable [RustDebug]

def TaskIdError.display : TaskIdError → Text
  | .empty => "task ID must not be empty".toList
  | .invalidCharacter character =>
    "task ID contains invalid character ".toList ++ RustDebug.char character

def TaskId.parse (value : Text) : Except Text TaskId :=
  (TaskId.fromStr value).mapError TaskIdError.display

end Core

/-! ## As it is written -/

/-- A task's `sandbox` field: `true`, `false`, or a policy table. -/
inductive WrittenSetting where
  | enabled (on : Bool)
  | policy (sandbox : ManifestSandbox)

def WrittenSetting.read [RustDebug] : WrittenSetting → SandboxSetting
  | .enabled on => .enabled on
  | .policy sandbox => .policy sandbox.read

structure ManifestTask where
  id : Text
  dependsOn : List Text
  harness : Option Text
  prompt : Option Text
  promptFile : Option Text
  model : Option Text
  effort : Option Text
  command : Option (List Text)
  sandbox : Option WrittenSetting

/-- A manifest as it is written. -/
structure ManifestDocument where
  schedule : Option ScheduleSetting
  sandbox : Option ManifestSandbox
  tasks : List ManifestTask

inductive ManifestError where
  | io (error : Text)
  | unsupportedFormat (path : Text)
  | invalid (error : Text)
  | promptFile (path error : Text)
deriving DecidableEq

def ManifestError.display : ManifestError → Text
  | .io error => error
  | .unsupportedFormat path => "workflow file ".toList ++ path ++
    " must use a .yaml, .yml, or .json extension".toList
  | .invalid error => error
  | .promptFile path error => "cannot read prompt file ".toList ++ path ++ ": ".toList ++ error

/-- The files of the host, and the parsers. -/
structure ManifestSource where
  readToString : Text → Except Text Text
  yaml : Text → Except Text ManifestDocument
  json : Text → Except Text ManifestDocument

/-! ## As it is loaded -/

def HarnessOptions.new (model effort : Option Text) : HarnessOptions :=
  ⟨model.map String.ofList, effort.map String.ofList⟩

def HarnessOptions.isEmpty (options : HarnessOptions) : Bool :=
  options.model.isNone && options.effort.isNone

namespace ManifestTask

/-- Moves the contents of `prompt_file`, relative to `directory`, into `prompt`. -/
def readPromptFile (readToString : Text → Except Text Text) (directory : Text) (task : ManifestTask) :
    Except ManifestError ManifestTask :=
  match task.promptFile with
  | none => .ok task
  | some file =>
    if task.prompt.isSome then
      .error (.invalid "task must define either prompt or prompt_file, not both".toList)
    else
      match readToString (directory.join file) with
      | .error error => .error (.promptFile (directory.join file) error)
      | .ok prompt => .ok { task with promptFile := none, prompt := some prompt }

def options (task : ManifestTask) : HarnessOptions := .new task.model task.effort

variable [RustDebug]

def request (task : ManifestTask) : Except Text TaskRequest :=
  match task.harness, task.prompt, task.command with
  | some harness, some prompt, none => do
    return .harness (← HeadlessHarness.parse harness) prompt task.options
  | none, none, some command =>
    if !task.options.isEmpty then .error "model and effort require a harness task".toList
    else
      match command with
      | [] => .error "command must contain a program".toList
      | program :: arguments => .ok (.command program arguments)
  | _, _, _ =>
    .error "task must define either harness with prompt or prompt_file, or command".toList

/-- Builds the task, with the sandbox resolved from the workflow and the task. -/
def intoDefinition (workflow : Option SandboxPolicy) (task : ManifestTask) :
    Except Text TaskDefinition := do
  let sandbox ← resolveSandbox workflow (task.sandbox.map WrittenSetting.read)
  let id ← TaskId.parse task.id
  let dependsOn ← parseAll TaskId.parse task.dependsOn
  let request ← task.request
  return ⟨id, dependsOn, request, sandbox⟩

/-- What `load` does with each task. -/
def definition (readToString : Text → Except Text Text) (directory : Text)
    (workflow : Option SandboxPolicy) (task : ManifestTask) : Except ManifestError TaskDefinition := do
  let task ← task.readPromptFile readToString directory
  (task.intoDefinition workflow).mapError .invalid

end ManifestTask

namespace ManifestDocument

variable [RustDebug]

/-- `SandboxPolicy::try_from` for the table of the workflow, if it has one. -/
def workflowSandbox (document : ManifestDocument) : Except ManifestError (Option SandboxPolicy) :=
  (readSection (fun sandbox : ManifestSandbox => sandbox.applyTo .default) document.sandbox).mapError
    .invalid

def definitions (readToString : Text → Except Text Text) (directory : Text)
    (document : ManifestDocument) : Except ManifestError (List TaskDefinition) := do
  let workflow ← document.workflowSandbox
  document.tasks.mapM (ManifestTask.definition readToString directory workflow)

/-- `load` once the schedules are read. -/
def assemble (readToString : Text → Except Text Text) (directory : Text)
    (schedules : List JobSchedule) (document : ManifestDocument) : Except ManifestError Manifest :=
  match h : resolve (schedules.map .ok) with
  | .error error => .error (.invalid error)
  | .ok schedules => do
    let definitions ← document.definitions readToString directory
    match Workflow.tryFrom definitions with
    | .error error => .error (.invalid error.display)
    | .ok workflow => .ok ⟨workflow, schedules, resolve_namedApart h⟩

variable [CronCrate] [ChronoCrate]

def readSchedules (build : Build) (document : ManifestDocument) :
    ExceptT ManifestError Option (List JobSchedule) :=
  ((ScheduleSetting.entries document.schedule).mapM (JobSchedule.tryFrom build)).adapt .invalid

/-- `load` once the file is parsed. -/
def manifest (build : Build) (readToString : Text → Except Text Text) (directory : Text)
    (document : ManifestDocument) : ExceptT ManifestError Option Manifest := do
  let schedules ← document.readSchedules build
  returned (document.assemble readToString directory schedules)

end ManifestDocument

/-- The parser that the extension of `path` selects. -/
def ManifestSource.parse (source : ManifestSource) (path : Path) (text : Text) :
    Except ManifestError ManifestDocument :=
  match path.extension with
  | some extension =>
    if extension = "yaml".toList ∨ extension = "yml".toList then (source.yaml text).mapError .invalid
    else if extension = "json".toList then (source.json text).mapError .invalid
    else .error (.unsupportedFormat path.display)
  | none => .error (.unsupportedFormat path.display)

/-- The text of the directory of `path`. -/
def Path.directory (path : Path) : Text := if path = [] then [] else Path.display path.dropLast

/-- Loads and validates a workflow manifest. Nothing stands for a panic. -/
def Manifest.load [RustDebug] [CronCrate] [ChronoCrate] (build : Build) (source : ManifestSource)
    (path : Path) : ExceptT ManifestError Option Manifest := do
  let text ← returned ((source.readToString path.display).mapError .io)
  let document ← returned (source.parse path text)
  document.manifest build source.readToString path.directory

/-! ## What a task describes -/

/-- The prompt that a task has once its prompt file is read. -/
inductive Fills (readToString : Text → Except Text Text) (directory : Text) (task : ManifestTask) :
    Option Text → Prop where
  | own (noFile : task.promptFile = none) : Fills readToString directory task task.prompt
  | file {file prompt : Text} (named : task.promptFile = some file) (noPrompt : task.prompt = none)
    (read : readToString (directory.join file) = .ok prompt) :
    Fills readToString directory task (some prompt)

/-- The request that a task with this prompt makes. -/
inductive Asks (task : ManifestTask) : Option Text → TaskRequest → Prop where
  | harness {harness : HeadlessHarness} {prompt : Text}
    (named : task.harness = some harness.name.toList) (noCommand : task.command = none) :
    Asks task (some prompt) (.harness harness prompt (.new task.model task.effort))
  | command {program : Text} {arguments : List Text} (given : task.command = some (program :: arguments))
    (noHarness : task.harness = none) (noModel : task.model = none) (noEffort : task.effort = none) :
    Asks task none (.command program arguments)

/-- The sandbox of a task over the one of its workflow. Only `false` takes it away. -/
inductive Sandboxes [RustDebug] (workflow : Option SandboxPolicy) :
    Option WrittenSetting → Option SandboxPolicy → Prop where
  | unset : Sandboxes workflow none (some (workflow.getD .default))
  | on : Sandboxes workflow (some (.enabled true)) (some (workflow.getD .default))
  | off : Sandboxes workflow (some (.enabled false)) none
  | table {sandbox : ManifestSandbox} {sections : Sections} (read : sandbox.read = .ok sections) :
    Sandboxes workflow (some (.policy sandbox)) (some (sections.applyTo (workflow.getD .default)))

section

variable [RustDebug] {readToString : Text → Except Text Text} {directory : Text}
  {workflow : Option SandboxPolicy} {task : ManifestTask}

/-- What a task has to be, and the definition it gives. -/
structure Describes (readToString : Text → Except Text Text) (directory : Text)
    (workflow : Option SandboxPolicy) (task : ManifestTask) (definition : TaskDefinition) : Prop where
  id : definition.id.text = task.id
  dependsOn : definition.dependsOn.map (·.text) = task.dependsOn
  request : ∃ prompt, Fills readToString directory task prompt ∧ Asks task prompt definition.request
  sandbox : Sandboxes workflow task.sandbox definition.sandbox

theorem TaskId.parse_eq_ok {value : Text} {id : TaskId} :
    TaskId.parse value = .ok id ↔ id.text = value := by
  unfold TaskId.parse
  rw [mapError_eq_ok]
  constructor
  · exact Template.text_of_fromStr
  · rintro rfl
    exact Template.fromStr_text id

theorem parseAll_ids {values : List Text} {ids : List TaskId} :
    parseAll TaskId.parse values = .ok ids ↔ ids.map (·.text) = values := by
  unfold parseAll
  constructor
  · intro h
    have each := mapM_eq_ok h
    clear h
    induction each with
    | nil => rfl
    | cons first _ ih => rw [List.map_cons, ih, TaskId.parse_eq_ok.mp first]
  · rintro rfl
    exact mapM_map_eq_ok fun id _ => TaskId.parse_eq_ok.mpr rfl

omit [RustDebug] in
theorem readPromptFile_eq_ok {filled : ManifestTask} :
    task.readPromptFile readToString directory = .ok filled ↔
      ∃ prompt, Fills readToString directory task prompt ∧
        filled = { task with promptFile := none, prompt } := by
  unfold ManifestTask.readPromptFile
  constructor
  · intro h
    split at h
    · next noFile =>
      cases h
      exact ⟨_, .own noFile, by rw [← noFile]⟩
    · next file named =>
      split at h
      · cases h
      · next noPrompt =>
        split at h
        · cases h
        · next prompt read =>
          cases h
          exact ⟨_, .file named (Option.not_isSome_iff_eq_none.mp noPrompt) read, rfl⟩
  · rintro ⟨prompt, fills, rfl⟩
    cases fills with
    | own noFile =>
      rw [noFile]
      dsimp only
      rw [← noFile]
    | file named noPrompt read => simp [named, noPrompt, read]

theorem request_eq_ok {request : TaskRequest} :
    task.request = .ok request ↔ Asks task task.prompt request := by
  unfold ManifestTask.request ManifestTask.options
  constructor
  · intro h
    split at h
    · next harness prompt named given noCommand =>
      simp only [bind_eq_ok, pure_eq_ok] at h
      obtain ⟨found, hfound, rfl⟩ := h
      rw [given]
      obtain rfl := (parseName_eq_ok _ _).mp hfound
      exact .harness named noCommand
    · next command noHarness noPrompt given =>
      rw [noPrompt]
      split at h
      · cases h
      · next empty =>
        split at h
        · cases h
        · cases h
          simp [HarnessOptions.isEmpty, HarnessOptions.new] at empty
          exact .command given noHarness empty.1 empty.2
    · cases h
  · intro asks
    generalize hprompt : task.prompt = prompt at asks
    cases asks with
    | @harness harness _ named noCommand =>
      rw [named, noCommand]
      have read : HeadlessHarness.parse harness.name.toList = .ok harness :=
        parseName_name HeadlessHarness.table _ harness
      dsimp only
      rw [read]
      rfl
    | command given noHarness noModel noEffort =>
      rw [given, noHarness]
      simp [HarnessOptions.isEmpty, HarnessOptions.new, noModel, noEffort]

theorem sandboxes_iff {setting : Option WrittenSetting} {sandbox : Option SandboxPolicy} :
    resolveSandbox workflow (setting.map WrittenSetting.read) = .ok sandbox ↔
      Sandboxes workflow setting sandbox := by
  constructor
  · intro h
    match setting with
    | none =>
      cases h
      exact .unset
    | some (.enabled true) =>
      cases h
      exact .on
    | some (.enabled false) =>
      cases h
      exact .off
    | some (.policy table) =>
      cases hread : table.read with
      | error error => simp [WrittenSetting.read, resolveSandbox, hread] at h
      | ok sections =>
        simp only [Option.map_some, WrittenSetting.read, resolveSandbox, hread] at h
        cases h
        exact .table hread
  · rintro (_ | _ | _ | read)
    · rfl
    · rfl
    · rfl
    · simp [WrittenSetting.read, resolveSandbox, read]

/-- A task is accepted for the definition that it describes, and for no other reason. -/
theorem ManifestTask.definition_eq_ok {definition : TaskDefinition} :
    task.definition readToString directory workflow = .ok definition ↔
      Describes readToString directory workflow task definition := by
  unfold ManifestTask.definition ManifestTask.intoDefinition
  simp only [bind_eq_ok, mapError_eq_ok, pure_eq_ok, readPromptFile_eq_ok]
  constructor
  · rintro ⟨_, ⟨prompt, fills, rfl⟩, sandbox, hsandbox, id, hid, ids, hids, request, hrequest, rfl⟩
    refine ⟨TaskId.parse_eq_ok.mp hid, parseAll_ids.mp hids, ⟨prompt, fills, ?_⟩, sandboxes_iff.mp hsandbox⟩
    cases request_eq_ok.mp hrequest with
    | harness named noCommand => exact .harness named noCommand
    | command given noHarness noModel noEffort => exact .command given noHarness noModel noEffort
  · rintro ⟨hid, hids, ⟨prompt, fills, asks⟩, hsandbox⟩
    refine ⟨_, ⟨prompt, fills, rfl⟩, _, sandboxes_iff.mpr hsandbox, _, TaskId.parse_eq_ok.mpr hid, _,
      parseAll_ids.mpr hids, _, request_eq_ok.mpr ?_, rfl⟩
    generalize definition.request = request at asks
    cases asks with
    | harness named noCommand => exact .harness named noCommand
    | command given noHarness noModel noEffort => exact .command given noHarness noModel noEffort

/-! ## What a manifest describes -/

/-- The policy of the workflow, if it writes one. -/
inductive WorkflowSandbox : Option ManifestSandbox → Option SandboxPolicy → Prop where
  | unset : WorkflowSandbox none none
  | table {sandbox : ManifestSandbox} {sections : Sections} (read : sandbox.read = .ok sections) :
    WorkflowSandbox (some sandbox) (some (sections.applyTo .default))

omit [RustDebug] in
/-- The file at `path` is read and parsed as its extension says. -/
inductive ManifestSource.Holds (source : ManifestSource) (path : Path) (document : ManifestDocument) :
    Prop where
  | yaml {text : Text} (read : source.readToString path.display = .ok text)
    (extension : path.extension = some "yaml".toList ∨ path.extension = some "yml".toList)
    (parsed : source.yaml text = .ok document)
  | json {text : Text} (read : source.readToString path.display = .ok text)
    (extension : path.extension = some "json".toList) (parsed : source.json text = .ok document)

/-- What is written at `path`, and the schedules and the definitions that it describes. -/
structure Written [CronCrate] [ChronoCrate] (build : Build) (source : ManifestSource) (path : Path)
    (document : ManifestDocument) (schedules : List JobSchedule) (workflow : Option SandboxPolicy)
    (definitions : List TaskDefinition) : Prop where
  holds : source.Holds path document
  entries : List.Forall₂ (ScheduleFields.Gives build) (ScheduleSetting.entries document.schedule)
    schedules
  apart : NamedApart schedules
  sandbox : WorkflowSandbox document.sandbox workflow
  tasks : List.Forall₂ (Describes source.readToString path.directory workflow) document.tasks definitions
  accepted : Accepted definitions

theorem workflowSandbox_eq_ok {document : ManifestDocument} :
    document.workflowSandbox = .ok workflow ↔ WorkflowSandbox document.sandbox workflow := by
  unfold ManifestDocument.workflowSandbox
  rw [mapError_eq_ok]
  constructor
  · intro h
    match hsandbox : document.sandbox with
    | none =>
      rw [hsandbox] at h
      cases h
      exact .unset
    | some table =>
      cases hread : table.read with
      | error error =>
        rw [hsandbox, readSection, ManifestSandbox.applyTo, hread] at h
        cases h
      | ok sections =>
        rw [hsandbox, readSection, ManifestSandbox.applyTo, hread] at h
        cases h
        exact .table hread
  · intro h
    generalize document.sandbox = written at h
    cases h with
    | unset => rfl
    | table read =>
      rw [readSection, ManifestSandbox.applyTo, read]
      rfl

omit [RustDebug] in
theorem parse_eq_ok {source : ManifestSource} {path : Path} {text : Text} {document : ManifestDocument} :
    source.parse path text = .ok document ↔
      (path.extension = some "yaml".toList ∨ path.extension = some "yml".toList) ∧
        source.yaml text = .ok document ∨
      path.extension = some "json".toList ∧ source.json text = .ok document := by
  unfold ManifestSource.parse
  cases path.extension with
  | none => simp
  | some extension =>
    dsimp only
    simp only [Option.some.injEq]
    split
    · next yaml =>
      rw [mapError_eq_ok]
      have other : extension ≠ "json".toList := by
        rintro rfl
        revert yaml
        decide
      simp only [yaml, other, true_and, false_and, or_false]
    · next yaml =>
      split
      · next json =>
        simp only [eq_false yaml, eq_true json, mapError_eq_ok, true_and, false_and, false_or]
      · next json => simp only [eq_false yaml, eq_false json, reduceCtorEq, false_and, or_false]

omit [RustDebug] in
theorem holds_iff {source : ManifestSource} {path : Path} {document : ManifestDocument} :
    source.Holds path document ↔ ∃ text, source.readToString path.display = .ok text ∧
      source.parse path text = .ok document := by
  constructor
  · rintro (⟨read, extension, parsed⟩ | ⟨read, extension, parsed⟩)
    · exact ⟨_, read, parse_eq_ok.mpr (.inl ⟨extension, parsed⟩)⟩
    · exact ⟨_, read, parse_eq_ok.mpr (.inr ⟨extension, parsed⟩)⟩
  · rintro ⟨text, read, parsed⟩
    rcases parse_eq_ok.mp parsed with ⟨extension, parsed⟩ | ⟨extension, parsed⟩
    · exact .yaml read extension parsed
    · exact .json read extension parsed

theorem definitions_eq_ok {document : ManifestDocument} {definitions : List TaskDefinition} :
    document.definitions readToString directory = .ok definitions ↔
      ∃ workflow, WorkflowSandbox document.sandbox workflow ∧
        List.Forall₂ (Describes readToString directory workflow) document.tasks definitions := by
  unfold ManifestDocument.definitions
  simp only [bind_eq_ok, workflowSandbox_eq_ok]
  refine exists_congr fun workflow => and_congr_right fun _ => ⟨fun h => ?_, fun h => ?_⟩
  · exact (mapM_eq_ok h).imp fun _ _ => ManifestTask.definition_eq_ok.mp
  · exact mapM_of_forall₂ (h.imp fun _ _ => ManifestTask.definition_eq_ok.mpr)

omit [RustDebug] in
theorem repeatedName_of_nodup {seen : List Text} {schedules : List JobSchedule}
    (apart : (schedules.filterMap (·.name)).Nodup)
    (fresh : ∀ name ∈ schedules.filterMap (·.name), name ∉ seen) :
    repeatedName seen schedules = none := by
  induction schedules generalizing seen with
  | nil => rfl
  | cons schedule rest ih =>
    unfold repeatedName
    cases hname : schedule.name with
    | none =>
      simp only [List.filterMap_cons, hname] at apart fresh
      exact ih apart fresh
    | some name =>
      simp only [List.filterMap_cons, hname, List.nodup_cons, List.forall_mem_cons] at apart fresh
      dsimp only
      rw [if_neg fresh.1]
      refine ih apart.2 fun other hother => ?_
      rw [List.mem_cons, not_or]
      exact ⟨fun same => apart.1 (same ▸ hother), fresh.2 other hother⟩

omit [RustDebug] in
/-- Schedules that are told apart are kept as they are, and no others are. -/
theorem resolve_eq_ok {read schedules : List JobSchedule} :
    resolve (read.map .ok) = .ok schedules ↔ schedules = read ∧ NamedApart read := by
  have every : (read.map (.ok : JobSchedule → Except Text JobSchedule)).mapM id = .ok read :=
    mapM_map_eq_ok fun _ _ => rfl
  constructor
  · intro h
    have apart := resolve_namedApart h
    unfold resolve at h
    obtain ⟨found, hfound, h⟩ := bind_eq_ok.mp h
    split at h
    · cases h
    split at h
    · cases h
    obtain rfl := pure_eq_ok.mp h
    obtain rfl := Except.ok.inj (hfound.symm.trans every)
    exact ⟨rfl, apart⟩
  · rintro ⟨rfl, named, distinct⟩
    have whole : ¬(1 < schedules.length ∧ schedules.any (·.name.isNone) = true) := by
      rintro ⟨many, unnamed⟩
      obtain ⟨schedule, hmem, hnone⟩ := List.any_eq_true.mp unnamed
      exact named many schedule hmem (Option.isNone_iff_eq_none.mp hnone)
    unfold resolve
    rw [every]
    show (if _ then _ else _) = _
    rw [if_neg whole, repeatedName_of_nodup distinct (by simp)]
    rfl

omit [RustDebug] in
theorem tryFrom_resolves {definitions : List TaskDefinition} {workflow : Workflow}
    (h : Workflow.tryFrom definitions = .ok workflow) :
    Accepted definitions ∧ List.Forall₂ (Resolves definitions) definitions workflow.tasks := by
  obtain ⟨indexes, dependencies, reads, resolved⟩ :=
    resolveTasks_resolved (Workflow.tryFrom_ok_iff.mp h)
  refine ⟨resolved.accepted, ?_⟩
  rw [List.forall₂_iff_get]
  refine ⟨resolved.length.symm, fun i hdefinition htask => ?_⟩
  exact resolved.resolves (List.getElem?_eq_getElem hdefinition) (List.getElem?_eq_getElem htask)

/-- The manifest that the document makes, once it is accepted. -/
theorem assemble_written {document : ManifestDocument} {schedules : List JobSchedule}
    {manifest : Manifest}
    (h : document.assemble readToString directory schedules = .ok manifest) :
    manifest.schedules = schedules ∧ NamedApart schedules ∧
      ∃ workflow definitions, WorkflowSandbox document.sandbox workflow ∧
        List.Forall₂ (Describes readToString directory workflow) document.tasks definitions ∧
        Accepted definitions ∧ List.Forall₂ (Resolves definitions) definitions manifest.workflow.tasks := by
  unfold ManifestDocument.assemble at h
  split at h
  · cases h
  next resolved hschedules =>
    obtain ⟨definitions, hdefinitions, h⟩ := bind_eq_ok.mp h
    obtain ⟨workflow, sandbox, described⟩ := definitions_eq_ok.mp hdefinitions
    split at h
    · cases h
    next built hbuilt =>
      obtain rfl := Except.ok.inj h
      obtain ⟨accepted, resolves⟩ := tryFrom_resolves hbuilt
      obtain ⟨same, apart⟩ := resolve_eq_ok.mp hschedules
      exact ⟨same, apart, workflow, definitions, sandbox, described, accepted, resolves⟩

theorem assemble_isOk {document : ManifestDocument} {schedules : List JobSchedule}
    {definitions : List TaskDefinition} (apart : NamedApart schedules)
    (hdefinitions : document.definitions readToString directory = .ok definitions)
    (accepted : Accepted definitions) :
    ∃ manifest, document.assemble readToString directory schedules = .ok manifest := by
  obtain ⟨tasks, htasks⟩ := accepted.resolveTasks_isOk
  have built : Workflow.tryFrom definitions = .ok ⟨tasks, resolveTasks_wellFormed htasks⟩ :=
    Workflow.tryFrom_ok_iff.mpr htasks
  unfold ManifestDocument.assemble
  split
  · next error failed =>
    rw [resolve_eq_ok.mpr ⟨rfl, apart⟩] at failed
    cases failed
  · rw [hdefinitions]
    dsimp only [bind, Except.bind]
    split
    · next error failed =>
      rw [built] at failed
      cases failed
    · exact ⟨_, rfl⟩

section

variable [CronCrate] [ChronoCrate] {build : Build}

omit [RustDebug] in
theorem readSchedules_eq_ok {document : ManifestDocument} {schedules : List JobSchedule} :
    (document.readSchedules build).run = some (.ok schedules) ↔
      List.Forall₂ (ScheduleFields.Gives build) (ScheduleSetting.entries document.schedule)
        schedules := by
  unfold ManifestDocument.readSchedules
  rw [run_adapt_eq_ok, run_mapM_eq_ok]
  simp only [JobSchedule.tryFrom_eq_ok]

/-- Loading returns a manifest where each step returns what the next one reads. -/
theorem load_eq_ok {source : ManifestSource} {path : Path} {manifest : Manifest} :
    (Manifest.load build source path).run = some (.ok manifest) ↔
      ∃ document schedules, source.Holds path document ∧
        List.Forall₂ (ScheduleFields.Gives build) (ScheduleSetting.entries document.schedule)
          schedules ∧
        document.assemble source.readToString path.directory schedules = .ok manifest := by
  unfold Manifest.load ManifestDocument.manifest
  simp only [run_bind_eq_ok, run_returned, Option.some.injEq, mapError_eq_ok, readSchedules_eq_ok,
    holds_iff]
  constructor
  · rintro ⟨text, read, document, parsed, schedules, entries, h⟩
    exact ⟨document, schedules, ⟨text, read, parsed⟩, entries, h⟩
  · rintro ⟨document, schedules, ⟨text, read, parsed⟩, entries, h⟩
    exact ⟨text, read, document, parsed, schedules, entries, h⟩

theorem load_written {source : ManifestSource} {path : Path} {manifest : Manifest}
    (h : (Manifest.load build source path).run = some (.ok manifest)) :
    ∃ document workflow definitions,
      Written build source path document manifest.schedules workflow definitions ∧
      List.Forall₂ (Resolves definitions) definitions manifest.workflow.tasks := by
  obtain ⟨document, schedules, holds, entries, h⟩ := load_eq_ok.mp h
  obtain ⟨rfl, apart, workflow, definitions, sandbox, described, accepted, resolves⟩ :=
    assemble_written h
  exact ⟨document, workflow, definitions, ⟨holds, entries, apart, sandbox, described, accepted⟩,
    resolves⟩

/-- A load panics only where the seconds of an offset overflow in a build that checks. -/
theorem load_panics {source : ManifestSource} {path : Path}
    (h : (Manifest.load build source path).run = none) : build = .checked ∧
      ∃ document, source.Holds path document ∧
        ∃ fields ∈ ScheduleSetting.entries document.schedule, ∃ value,
          fields.offset = some value ∧ UtcOffset.fromStr .checked value = none := by
  unfold Manifest.load ManifestDocument.manifest ManifestDocument.readSchedules at h
  simp only [run_bind_eq_none, run_returned, reduceCtorEq, false_or, and_false, exists_false,
    or_false, Option.some.injEq, mapError_eq_ok, run_adapt_eq_none] at h
  obtain ⟨text, read, document, parsed, h⟩ := h
  obtain ⟨fields, hmem, hpanic⟩ := run_mapM_eq_none h
  obtain ⟨rfl, value, hvalue, hnone⟩ := JobSchedule.tryFrom_panics hpanic
  exact ⟨rfl, document, holds_iff.mpr ⟨text, read, parsed⟩, fields, hmem, value, hvalue, hnone⟩

/-- Which files load: those that a parser reads, whose entries each describe a schedule and are told
apart, whose tables and tasks each describe something, and whose tasks make a workflow. The
manifest that is loaded has the schedules and the tasks that are written, each in its place. -/
theorem load_accepts (build : Build) (source : ManifestSource) (path : Path) :
    ((∃ manifest, (Manifest.load build source path).run = some (.ok manifest)) ↔
      ∃ document schedules workflow definitions,
        Written build source path document schedules workflow definitions) ∧
    ∀ manifest, (Manifest.load build source path).run = some (.ok manifest) →
      ∃ document workflow definitions,
        Written build source path document manifest.schedules workflow definitions ∧
        List.Forall₂ (Resolves definitions) definitions manifest.workflow.tasks := by
  refine ⟨⟨?_, ?_⟩, fun manifest h => load_written h⟩
  · rintro ⟨manifest, h⟩
    obtain ⟨document, workflow, definitions, whole, -⟩ := load_written h
    exact ⟨document, manifest.schedules, workflow, definitions, whole⟩
  · rintro ⟨document, schedules, workflow, definitions, holds, entries, apart, sandbox, described,
      accepted⟩
    obtain ⟨manifest, h⟩ := assemble_isOk apart
      (definitions_eq_ok.mpr ⟨workflow, sandbox, described⟩) accepted
    exact ⟨manifest, load_eq_ok.mpr ⟨document, schedules, holds, entries, h⟩⟩

end

end

end Beez
