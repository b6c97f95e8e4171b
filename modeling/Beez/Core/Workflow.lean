import Beez.Core.Template
import Beez.Lib.Chain
import Beez.Lib.Fallible

/-! # Workflows and how they are validated -/

open Beez.Lib

namespace Beez.Core

/-- Reports invalid workflow dependencies. -/
inductive WorkflowError where
  | empty
  | duplicateTask (task : TaskId)
  | unknownDependency (task dependency : TaskId)
  | selfDependency (task : TaskId)
  | cycle (tasks : List TaskId)
  | invalidTemplate (task : TaskId) (error : TemplateError)
  | selfOutput (task : TaskId)
  | outputOfUnknownTask (task source : TaskId)
  | outputWithoutDependency (task source : TaskId)
deriving DecidableEq

def WorkflowError.display : WorkflowError → Text
  | .empty => "workflow must define at least one task".toList
  | .duplicateTask task => "duplicate task ID ".toList ++ task.text
  | .unknownDependency task dependency =>
    "task ".toList ++ task.text ++ " depends on unknown task ".toList ++ dependency.text
  | .selfDependency task => "task ".toList ++ task.text ++ " depends on itself".toList
  | .cycle tasks =>
    "workflow dependency cycle: ".toList ++ " -> ".toList.intercalate (tasks.map (·.text))
  | .invalidTemplate task error => "task ".toList ++ task.text ++ ": ".toList ++ error.display
  | .selfOutput task => "task ".toList ++ task.text ++ " reads its own output".toList
  | .outputOfUnknownTask task source =>
    "task ".toList ++ task.text ++ " reads the output of unknown task ".toList ++ source.text
  | .outputWithoutDependency task source =>
    "task ".toList ++ task.text ++ " reads the output of task ".toList ++ source.text ++
      ", so it must depend on it".toList

/-! ## What a valid list of tasks is -/

def idAt (tasks : List Task) (index : Nat) : Option TaskId := tasks[index]?.map (·.id)

def dependenciesAt (tasks : List Task) (index : Nat) : List Nat :=
  (tasks[index]?.map (·.dependencies)).getD []

/-- The invariant of `Workflow`. -/
structure WellFormed (tasks : List Task) : Prop where
  nonempty : tasks ≠ []
  ids : (tasks.map (·.id)).Nodup
  inRange : ∀ i, ∀ d ∈ dependenciesAt tasks i, d < tasks.length
  acyclic : Acyclic (dependenciesAt tasks)
  reads : ∀ task ∈ tasks, ∀ text ∈ task.request.texts, ∃ template,
    Template.parse text = .ok template ∧ ∀ reference ∈ template.references,
      ∃ i ∈ task.reads, i ∈ task.dependencies ∧ idAt tasks i = some reference.task

/-- A validated, acyclic collection of workflow tasks. -/
structure Workflow where
  tasks : List Task
  wellFormed : WellFormed tasks
deriving DecidableEq

namespace Workflow

def task (workflow : Workflow) (index : Nat) : Option Task := workflow.tasks[index]?

/-- The position of the task with `id`. -/
def indexOf (workflow : Workflow) (id : TaskId) : Option Nat :=
  workflow.tasks.findIdx? (·.id = id)

def dependencies (workflow : Workflow) : Nat → List Nat :=
  dependenciesAt workflow.tasks

end Workflow

/-! ## Names to positions -/

/-- The loop of `task_indexes`, which keeps its hash map as a lookup. -/
def indexFrom (position : Nat) (indexes : TaskId → Option Nat) :
    List TaskDefinition → Except WorkflowError (TaskId → Option Nat)
  | [] => .ok indexes
  | definition :: rest =>
    if (indexes definition.id).isSome then .error (.duplicateTask definition.id)
    else indexFrom (position + 1)
      (fun id => if id = definition.id then some position else indexes id) rest

def taskIndexes (definitions : List TaskDefinition) :
    Except WorkflowError (TaskId → Option Nat) :=
  indexFrom 0 (fun _ => none) definitions

def resolveDependencies (definition : TaskDefinition) (taskIndex : Nat)
    (indexes : TaskId → Option Nat) : Except WorkflowError (List Nat) :=
  definition.dependsOn.mapM fun dependencyId =>
    match indexes dependencyId with
    | none => .error (.unknownDependency definition.id dependencyId)
    | some dependency =>
      if dependency = taskIndex then .error (.selfDependency definition.id) else .ok dependency

/-- The predecessors of every task, in declaration order. -/
def resolveAllDependencies (definitions : List TaskDefinition)
    (indexes : TaskId → Option Nat) : Except WorkflowError (List (List Nat)) :=
  definitions.zipIdx.mapM fun (definition, position) =>
    resolveDependencies definition position indexes

/-! ## Output references -/

/-- One turn of the inner loop of `resolve_output_sources`. -/
def resolveReference (definition : TaskDefinition) (dependencies : List Nat)
    (indexes : TaskId → Option Nat) (sources : List Nat) (reference : OutputReference) :
    Except WorkflowError (List Nat) :=
  if reference.task = definition.id then .error (.selfOutput definition.id)
  else match indexes reference.task with
    | none => .error (.outputOfUnknownTask definition.id reference.task)
    | some index =>
      if index ∉ dependencies then .error (.outputWithoutDependency definition.id reference.task)
      else if index ∉ sources then .ok (sources ++ [index])
      else .ok sources

/-- One turn of the outer loop of `resolve_output_sources`. -/
def resolveText (definition : TaskDefinition) (dependencies : List Nat)
    (indexes : TaskId → Option Nat) (sources : List Nat) (text : Text) :
    Except WorkflowError (List Nat) :=
  match Template.parse text with
  | .error error => .error (.invalidTemplate definition.id error)
  | .ok template =>
    template.references.foldlM (resolveReference definition dependencies indexes) sources

/-- The distinct tasks whose output the request reads. -/
def resolveOutputSources (definition : TaskDefinition) (dependencies : List Nat)
    (indexes : TaskId → Option Nat) : Except WorkflowError (List Nat) :=
  definition.request.texts.foldlM (resolveText definition dependencies indexes) []

/-! ## Cycles -/

inductive Visit where
  | unseen | visiting | complete
deriving DecidableEq

structure Visits where
  states : List Visit
  trail : List Nat

/-- A task outside the table counts as complete. `fuel` bounds the depth of the trail. -/
def visit (dependencies : List (List Nat)) :
    Nat → Visits → Nat → Except (List Nat) Visits
  | 0, visits, index => .error (visits.trail ++ [index])
  | fuel + 1, visits, index =>
    match visits.states[index]?.getD .complete with
    | .complete => .ok visits
    | .visiting => .error (visits.trail.drop (visits.trail.idxOf index) ++ [index])
    | .unseen => do
      let entered : Visits := ⟨visits.states.set index .visiting, visits.trail ++ [index]⟩
      let visits ← (dependencies[index]?.getD []).foldlM (visit dependencies fuel) entered
      return ⟨visits.states.set index .complete, visits.trail.dropLast⟩

/-- Reports the first cycle as the positions on it, first repeated last. -/
def validateAcyclic (dependencies : List (List Nat)) : Except (List Nat) Unit := do
  let _ ← (List.range dependencies.length).foldlM (visit dependencies (dependencies.length + 1))
    ⟨List.replicate dependencies.length .unseen, []⟩
  return ()

def taskIds (definitions : List TaskDefinition) (positions : List Nat) : List TaskId :=
  positions.filterMap fun index => definitions[index]?.map (·.id)

/-! ## The whole validation -/

/-- The tasks of a workflow, when every check passes. -/
def resolveTasks (definitions : List TaskDefinition) : Except WorkflowError (List Task) := do
  if definitions = [] then throw .empty
  let indexes ← taskIndexes definitions
  let dependencies ← resolveAllDependencies definitions indexes
  match validateAcyclic dependencies with
  | .error cycle => throw (.cycle (taskIds definitions cycle))
  | .ok _ =>
    let reads ← (definitions.zip dependencies).mapM fun (definition, dependencies) =>
      resolveOutputSources definition dependencies indexes
    return ((definitions.zip dependencies).zip reads).map fun ((definition, dependencies), reads) =>
      ⟨definition.id, dependencies, reads, definition.request, definition.sandbox⟩

end Beez.Core
