import Beez.Core.Validation

/-! # Tracking one execution of a workflow -/

open Beez.Lib

namespace Beez.Core

inductive TaskStatus where
  | pending | running | succeeded | failed
deriving DecidableEq, Repr

/-- Tracks task readiness and completion for one workflow execution. -/
structure WorkflowExecution where
  workflow : Workflow
  statuses : List TaskStatus

def Workflow.execution (workflow : Workflow) : WorkflowExecution :=
  ⟨workflow, List.replicate workflow.tasks.length .pending⟩

namespace WorkflowExecution

/-- True when the task has not started and every dependency succeeded. -/
def isReady (execution : WorkflowExecution) (index : Nat) : Bool :=
  match execution.workflow.task index with
  | none => false
  | some task =>
    execution.statuses[index]? == some .pending &&
      task.dependencies.all fun dependency => execution.statuses[dependency]? == some .succeeded

def ready (execution : WorkflowExecution) : List Nat :=
  (List.range execution.workflow.tasks.length).filter execution.isReady

/-- Marks a ready task as running and returns it. -/
def start (execution : WorkflowExecution) (index : Nat) : Option (Task × WorkflowExecution) := do
  if !execution.isReady index then none
  let task ← execution.workflow.task index
  return (task, { execution with statuses := execution.statuses.set index .running })

/-- Records a running task's outcome. Nothing for a task that does not run. -/
def complete (execution : WorkflowExecution) (index : Nat) (succeeded : Bool) :
    Option WorkflowExecution :=
  if execution.statuses[index]? = some .running then
    some { execution with
      statuses := execution.statuses.set index (if succeeded then .succeeded else .failed) }
  else none

def hasPending (execution : WorkflowExecution) : Bool := execution.statuses.contains .pending

def pending (execution : WorkflowExecution) : List Nat :=
  (List.range execution.statuses.length).filter fun index =>
    execution.statuses[index]? == some .pending

variable {execution : WorkflowExecution} {index : Nat}

theorem isReady_iff : execution.isReady index = true ↔
    ∃ task, execution.workflow.task index = some task ∧
      execution.statuses[index]? = some .pending ∧
      ∀ d ∈ task.dependencies, execution.statuses[d]? = some .succeeded := by
  unfold isReady
  cases execution.workflow.task index with
  | none => simp
  | some task => simp

theorem mem_ready : index ∈ execution.ready ↔ execution.isReady index = true := by
  rw [ready, List.mem_filter, List.mem_range, and_iff_right_iff_imp]
  intro h
  obtain ⟨task, htask, -⟩ := isReady_iff.mp h
  exact (List.getElem?_eq_some_iff.mp htask).1

theorem lt_of_mem_ready (h : index ∈ execution.ready) : index < execution.statuses.length := by
  obtain ⟨task, -, hpending, -⟩ := isReady_iff.mp (mem_ready.mp h)
  exact (List.getElem?_eq_some_iff.mp hpending).1

theorem ready_sorted : execution.ready.Pairwise (· < ·) :=
  List.Pairwise.filter _ List.pairwise_lt_range

theorem ready_nodup : execution.ready.Nodup := ready_sorted.imp Nat.ne_of_lt

theorem mem_pending : index ∈ execution.pending ↔ execution.statuses[index]? = some .pending := by
  rw [pending, List.mem_filter, List.mem_range, beq_iff_eq, and_iff_right_iff_imp]
  intro h
  exact (List.getElem?_eq_some_iff.mp h).1

theorem pending_nodup : execution.pending.Nodup := List.nodup_range.filter _

theorem hasPending_iff :
    execution.hasPending = true ↔ ∃ i : Nat, execution.statuses[i]? = some .pending := by
  rw [hasPending, List.contains_iff_mem, List.mem_iff_getElem?]

theorem start_of_isReady (h : execution.isReady index = true) : ∃ task,
    execution.workflow.task index = some task ∧ execution.start index =
      some (task, { execution with statuses := execution.statuses.set index .running }) := by
  obtain ⟨task, htask, -⟩ := isReady_iff.mp h
  refine ⟨task, htask, ?_⟩
  simp [start, h, htask]

end WorkflowExecution

end Beez.Core
