import Beez.Core.Execution
import Beez.Lib.Machine

/-! # Calls on one execution

A caller may start and complete tasks in any order and with any index.
-/

open Beez.Lib

namespace Beez.Core

/-- One move of a task's status. -/
inductive TaskStatus.Follows : TaskStatus → TaskStatus → Prop
  | started : Follows .pending .running
  | succeeded : Follows .running .succeeded
  | failed : Follows .running .failed

inductive Call where
  | start (index : Nat)
  | complete (index : Nat) (succeeded : Bool)
deriving DecidableEq

namespace WorkflowExecution

/-- The `start` that writes in place: what it returns and what it leaves. -/
def startIn (execution : WorkflowExecution) (index : Nat) : Option Task × WorkflowExecution :=
  if !execution.isReady index then (none, execution)
  else if index < execution.statuses.length then
    let execution := { execution with statuses := execution.statuses.set index .running }
    (execution.workflow.task index, execution)
  else (none, execution)

def completeIn (execution : WorkflowExecution) (index : Nat) (succeeded : Bool) :
    Bool × WorkflowExecution :=
  match execution.statuses[index]? with
  | none => (false, execution)
  | some status =>
    if status ≠ .running then (false, execution)
    else
      let status := if succeeded then .succeeded else .failed
      (true, { execution with statuses := execution.statuses.set index status })

/-- True when the call is taken, with the execution after it. -/
def answer (execution : WorkflowExecution) : Call → Bool × WorkflowExecution
  | .start index =>
    let (task, execution) := execution.startIn index
    (task.isSome, execution)
  | .complete index succeeded => execution.completeIn index succeeded

def take (execution : WorkflowExecution) (call : Call) : WorkflowExecution :=
  (execution.answer call).2

variable {execution : WorkflowExecution} {index : Nat}

theorem startIn_eq : execution.startIn index =
    match execution.start index with
    | none => (none, execution)
    | some (task, next) => (some task, next) := by
  unfold startIn
  by_cases h : execution.isReady index = true
  · obtain ⟨task, htask, hstart⟩ := start_of_isReady h
    have hlt := lt_of_mem_ready (mem_ready.mpr h)
    simp [h, hstart, hlt, htask]
  · simp [start, h]

theorem completeIn_eq {succeeded : Bool} : execution.completeIn index succeeded =
    match execution.complete index succeeded with
    | none => (false, execution)
    | some next => (true, next) := by
  unfold completeIn complete
  cases h : execution.statuses[index]? with
  | none => simp
  | some status => by_cases hr : status = .running <;> simp [hr]

/-! ## One call -/

/-- What a call does: nothing, or one move of one task. -/
theorem answer_cases (execution : WorkflowExecution) (call : Call) :
    execution.answer call = (false, execution) ∨
    ∃ i old new, execution.answer call =
        (true, { execution with statuses := execution.statuses.set i new }) ∧
      execution.statuses[i]? = some old ∧ old.Follows new ∧
      (old = .pending → execution.isReady i = true) := by
  cases call with
  | start i =>
    simp only [answer, startIn_eq]
    by_cases h : execution.isReady i = true
    · obtain ⟨task, -, hstart⟩ := start_of_isReady h
      obtain ⟨_, -, hpending, -⟩ := isReady_iff.mp h
      rw [hstart]
      exact .inr ⟨i, _, _, rfl, hpending, .started, fun _ => h⟩
    · left
      simp [start, h]
  | complete i succeeded =>
    unfold answer
    simp only [completeIn_eq]
    by_cases h : execution.statuses[i]? = some .running
    · right
      cases succeeded with
      | true => exact ⟨i, _, _, by simp [complete, h], h, .succeeded, by simp⟩
      | false => exact ⟨i, _, _, by simp [complete, h], h, .failed, by simp⟩
    · left
      simp [complete, h]

@[simp] theorem take_workflow (call : Call) : (execution.take call).workflow = execution.workflow := by
  unfold take
  rcases answer_cases execution call with h | ⟨i, old, new, h, -⟩
  · rw [h]
  · rw [h]

theorem runAll_workflow (calls : List Call) :
    (runAll take execution calls).workflow = execution.workflow := by
  induction calls generalizing execution with
  | nil => rfl
  | cons call rest ih => rw [runAll_cons, ih, take_workflow]

theorem take_status (call : Call) (i : Nat) {old : TaskStatus}
    (h : execution.statuses[i]? = some old) :
    (execution.take call).statuses[i]? = some old ∨
      ∃ new, old.Follows new ∧ (execution.take call).statuses[i]? = some new := by
  unfold take
  rcases answer_cases execution call with hanswer | ⟨j, was, new, hanswer, hwas, hfollows, -⟩
  · rw [hanswer]
    exact .inl h
  · rw [hanswer]
    by_cases hij : j = i
    · subst hij
      have hlt := (List.getElem?_eq_some_iff.mp h).1
      have : was = old := by simpa [hwas] using h
      right
      exact ⟨new, this ▸ hfollows, by simp [hlt]⟩
    · left
      simpa [List.getElem?_set_ne hij] using h

/-- A task that succeeded never moves again. -/
theorem take_succeeded (call : Call) {i : Nat} (h : execution.statuses[i]? = some .succeeded) :
    (execution.take call).statuses[i]? = some .succeeded := by
  rcases take_status call i h with h | ⟨new, hnew, -⟩
  · exact h
  · cases hnew

/-- Where a task goes in a whole run of calls. -/
theorem runAll_status (calls : List Call) (i : Nat) {old : TaskStatus}
    (h : execution.statuses[i]? = some old) :
    ∃ new, (runAll take execution calls).statuses[i]? = some new ∧
      Relation.ReflTransGen TaskStatus.Follows old new := by
  induction calls generalizing execution old with
  | nil => exact ⟨old, h, .refl⟩
  | cons call rest ih =>
    rcases take_status call i h with hsame | ⟨next, hnext, hstatus⟩
    · exact ih hsame
    · obtain ⟨new, hnew, hsteps⟩ := ih hstatus
      exact ⟨new, hnew, .head hnext hsteps⟩

/-! ## Every run of calls -/

/-- A task that has started has dependencies that succeeded. -/
structure Ordered (execution : WorkflowExecution) : Prop where
  length : execution.statuses.length = execution.workflow.tasks.length
  after : ∀ i task status, execution.workflow.task i = some task →
    execution.statuses[i]? = some status → status ≠ .pending →
    ∀ d ∈ task.dependencies, execution.statuses[d]? = some .succeeded

theorem Ordered.new (workflow : Workflow) : Ordered workflow.execution := by
  constructor
  · simp [Workflow.execution]
  · intro i task status _ hstatus hnot
    have hmem := List.mem_of_getElem? hstatus
    exact absurd (List.eq_of_mem_replicate hmem) hnot

theorem Ordered.take (ordered : Ordered execution) (call : Call) : Ordered (execution.take call) := by
  constructor
  · rw [take_workflow, ← ordered.length]
    unfold WorkflowExecution.take
    rcases answer_cases execution call with h | ⟨i, old, new, h, -⟩
    · rw [h]
    · simp [h]
  · intro i task status htask hstatus hnot d hd
    rw [take_workflow] at htask
    apply take_succeeded
    unfold WorkflowExecution.take at hstatus
    rcases answer_cases execution call with h | ⟨j, old, new, h, hold, -, hready⟩
    · rw [h] at hstatus
      exact ordered.after i task status htask hstatus hnot d hd
    · rw [h] at hstatus
      by_cases hij : j = i
      · subst hij
        by_cases hpending : old = .pending
        · obtain ⟨task', htask', -, hdone⟩ := isReady_iff.mp (hready hpending)
          have : task' = task := by simpa [htask'] using htask
          exact hdone d (this ▸ hd)
        · exact ordered.after j task old htask hold hpending d hd
      · rw [List.getElem?_set_ne hij] at hstatus
        exact ordered.after i task status htask hstatus hnot d hd

theorem Ordered.runAll (workflow : Workflow) (calls : List Call) :
    Ordered (runAll WorkflowExecution.take workflow.execution calls) :=
  @runAll_invariant _ _ _ (fun _ _ => True) _ (fun _ call ordered _ => ordered.take call) _ _
    (Ordered.new workflow) (.of_forall (fun _ _ => trivial) _ _)

/-- With nothing running and nothing ready, what still waits is behind a failure. -/
theorem Ordered.blocked (ordered : Ordered execution)
    (idle : ∀ i : Nat, execution.statuses[i]? ≠ some .running) (stuck : execution.ready = []) {i : Nat}
    (h : execution.statuses[i]? = some .pending) :
    ∃ d, Needs execution.workflow.dependencies i d ∧ execution.statuses[d]? = some .failed := by
  obtain ⟨rank, hrank⟩ := execution.workflow.wellFormed.acyclic
  induction hr : rank i using Nat.strong_induction_on generalizing i with
  | _ _ ih =>
    subst hr
    have hlt : i < execution.workflow.tasks.length :=
      ordered.length ▸ (List.getElem?_eq_some_iff.mp h).1
    have htask : execution.workflow.task i = some execution.workflow.tasks[i] :=
      List.getElem?_eq_getElem hlt
    have hdeps : execution.workflow.dependencies i = execution.workflow.tasks[i].dependencies := by
      simp [Workflow.dependencies, dependenciesAt, hlt]
    -- the task waits without being ready, so some dependency has not succeeded
    have hready : ¬ execution.isReady i = true := by
      rw [← mem_ready, stuck]
      exact List.not_mem_nil
    obtain ⟨d, hd, hnot⟩ : ∃ d ∈ execution.workflow.tasks[i].dependencies,
        execution.statuses[d]? ≠ some .succeeded := by
      by_contra hall
      push Not at hall
      exact hready (isReady_iff.mpr ⟨_, htask, h, hall⟩)
    rw [← hdeps] at hd
    have hdlt : d < execution.statuses.length :=
      ordered.length ▸ execution.workflow.wellFormed.inRange i d hd
    obtain ⟨status, hstatus⟩ : ∃ status, execution.statuses[d]? = some status :=
      ⟨_, List.getElem?_eq_getElem hdlt⟩
    cases status with
    | pending =>
      obtain ⟨e, he, hfailed⟩ := ih (rank d) (hrank i d hd) hstatus rfl
      exact ⟨e, .head hd he, hfailed⟩
    | running => exact absurd hstatus (idle d)
    | succeeded => exact absurd hstatus hnot
    | failed => exact ⟨d, .single hd, hstatus⟩

/-- What holds of an execution after any calls, and of one call more. -/
theorem calls_sound (workflow : Workflow) (calls : List Call) (call : Call) :
    let execution := Lib.runAll take workflow.execution calls
    ((execution.answer call).1 = false → execution.take call = execution) ∧
    (∀ (i : Nat) (old : TaskStatus), execution.statuses[i]? = some old →
      (execution.take call).statuses[i]? = some old ∨
        ∃ new, old.Follows new ∧ (execution.take call).statuses[i]? = some new) ∧
    (∀ i < workflow.tasks.length, ∃ status, execution.statuses[i]? = some status ∧
      Relation.ReflTransGen TaskStatus.Follows .pending status ∧
      ∀ later, ∃ new, (Lib.runAll take execution later).statuses[i]? = some new ∧
        Relation.ReflTransGen TaskStatus.Follows status new) ∧
    (∀ i task status, workflow.task i = some task → execution.statuses[i]? = some status →
      status ≠ .pending → ∀ d ∈ task.dependencies, execution.statuses[d]? = some .succeeded) ∧
    ((∀ i : Nat, execution.statuses[i]? ≠ some .running) → execution.hasPending = true →
      execution.ready ≠ [] ∨ ∀ i ∈ execution.pending,
        ∃ d, Needs workflow.dependencies i d ∧ execution.statuses[d]? = some .failed) := by
  intro execution
  have ordered : Ordered execution := Ordered.runAll workflow calls
  have hworkflow : execution.workflow = workflow := runAll_workflow calls
  refine ⟨?_, fun i old => take_status call i, ?_, ?_, ?_⟩
  · intro hrefused
    unfold take
    rcases answer_cases execution call with h | ⟨i, old, new, h, -⟩
    · rw [h]
    · simp [h] at hrefused
  · intro i hi
    have hpending : workflow.execution.statuses[i]? = some .pending := by
      simp [Workflow.execution, hi]
    obtain ⟨status, hstatus, hsteps⟩ := runAll_status calls i hpending
    exact ⟨status, hstatus, hsteps, fun later => runAll_status later i hstatus⟩
  · intro i task status htask
    exact ordered.after i task status (hworkflow ▸ htask)
  · intro idle _
    by_cases hready : execution.ready = []
    · right
      intro i hi
      rw [← hworkflow]
      exact ordered.blocked idle hready (mem_pending.mp hi)
    · exact .inl hready

end WorkflowExecution

end Beez.Core
