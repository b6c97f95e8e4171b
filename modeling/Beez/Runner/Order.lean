import Beez.Runner.Rendering

/-! # The order in which tasks complete -/

open Beez.Core Beez.Lib

namespace Beez.Runner

theorem recordOutcomes_perm (reads : List Nat) (run : Run) {tasks : List Nat}
    {outcomes outcomes' : List (Option Nat × Outcome)} (nodup : tasks.Nodup)
    (htasks : outcomes.map (·.1) = tasks.map some) (perm : outcomes.Perm outcomes') :
    recordOutcomes reads outcomes run = recordOutcomes reads outcomes' run := by
  have apart : (outcomes.map fun outcome => positionOf outcome.1).Nodup := by
    have : outcomes.map (fun outcome => positionOf outcome.1) = tasks := by
      have := congrArg (List.map positionOf) htasks
      rw [List.map_map, List.map_map] at this
      exact this.trans (List.map_id tasks)
    rwa [this]
  rw [recordOutcomes, recordOutcomes, insertionSort_perm apart perm]

/-! ## A run without its events -/

def Run.silent (run : Run) : Run := { run with events := [] }

@[simp] theorem silent_report (run : Run) (events : List RunEvent) :
    (run.report events).silent = run.silent := rfl

theorem silent_begin (run : Run) (index : Nat) :
    (run.begin index).silent = run.silent.setStatus index .running := rfl

theorem silent_record (reads : List Nat) (result : Nat → Outcome) (run : Run) (index : Nat) :
    (run.record reads result index).silent = run.silent.record reads result index := rfl

/-- The outcome of the task at `index`, when each job has the outcome that `outcome` says. -/
def resultOf (outcome : Job → Outcome) (jobs : List Job) (index : Nat) : Outcome :=
  match jobs.find? (·.task = some index) with
  | some job => outcome job
  | none => .ok ⟨none, [], []⟩

/-- A turn as if its tasks ran one after another. -/
def turnInOrder (outcome : Job → Outcome) (workflow : Workflow) (run : Run) :
    Except IoError (Option Int) × Run :=
  let ready := run.execution.ready
  let started := ready.foldl (·.setStatus · .running) run
  if ready = [] then (.ok (some run.exitStatus), run)
  else match (ready.filterMap (startedTask workflow)).mapM (prepare workflow run.outputs) with
    | .error error => (.error error, started)
    | .ok jobs =>
      let result := resultOf outcome jobs
      let recorded := ready.foldl (Run.record (readTasks workflow) result) started
      match ready.foldl (fun error i => errorAfter error (result i)) none with
      | some error => (.error error, recorded)
      | none => (.ok none, recorded)

def runInOrder (outcome : Job → Outcome) (workflow : Workflow) :
    Nat → Run → Except IoError (Option Int) × Run
  | 0, run => (.ok none, run)
  | fuel + 1, run =>
    if run.execution.hasPending then
      match turnInOrder outcome workflow run with
      | (.ok none, run) => runInOrder outcome workflow fuel run
      | ended => ended
    else (.ok (some run.exitStatus), run)

/-- Each job ends with its outcome, however the jobs are mixed. -/
structure World.Runs (world : World) (outcome : Job → Outcome) : Prop where
  delivers : world.Delivers
  ends : ∀ events jobs, (jobs.map (·.task)).Nodup → ∀ job ∈ jobs, ∀ result elapsed,
    .done job.task result elapsed ∈ world.deliver events jobs → result = outcome job

structure Tracks (workflow : Workflow) (run : Run) : Prop where
  same : run.execution.workflow = workflow
  length : workflow.tasks.length = run.execution.statuses.length

section Order

variable {world : World} {workflow : Workflow} {outcome : Job → Outcome} {run : Run}

theorem silent_foldl_begin (l : List Nat) :
    (l.foldl Run.begin run).silent = l.foldl (·.setStatus · .running) run.silent := by
  induction l generalizing run with
  | nil => rfl
  | cons i rest ih => rw [List.foldl_cons, List.foldl_cons, ih, silent_begin]

theorem silent_foldl_record (reads : List Nat) (result : Nat → Outcome) (l : List Nat) :
    (l.foldl (Run.record reads result) run).silent =
      l.foldl (Run.record reads result) run.silent := by
  induction l generalizing run with
  | nil => rfl
  | cons i rest ih => rw [List.foldl_cons, List.foldl_cons, ih, silent_record]

theorem resultOf_eq {jobs : List Job} {job : Job} {i : Nat} (apart : (jobs.map (·.task)).Nodup)
    (hjob : job ∈ jobs) (htask : job.task = some i) : resultOf outcome jobs i = outcome job := by
  unfold resultOf
  cases hfind : jobs.find? (·.task = some i) with
  | none => exact absurd htask (by simpa using List.find?_eq_none.mp hfind job hjob)
  | some found =>
    have hfound := List.find?_some hfind
    rw [decide_eq_true_eq] at hfound
    rw [List.inj_on_of_nodup_map apart (List.mem_of_find?_eq_some hfind) hjob
      (hfound.trans htask.symm)]

theorem World.Runs.collected (runs : world.Runs outcome) {events : List RunEvent}
    {jobs : List Job} {l : List Nat} (tasks : jobs.map (·.task) = l.map some)
    (apart : (jobs.map (·.task)).Nodup) :
    Collected l (world.deliver events jobs) (resultOf outcome jobs) := by
  obtain ⟨result, collected⟩ := (runs.delivers events jobs apart).collected tasks
  refine ⟨collected.known, fun i hi => ?_⟩
  obtain ⟨lines, elapsed, hlines, hfilter⟩ := collected.whole i hi
  obtain ⟨job, hjob, htask⟩ : ∃ job ∈ jobs, job.task = some i :=
    List.mem_map.mp (tasks ▸ List.mem_map_of_mem hi)
  have hdone : .done job.task (result i) elapsed ∈ world.deliver events jobs := by
    refine List.mem_of_mem_filter (p := (·.task = some i)) ?_
    rw [hfilter, htask]
    simp
  have := runs.ends events jobs apart job hjob _ _ hdone
  rw [resultOf_eq apart hjob htask, ← this]
  exact ⟨lines, elapsed, hlines, hfilter⟩

theorem Tracks.wave (tracks : Tracks workflow run) (l : List Nat) (messages : List Message)
    (result : Nat → Outcome) : Tracks workflow (run.wave workflow l messages result) :=
  ⟨wave_workflow.trans tracks.same, tracks.length.trans wave_length.symm⟩

theorem silent_wave (l : List Nat) (messages : List Message) (result : Nat → Outcome) :
    (run.wave workflow l messages result).silent = l.foldl (Run.record (readTasks workflow) result)
      (l.foldl (·.setStatus · .running) run.silent) := by
  rw [Run.wave, silent_foldl_record, silent_report, silent_foldl_begin]

/-! ## One turn -/

def turnEnd (error : Option IoError) : Except IoError (Option Int) :=
  match error with
  | some error => .error error
  | none => .ok none

theorem turnInOrder_stalled (stalled : run.execution.ready = []) :
    turnInOrder outcome workflow run.silent = (.ok (some run.silent.exitStatus), run.silent) := by
  rw [turnInOrder, if_pos (by exact stalled)]

theorem turnInOrder_unprepared {error : IoError} (ready : run.execution.ready ≠ [])
    (hjobs : (run.execution.ready.filterMap (startedTask workflow)).mapM
      (prepare workflow run.outputs) = .error error) :
    turnInOrder outcome workflow run.silent =
      (.error error, (run.execution.ready.foldl Run.begin run).silent) := by
  have prepared : (run.silent.execution.ready.filterMap (startedTask workflow)).mapM
      (prepare workflow run.silent.outputs) = .error error := hjobs
  rw [turnInOrder, if_neg (by exact ready), prepared, silent_foldl_begin]
  rfl

theorem turnInOrder_prepared {jobs : List Job} (ready : run.execution.ready ≠ [])
    (hjobs : (run.execution.ready.filterMap (startedTask workflow)).mapM
      (prepare workflow run.outputs) = .ok jobs) (messages : List Message) :
    turnInOrder outcome workflow run.silent = (turnEnd (run.execution.ready.foldl
        (fun error i => errorAfter error (resultOf outcome jobs i)) none),
      (run.wave workflow run.execution.ready messages (resultOf outcome jobs)).silent) := by
  have prepared : (run.silent.execution.ready.filterMap (startedTask workflow)).mapM
      (prepare workflow run.silent.outputs) = .ok jobs := hjobs
  have same : run.silent.execution.ready = run.execution.ready := rfl
  rw [turnInOrder, if_neg (by exact ready), prepared, silent_wave]
  simp only [same]
  cases run.execution.ready.foldl
    (fun error i => errorAfter error (resultOf outcome jobs i)) none with
  | none => rfl
  | some error => rfl

/-- The loop leads where it leads when the tasks of a turn run one after another. -/
theorem turn_inOrder (runs : world.Runs outcome) (tracks : Tracks workflow run) :
    Leads (Stopped world) (turn world workflow) run fun result run' =>
      (result, run'.silent) = turnInOrder outcome workflow run.silent ∧
        (result = .ok none → Tracks workflow run') := by
  have hrange : ∀ i ∈ run.execution.ready, i < workflow.tasks.length := by
    intro i hi
    rw [tracks.length]
    exact WorkflowExecution.lt_of_mem_ready hi
  have hstart := startReadyTasks_returns world run
  rw [tracks.same] at hstart
  refine Returns.bind hstart fun tasks run' ⟨htasks, hrun'⟩ => ?_
  subst htasks
  by_cases hready : run.execution.ready = []
  · rw [if_pos ((startedTasks_eq_nil hrange).mpr hready)]
    have hsame : run' = run := by rw [hrun', hready, List.foldl_nil]
    rw [hsame]
    refine Leads.of_run_eq run_get_bind ?_
    refine (emitAll_returns .blocked run.execution.pending).bind fun _ run' hrun' => .inl ?_
    subst hrun'
    exact ⟨(turnInOrder_stalled hready).symm, by rintro ⟨⟩⟩
  · rw [if_neg fun h => hready ((startedTasks_eq_nil hrange).mp h)]
    have houtputs : run'.outputs = run.outputs := by rw [hrun', foldl_begin_outputs]
    refine Leads.of_run_eq run_get_bind ?_
    rw [houtputs]
    cases hjobs : (run.execution.ready.filterMap (startedTask workflow)).mapM
        (prepare workflow run.outputs) with
    | error error =>
      rw [Leads, run_bind_error run_lift_error, hrun']
      exact .inl ⟨(turnInOrder_unprepared hready hjobs).symm, by rintro ⟨⟩⟩
    | ok jobs =>
      refine Leads.of_run_eq (run_bind_ok run_lift_ok) ?_
      have collected : Collected run.execution.ready (world.deliver run'.events jobs)
          (resultOf outcome jobs) :=
        runs.collected (prepared_tasks hrange hjobs) (prepared_apart hrange hjobs)
      have hreceive := receive_returns world run' (world.deliver run'.events jobs)
      refine Returns.bind (Leads.of_run_eq run_get_bind hreceive) fun outcomes run'' h => ?_
      obtain ⟨rfl, rfl⟩ := h
      have hrecord := recordOutcomes_wave workflow (fun i hi => tracks.length ▸ hrange i hi)
        collected
      rw [← hrun'] at hrecord
      have hturn := @turnInOrder_prepared workflow outcome run jobs hready hjobs
        (world.deliver run'.events jobs)
      cases hfold : run.execution.ready.foldl
          (fun error i => errorAfter error (resultOf outcome jobs i)) none with
      | none =>
        rw [hfold] at hrecord hturn
        exact Leads.of_run_eq (run_bind_ok hrecord) (.inl ⟨hturn.symm, fun _ => tracks.wave _ _ _⟩)
      | some error =>
        rw [hfold] at hrecord hturn
        refine .inl ?_
        rw [run_bind_error hrecord]
        exact ⟨hturn.symm, by rintro ⟨⟩⟩

theorem runLoop_inOrder (runs : world.Runs outcome) (fuel : Nat) (tracks : Tracks workflow run) :
    Leads (Stopped world) (runLoop world workflow fuel) run fun result run' =>
      (result, run'.silent) = runInOrder outcome workflow fuel run.silent := by
  induction fuel generalizing run with
  | zero => exact .inl rfl
  | succ fuel ih =>
    refine Leads.of_run_eq run_get_bind ?_
    have same : run.silent.execution.hasPending = run.execution.hasPending := rfl
    rw [runInOrder, same]
    cases hpending : run.execution.hasPending with
    | false => exact .inl rfl
    | true =>
      rw [if_pos rfl, if_pos rfl]
      refine (turn_inOrder runs tracks).bind ?_ ?_
      · rintro error run' ⟨hturn, -⟩
        rw [← hturn]
      · rintro status run' ⟨hturn, tracks'⟩
        rw [← hturn]
        cases status with
        | none => exact ih (tracks' rfl)
        | some status => exact .inl rfl

end Order

theorem runWorkflow_inOrder {world : World} {outcome : Job → Outcome} (runs : world.Runs outcome)
    (workflow : Workflow) (fuel : Nat) :
    (∃ error, (runWorkflow world workflow fuel).1 = .error error ∧
        Stopped world error (runWorkflow world workflow fuel).2) ∨
      ((runWorkflow world workflow fuel).1, (runWorkflow world workflow fuel).2.silent) =
        runInOrder outcome workflow fuel (Run.initial workflow) := by
  have tracks : Tracks workflow (Run.initial workflow) := ⟨rfl, by simp [Run.initial,
    Workflow.execution]⟩
  exact (runLoop_inOrder runs fuel tracks).symm

/-- Neither the outcomes of one turn nor the result of a run show which task completed first. A
run that the caller's callback stopped has no result of its own. -/
theorem results_without_order :
    (∀ (reads : List Nat) (run : Run) (tasks : List Nat)
      (outcomes outcomes' : List (Option Nat × Outcome)), tasks.Nodup →
      outcomes.map (·.1) = tasks.map some → outcomes.Perm outcomes' →
      recordOutcomes reads outcomes run = recordOutcomes reads outcomes' run) ∧
    ∀ (outcome : Job → Outcome) (workflow : Workflow) (fuel : Nat) (world world' : World),
      world.Runs outcome → world'.Runs outcome →
      (∃ error, (runWorkflow world workflow fuel).1 = .error error ∧
        Stopped world error (runWorkflow world workflow fuel).2) ∨
      (∃ error, (runWorkflow world' workflow fuel).1 = .error error ∧
        Stopped world' error (runWorkflow world' workflow fuel).2) ∨
      ((runWorkflow world workflow fuel).1 = (runWorkflow world' workflow fuel).1 ∧
        (runWorkflow world workflow fuel).2.silent =
          (runWorkflow world' workflow fuel).2.silent) := by
  refine ⟨fun reads run tasks outcomes outcomes' => recordOutcomes_perm reads run, ?_⟩
  intro outcome workflow fuel world world' runs runs'
  rcases runWorkflow_inOrder runs workflow fuel with stopped | result
  · exact .inl stopped
  rcases runWorkflow_inOrder runs' workflow fuel with stopped | result'
  · exact .inr (.inl stopped)
  · exact .inr (.inr (Prod.mk.inj (result.trans result'.symm)))

/-- Hands over the results of a turn from the last task to the first. -/
def World.backwards (outcome : Nat → Outcome) : World :=
  { World.immediate outcome with
    deliver := fun events jobs => ((World.immediate outcome).deliver events jobs).reverse }

theorem immediate_runs (outcome : Nat → Outcome) :
    (World.immediate outcome).Runs fun job => outcome (positionOf job.task) := by
  refine ⟨immediate_delivers outcome, fun events jobs _ job _ result elapsed hdone => ?_⟩
  obtain ⟨job', -, hdone⟩ := List.mem_map.mp hdone
  obtain ⟨htask, hresult, -⟩ := Message.done.inj hdone
  rw [← hresult, htask]

theorem backwards_runs (outcome : Nat → Outcome) :
    (World.backwards outcome).Runs fun job => outcome (positionOf job.task) := by
  refine ⟨fun events jobs nodup => ⟨?_, ?_⟩, ?_⟩
  · intro message hmessage
    exact (immediate_delivers outcome events jobs nodup).known message (List.mem_reverse.mp hmessage)
  · intro job hjob
    refine ⟨[], outcome (positionOf job.task), 0, by simp, ?_⟩
    have one : ((World.immediate outcome).deliver events jobs).filter (·.task = job.task) =
        [.done job.task (outcome (positionOf job.task)) 0] := by
      rw [World.immediate, List.filter_map]
      exact congrArg (List.map _) (filter_key_eq nodup hjob)
    rw [World.backwards, List.filter_reverse]
    exact congrArg List.reverse one
  · intro events jobs nodup job hjob result elapsed hdone
    exact (immediate_runs outcome).ends events jobs nodup job hjob result elapsed
      (List.mem_reverse.mp hdone)

def formatAndDocs : List TaskDefinition :=
  [⟨⟨"format".toList, by decide⟩, [], .command "format".toList [], none⟩,
    ⟨⟨"docs".toList, by decide⟩, [], .command "docs".toList [], none⟩]

theorem formatAndDocs_resolved : resolveTasks formatAndDocs = .ok
    [⟨⟨"format".toList, by decide⟩, [], [], .command "format".toList [], none⟩,
      ⟨⟨"docs".toList, by decide⟩, [], [], .command "docs".toList [], none⟩] := rfl

def formatAndDocsWorkflow : Workflow where
  tasks := _
  wellFormed := resolveTasks_wellFormed formatAndDocs_resolved

/-- Both tasks fail, each with a status of its own. -/
def bothFail (task : Nat) : Outcome := .ok ⟨some (task + 2), [], []⟩

theorem results_without_order_formatAndDocs :
    recordOutcomes [] [(some 0, bothFail 0), (some 1, bothFail 1)]
        (Run.initial formatAndDocsWorkflow) =
      recordOutcomes [] [(some 1, bothFail 1), (some 0, bothFail 0)]
        (Run.initial formatAndDocsWorkflow) ∧
    (runWorkflow (.immediate bothFail) formatAndDocsWorkflow 3).1 =
      (runWorkflow (.backwards bothFail) formatAndDocsWorkflow 3).1 := by
  constructor
  · exact results_without_order.1 [] _ [0, 1] _ _ (by decide) rfl (.swap _ _ [])
  · rcases results_without_order.2 _ formatAndDocsWorkflow 3 _ _ (immediate_runs bothFail)
      (backwards_runs bothFail) with ⟨_, -, stopped⟩ | ⟨_, -, stopped⟩ | ⟨same, -⟩
    · cases stopped
    · cases stopped
    · exact same

example : (runWorkflow (.backwards bothFail) formatAndDocsWorkflow 3).1 = .ok (some 2) := by
  decide +kernel

end Beez.Runner
