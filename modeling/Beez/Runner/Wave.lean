import Beez.Lib.Grouping
import Beez.Lib.Program
import Beez.Runner.Run

/-! # What one turn of the runner does -/

open Beez.Core Beez.Lib

namespace Beez.Runner

/-- The callback returned `error` for the last event. -/
def Stopped (world : World) (error : IoError) (run : Run) : Prop :=
  world.callback run.events = some error

variable {world : World} {run : Run}

/-! ## Reporting -/

def Run.report (run : Run) (events : List RunEvent) : Run :=
  { run with events := run.events ++ events }

@[simp] theorem report_nil : run.report [] = run := by simp [Run.report]

@[simp] theorem report_report (a b : List RunEvent) :
    (run.report a).report b = run.report (a ++ b) := by
  simp [Run.report]

theorem emit_returns (event : RunEvent) :
    Returns (Stopped world) (emit world event) run fun _ run' => run' = run.report [event] := by
  cases h : world.callback (run.events ++ [event]) with
  | none =>
    have hrun : emit world event run = (.ok (), run.report [event]) := by
      rw [emit, run_modify_bind, run_get_bind, h]
      rfl
    exact Returns.of_eq hrun rfl
  | some error =>
    have hrun : emit world event run = (.error error, run.report [event]) := by
      rw [emit, run_modify_bind, run_get_bind, h]
      rfl
    refine .inr ⟨error, ?_, ?_⟩
    · rw [hrun]
    · rw [hrun]
      exact h

theorem emitAll_returns (make : Nat → RunEvent) (l : List Nat) :
    Returns (Stopped world) (forM l fun i => emit world (make i)) run
      fun _ run' => run' = run.report (l.map make) := by
  induction l generalizing run with
  | nil => exact Returns.of_eq (a := ()) rfl (by simp)
  | cons i rest ih =>
    rw [List.forM_cons]
    refine (emit_returns (make i)).bind fun _ run' h => ?_
    subst h
    exact ih.mono fun _ _ h => by simpa using h

theorem receive_returns (world : World) (run : Run) (messages : List Message) :
    Returns (Stopped world) (receive world messages) run fun outcomes run' =>
      outcomes = messages.filterMap Message.outcome ∧
        run' = run.report (messages.map Message.event) := by
  induction messages generalizing run with
  | nil => exact Returns.of_eq rfl (by simp)
  | cons message rest ih =>
    match message with
    | .line task stream bytes =>
      refine (emit_returns _).bind fun _ run' h => ?_
      subst h
      refine (ih _).mono fun _ _ h => ?_
      simpa [List.filterMap_cons, Message.event, Message.outcome] using h
    | .done task (.ok output) elapsed =>
      refine (emit_returns _).bind fun _ run' h => ?_
      subst h
      refine (ih _).bind fun outcomes run' h => Returns.of_eq rfl ?_
      simpa [List.filterMap_cons, Message.event, Message.outcome] using h
    | .done task (.error error) elapsed =>
      refine (emit_returns _).bind fun _ run' h => ?_
      subst h
      refine (ih _).bind fun outcomes run' h => Returns.of_eq rfl ?_
      simpa [List.filterMap_cons, Message.event, Message.outcome] using h

/-! ## Starting the ready tasks -/

def Run.setStatus (run : Run) (index : Nat) (status : TaskStatus) : Run :=
  { run with execution := { run.execution with statuses := run.execution.statuses.set index status } }

def Run.begin (run : Run) (index : Nat) : Run :=
  (run.setStatus index .running).report [.started (some index)]

def startedTask (workflow : Workflow) (index : Nat) : Option StartedTask :=
  (workflow.task index).map fun task => ⟨index, task.request, task.sandbox⟩

theorem startTask_returns {index : Nat} (h : run.execution.isReady index = true) :
    Returns (Stopped world) (startTask world index) run fun task run' =>
      startedTask run.execution.workflow index = some task ∧ run' = run.begin index := by
  obtain ⟨task, htask, hstart⟩ := WorkflowExecution.start_of_isReady h
  have hrun : startTask world index run = (do
      emit world (.started (some index))
      return ⟨index, task.request, task.sandbox⟩ : RunM StartedTask)
        (run.setStatus index .running) := by
    rw [startTask, run_get_bind, hstart]
    rfl
  refine Leads.of_run_eq hrun ?_
  refine (emit_returns _).bind fun _ run' h => Returns.of_eq rfl ⟨?_, h⟩
  rw [startedTask, htask]
  rfl

theorem isReady_begin {i j : Nat} (hij : i ≠ j) (hi : run.execution.isReady i = true)
    (hj : run.execution.isReady j = true) : (run.begin i).execution.isReady j = true := by
  rw [WorkflowExecution.isReady_iff] at hi hj ⊢
  obtain ⟨-, -, hpending, -⟩ := hi
  obtain ⟨task, htask, hstatus, hdeps⟩ := hj
  refine ⟨task, htask, ?_, fun d hd => ?_⟩
  · exact (List.getElem?_set_ne hij).trans hstatus
  · have hne : i ≠ d := by
      rintro rfl
      have := hdeps i hd
      rw [hpending] at this
      cases this
    exact (List.getElem?_set_ne hne).trans (hdeps d hd)

theorem startAll_returns {l : List Nat} (nodup : l.Nodup)
    (ready : ∀ i ∈ l, run.execution.isReady i = true) :
    Returns (Stopped world) (l.mapM (startTask world)) run fun tasks run' =>
      tasks = l.filterMap (startedTask run.execution.workflow) ∧ run' = l.foldl Run.begin run := by
  induction l generalizing run with
  | nil => exact Returns.of_eq rfl ⟨rfl, rfl⟩
  | cons i rest ih =>
    rw [List.nodup_cons] at nodup
    have hi := ready i (by simp)
    rw [List.mapM_cons]
    refine (startTask_returns hi).bind fun task run' ⟨htask, hrun⟩ => ?_
    subst hrun
    have hrest : ∀ j ∈ rest, (run.begin i).execution.isReady j = true := fun j hj =>
      isReady_begin (fun h => nodup.1 (h ▸ hj)) hi (ready j (by simp [hj]))
    refine (ih nodup.2 hrest).bind fun tasks run' ⟨htasks, hrun⟩ => Returns.of_eq rfl ⟨?_, ?_⟩
    · rw [List.filterMap_cons, htask, htasks]
      rfl
    · rw [hrun, List.foldl_cons]

theorem startReadyTasks_returns (world : World) (run : Run) :
    Returns (Stopped world) (startReadyTasks world) run fun tasks run' =>
      tasks = run.execution.ready.filterMap (startedTask run.execution.workflow) ∧
        run' = run.execution.ready.foldl Run.begin run :=
  Leads.of_run_eq run_get_bind (startAll_returns WorkflowExecution.ready_nodup
    fun _ => WorkflowExecution.mem_ready.mp)

theorem foldl_begin (l : List Nat) :
    (l.foldl Run.begin run) = { run with
      execution := { run.execution with
        statuses := l.foldl (fun statuses i => statuses.set i .running) run.execution.statuses }
      events := run.events ++ l.map fun i => .started (some i) } := by
  induction l generalizing run with
  | nil => simp
  | cons i rest ih =>
    rw [List.foldl_cons, ih]
    simp [Run.begin, Run.setStatus, Run.report]

theorem foldl_begin_outputs (l : List Nat) : (l.foldl Run.begin run).outputs = run.outputs := by
  rw [foldl_begin]

theorem getElem?_foldl_set {l : List Nat} {statuses : List TaskStatus} {status : TaskStatus}
    (inRange : ∀ i ∈ l, i < statuses.length) (j : Nat) :
    (l.foldl (fun statuses i => statuses.set i status) statuses)[j]? =
      if j ∈ l then some status else statuses[j]? := by
  induction l generalizing statuses with
  | nil => simp
  | cons i rest ih =>
    rw [List.foldl_cons, ih (by simpa using fun a ha => inRange a (by simp [ha]))]
    by_cases hj : j ∈ rest
    · simp [hj]
    · by_cases hij : j = i
      · subst hij
        simp [hj, inRange j (by simp)]
      · simp [hj, hij, List.getElem?_set_ne (Ne.symm hij)]

/-! ## Recording the outcomes -/

section Recording

variable {reads : List Nat} {result : Nat → Outcome}

/-- The status a task ends with. -/
def statusAfter (outcome : Outcome) : TaskStatus :=
  if taskStatus outcome = 0 then .succeeded else .failed

/-- The exit status of the workflow once the outcome of one more task is known. -/
def exitAfter (exitStatus : Int) : Outcome → Int
  | .ok output =>
    if taskStatus (.ok output) ≠ 0 ∧ exitStatus = 0 then taskStatus (.ok output) else exitStatus
  | .error _ => exitStatus

def outputsAfter (reads : List Nat) (outputs : Nat → Option ProcessOutput) (index : Nat) :
    Outcome → Nat → Option ProcessOutput
  | .ok output => if index ∈ reads then insertOutput outputs index output else outputs
  | .error _ => outputs

def errorAfter (executionError : Option IoError) : Outcome → Option IoError
  | .ok _ => executionError
  | .error error => executionError.or (some error)

/-- A running task is closed with its outcome. -/
def Run.record (reads : List Nat) (result : Nat → Outcome) (run : Run) (index : Nat) : Run :=
  { run.setStatus index (statusAfter (result index)) with
    outputs := outputsAfter reads run.outputs index (result index)
    exitStatus := exitAfter run.exitStatus (result index) }

theorem recordOutcome_eq {index : Nat} {executionError : Option IoError}
    (running : run.execution.statuses[index]? = some .running) :
    recordOutcome reads executionError (some index, result index) run =
      (.ok (errorAfter executionError (result index)), run.record reads result index) := by
  have hcomplete : run.execution.complete index (taskStatus (result index) == 0) =
      some (run.setStatus index (statusAfter (result index))).execution := by
    simp [WorkflowExecution.complete, running, Run.setStatus, statusAfter]
  rw [Run.record]
  generalize result index = outcome at hcomplete ⊢
  rw [recordOutcome, run_get_bind]
  dsimp only
  rw [hcomplete]
  cases outcome <;> rfl

theorem foldlM_recordOutcome {l : List Nat} {executionError : Option IoError} (nodup : l.Nodup)
    (running : ∀ i ∈ l, run.execution.statuses[i]? = some .running) :
    (l.map fun i => (some i, result i)).foldlM (recordOutcome reads) executionError run =
      (.ok (l.foldl (fun error i => errorAfter error (result i)) executionError),
        l.foldl (Run.record reads result) run) := by
  induction l generalizing run executionError with
  | nil => rfl
  | cons i rest ih =>
    rw [List.nodup_cons] at nodup
    have hi : recordOutcome reads executionError (some i, result i) run =
        (.ok (errorAfter executionError (result i)), run.record reads result i) :=
      recordOutcome_eq (running i (by simp))
    rw [List.map_cons, List.foldlM_cons, run_bind_ok hi, ih nodup.2]
    · rfl
    · intro j hj
      have hne : i ≠ j := fun h => nodup.1 (h ▸ hj)
      exact (List.getElem?_set_ne hne).trans (running j (by simp [hj]))

theorem foldl_errorAfter_none {l : List Nat} :
    l.foldl (fun error i => errorAfter error (result i)) none = none ↔
      ∀ i ∈ l, ∃ output, result i = .ok output := by
  have keep : ∀ (l : List Nat) (error : IoError),
      l.foldl (fun error i => errorAfter error (result i)) (some error) = some error := by
    intro l error
    induction l with
    | nil => rfl
    | cons i rest ih => cases h : result i <;> simpa [errorAfter, h] using ih
  induction l with
  | nil => simp
  | cons i rest ih =>
    cases h : result i with
    | ok output => simpa [errorAfter, h] using ih
    | error error =>
      rw [List.foldl_cons, h, show errorAfter none (.error error) = some error from rfl, keep]
      simp [h]

theorem exists_error_of_foldl {l : List Nat} {error : IoError}
    (h : l.foldl (fun error i => errorAfter error (result i)) none = some error) :
    ∃ i ∈ l, ∃ error, result i = .error error := by
  by_contra hnone
  have hall : ∀ i ∈ l, ∃ output, result i = .ok output := by
    intro i hi
    cases hi' : result i with
    | ok output => exact ⟨output, rfl⟩
    | error error => exact absurd ⟨i, hi, error, hi'⟩ hnone
  rw [foldl_errorAfter_none.mpr hall] at h
  cases h

theorem foldl_record_execution (l : List Nat) :
    (l.foldl (Run.record reads result) run).execution.workflow = run.execution.workflow := by
  induction l generalizing run with
  | nil => rfl
  | cons i rest ih => exact ih

theorem foldl_record_events (l : List Nat) :
    (l.foldl (Run.record reads result) run).events = run.events := by
  induction l generalizing run with
  | nil => rfl
  | cons i rest ih => exact ih

theorem foldl_record_length (l : List Nat) :
    (l.foldl (Run.record reads result) run).execution.statuses.length =
      run.execution.statuses.length := by
  induction l generalizing run with
  | nil => rfl
  | cons i rest ih => exact ih.trans (List.length_set ..)

theorem foldl_record_exitStatus (l : List Nat) :
    (l.foldl (Run.record reads result) run).exitStatus =
      l.foldl (fun status i => exitAfter status (result i)) run.exitStatus := by
  induction l generalizing run with
  | nil => rfl
  | cons i rest ih => exact ih

theorem foldl_record_status {l : List Nat}
    (inRange : ∀ i ∈ l, i < run.execution.statuses.length) (j : Nat) :
    (l.foldl (Run.record reads result) run).execution.statuses[j]? =
      if j ∈ l then some (statusAfter (result j)) else run.execution.statuses[j]? := by
  induction l generalizing run with
  | nil => simp
  | cons i rest ih =>
    rw [List.foldl_cons, ih (by
      intro a ha
      exact (inRange a (by simp [ha])).trans_eq (List.length_set ..).symm)]
    by_cases hj : j ∈ rest
    · simp [hj]
    · by_cases hij : j = i
      · subst hij
        simp [hj, Run.record, Run.setStatus, inRange j (by simp)]
      · simp [hj, hij, Run.record, Run.setStatus, List.getElem?_set_ne (Ne.symm hij)]

theorem outputsAfter_ne {outputs : Nat → Option ProcessOutput} {i j : Nat} (hij : j ≠ i)
    (outcome : Outcome) : outputsAfter reads outputs i outcome j = outputs j := by
  cases outcome with
  | error error => rfl
  | ok output =>
    rw [outputsAfter]
    split
    · rw [insertOutput, if_neg hij]
    · rfl

theorem outputsAfter_self {outputs : Nat → Option ProcessOutput} {i : Nat} {output : ProcessOutput}
    (hi : i ∈ reads) : outputsAfter reads outputs i (.ok output) i = some output := by
  rw [outputsAfter, if_pos hi, insertOutput, if_pos rfl]

theorem foldl_record_outputs_of_notMem {l : List Nat} {j : Nat} (hj : j ∉ l) :
    (l.foldl (Run.record reads result) run).outputs j = run.outputs j := by
  induction l generalizing run with
  | nil => rfl
  | cons i rest ih =>
    rw [List.mem_cons, not_or] at hj
    exact (ih hj.2).trans (outputsAfter_ne hj.1 _)

theorem foldl_record_outputs_of_mem {l : List Nat} {j : Nat} {output : ProcessOutput}
    (nodup : l.Nodup) (hj : j ∈ l) (hread : j ∈ reads) (hresult : result j = .ok output) :
    (l.foldl (Run.record reads result) run).outputs j = some output := by
  induction l generalizing run with
  | nil => cases hj
  | cons i rest ih =>
    rw [List.nodup_cons] at nodup
    rw [List.foldl_cons]
    rcases List.mem_cons.mp hj with rfl | hj
    · rw [foldl_record_outputs_of_notMem nodup.1, Run.record, hresult]
      exact outputsAfter_self hread
    · exact ih nodup.2 hj

end Recording

/-! ## What the threads hand over -/

/-- The messages of the tasks in `l`, each of which ends with its entry of `result`. -/
structure Collected (l : List Nat) (messages : List Message) (result : Nat → Outcome) : Prop where
  known : ∀ message ∈ messages, ∃ i ∈ l, message.task = some i
  whole : ∀ i ∈ l, ∃ lines elapsed, (∀ line ∈ lines, line.isLine = true) ∧
    messages.filter (·.task = some i) = lines ++ [.done (some i) (result i) elapsed]

theorem Interleaves.collected {jobs : List Job} {messages : List Message} {l : List Nat}
    (tasks : jobs.map (·.task) = l.map some) (h : Interleaves jobs messages) :
    ∃ result, Collected l messages result := by
  have hjob : ∀ i ∈ l, ∃ job ∈ jobs, job.task = some i := fun i hi =>
    List.mem_map.mp (tasks ▸ List.mem_map_of_mem hi)
  have whole : ∀ i : Nat, ∃ result : Outcome, i ∈ l → ∃ lines elapsed,
      (∀ line ∈ lines, line.isLine = true) ∧
        messages.filter (·.task = some i) = lines ++ [.done (some i) result elapsed] := by
    intro i
    by_cases hi : i ∈ l
    · obtain ⟨job, hjob, htask⟩ := hjob i hi
      obtain ⟨lines, result, elapsed, hlines, hfilter⟩ := h.whole job hjob
      rw [htask] at hfilter
      exact ⟨result, fun _ => ⟨lines, elapsed, hlines, hfilter⟩⟩
    · exact ⟨.ok ⟨none, [], []⟩, fun h => absurd h hi⟩
  choose result hresult using whole
  refine ⟨result, fun message hmessage => ?_, hresult⟩
  obtain ⟨job, hjob, htask⟩ := h.known message hmessage
  have : job.task ∈ l.map some := tasks ▸ List.mem_map_of_mem hjob
  obtain ⟨i, hi, his⟩ := List.mem_map.mp this
  exact ⟨i, hi, (his.trans htask).symm⟩

/-- Sorted by position, the outcomes no longer show the order of completion. -/
theorem Collected.sorted {l : List Nat} {messages : List Message} {result : Nat → Outcome}
    (sorted : l.Pairwise (· < ·)) (h : Collected l messages result) :
    (messages.filterMap Message.outcome).insertionSort
        (fun a b => positionOf a.1 ≤ positionOf b.1) = l.map fun i => (some i, result i) := by
  refine insertionSort_eq_of_perm ?_ ?_
  · have hparts : messages.Perm ((l.map some).flatMap fun task =>
        messages.filter (·.task = task)) := by
      refine perm_flatMap_filter ?_ fun message hmessage => ?_
      · exact (sorted.imp Nat.ne_of_lt).map _ fun a b h h' => h (Option.some.inj h')
      · obtain ⟨i, hi, his⟩ := h.known message hmessage
        exact his ▸ List.mem_map_of_mem hi
    refine (hparts.filterMap _).trans (.of_eq ?_)
    rw [List.filterMap_flatMap, List.flatMap_map, List.map_eq_flatMap]
    refine List.flatMap_congr fun i hi => ?_
    obtain ⟨lines, elapsed, hlines, hfilter⟩ := h.whole i hi
    have hnone : lines.filterMap Message.outcome = [] := by
      rw [List.filterMap_eq_nil_iff]
      intro line hline
      cases line with
      | line => rfl
      | done => cases hlines _ hline
    rw [hfilter, List.filterMap_append, hnone]
    rfl
  · exact List.pairwise_map.mpr sorted

/-- `Err` with the execution error when there is one. -/
def resultAfter (executionError : Option IoError) : Except IoError Unit :=
  executionError.elim (.ok ()) .error

theorem recordOutcomes_eq (run : Run) (reads : List Nat) {l : List Nat} {result : Nat → Outcome}
    {outcomes : List (Option Nat × Outcome)} (nodup : l.Nodup)
    (sorted : outcomes.insertionSort (fun a b => positionOf a.1 ≤ positionOf b.1) =
      l.map fun i => (some i, result i))
    (running : ∀ i ∈ l, run.execution.statuses[i]? = some .running) :
    recordOutcomes reads outcomes run =
      (resultAfter (l.foldl (fun error i => errorAfter error (result i)) none),
        l.foldl (Run.record reads result) run) := by
  rw [recordOutcomes, sorted, run_bind_ok (foldlM_recordOutcome nodup running)]
  cases l.foldl (fun error i => errorAfter error (result i)) none <;> rfl

/-! ## The whole turn -/

/-- The run after the tasks in `l` ran side by side. -/
def Run.wave (run : Run) (workflow : Workflow) (l : List Nat) (messages : List Message)
    (result : Nat → Outcome) : Run :=
  l.foldl (Run.record (readTasks workflow) result)
    ((l.foldl Run.begin run).report (messages.map Message.event))

/-- What one turn makes of `run`. -/
inductive Turned (world : World) (workflow : Workflow) (run : Run) :
    Except IoError (Option Int) → Run → Prop
  | stalled (stuck : run.execution.ready = []) :
    Turned world workflow run (.ok (some run.exitStatus))
      (run.report (run.execution.pending.map .blocked))
  | wave {events : List RunEvent} {jobs : List Job} {result : Nat → Outcome}
    (busy : run.execution.ready ≠ [])
    (collected : Collected run.execution.ready (world.deliver events jobs) result)
    (healthy : ∀ i ∈ run.execution.ready, ∃ output, result i = .ok output) :
    Turned world workflow run (.ok none)
      (run.wave workflow run.execution.ready (world.deliver events jobs) result)
  | failed {events : List RunEvent} {jobs : List Job} {result : Nat → Outcome} {error : IoError}
    (collected : Collected run.execution.ready (world.deliver events jobs) result)
    (unhealthy : ∃ i ∈ run.execution.ready, ∃ error, result i = .error error) :
    Turned world workflow run (.error error)
      (run.wave workflow run.execution.ready (world.deliver events jobs) result)

theorem startedTasks_eq_nil {workflow : Workflow} {l : List Nat}
    (inRange : ∀ i ∈ l, i < workflow.tasks.length) :
    l.filterMap (startedTask workflow) = [] ↔ l = [] := by
  rw [List.filterMap_eq_nil_iff]
  constructor
  · intro h
    refine List.eq_nil_iff_forall_not_mem.mpr fun i hi => ?_
    have := h i hi
    simp [startedTask, Workflow.task, inRange i hi] at this
  · rintro rfl i hi
    cases hi

theorem startedTasks_index {workflow : Workflow} {l : List Nat}
    (inRange : ∀ i ∈ l, i < workflow.tasks.length) :
    (l.filterMap (startedTask workflow)).map (·.index) = l := by
  induction l with
  | nil => rfl
  | cons i rest ih =>
    have hi : workflow.task i = some (workflow.tasks.get ⟨i, inRange i (by simp)⟩) :=
      List.getElem?_eq_getElem _
    rw [List.filterMap_cons, startedTask, hi]
    simp [ih fun a ha => inRange a (by simp [ha])]

theorem prepare_task {workflow : Workflow} {outputs : Nat → Option ProcessOutput}
    {task : StartedTask} {job : Job} (h : prepare workflow outputs task = .ok job) :
    job.task = some task.index := by
  rw [prepare, bind_eq_ok] at h
  obtain ⟨request, -, h⟩ := h
  rw [pure_eq_ok] at h
  rw [← h]

theorem prepared_index {workflow : Workflow} {outputs : Nat → Option ProcessOutput}
    {tasks : List StartedTask} {jobs : List Job}
    (h : tasks.mapM (prepare workflow outputs) = .ok jobs) :
    jobs.map (·.task) = tasks.map fun task => some task.index := by
  have := mapM_eq_ok h
  clear h
  induction this with
  | nil => rfl
  | cons hab _ ih => simp [prepare_task hab, ih]

theorem prepared_tasks {workflow : Workflow} {outputs : Nat → Option ProcessOutput} {l : List Nat}
    {jobs : List Job} (inRange : ∀ i ∈ l, i < workflow.tasks.length)
    (h : (l.filterMap (startedTask workflow)).mapM (prepare workflow outputs) = .ok jobs) :
    jobs.map (·.task) = l.map some := by
  conv_rhs => rw [← startedTasks_index inRange]
  rw [prepared_index h, List.map_map]
  rfl

theorem prepared_apart {workflow : Workflow} {outputs : Nat → Option ProcessOutput}
    {jobs : List Job} (inRange : ∀ i ∈ run.execution.ready, i < workflow.tasks.length)
    (h : (run.execution.ready.filterMap (startedTask workflow)).mapM (prepare workflow outputs) =
      .ok jobs) : (jobs.map (·.task)).Nodup := by
  rw [prepared_tasks inRange h]
  exact WorkflowExecution.ready_nodup.map (Option.some_injective _)

/-- What the loop records once the channel is empty. -/
theorem recordOutcomes_wave (workflow : Workflow) {messages : List Message}
    {result : Nat → Outcome} (inRange : ∀ i ∈ run.execution.ready, i < run.execution.statuses.length)
    (collected : Collected run.execution.ready messages result) :
    recordOutcomes (readTasks workflow) (messages.filterMap Message.outcome)
        ((run.execution.ready.foldl Run.begin run).report (messages.map Message.event)) =
      (resultAfter (run.execution.ready.foldl (fun error i => errorAfter error (result i)) none),
        run.wave workflow run.execution.ready messages result) := by
  refine recordOutcomes_eq _ _ WorkflowExecution.ready_nodup
    (collected.sorted WorkflowExecution.ready_sorted) ?_
  intro i hi
  rw [Run.report, foldl_begin]
  exact (getElem?_foldl_set inRange i).trans (if_pos hi)

theorem turn_stalls {workflow : Workflow} (hready : run.execution.ready = []) :
    Leads (Stopped world)
      (do
        forM (← get).execution.pending fun index => emit world (.blocked index)
        return some (← get).exitStatus) run
      (Turned world workflow run) := by
  refine Leads.of_run_eq run_get_bind ?_
  refine (emitAll_returns .blocked run.execution.pending).bind fun _ run' hrun' => ?_
  subst hrun'
  exact .inl (.stalled hready)

theorem turn_records (workflow : Workflow) {events : List RunEvent} {jobs : List Job}
    {result : Nat → Outcome} (hready : run.execution.ready ≠ [])
    (inRange : ∀ i ∈ run.execution.ready, i < run.execution.statuses.length)
    (collected : Collected run.execution.ready (world.deliver events jobs) result) :
    Leads (Stopped world)
      (do
        recordOutcomes (readTasks workflow) ((world.deliver events jobs).filterMap Message.outcome)
        return none)
      ((run.execution.ready.foldl Run.begin run).report
        ((world.deliver events jobs).map Message.event))
      (Turned world workflow run) := by
  have hrecord := recordOutcomes_wave workflow inRange collected
  cases hfold : run.execution.ready.foldl (fun error i => errorAfter error (result i)) none with
  | none =>
    rw [hfold] at hrecord
    refine Leads.of_run_eq (run_bind_ok hrecord) (.inl ?_)
    exact .wave hready collected (foldl_errorAfter_none.mp hfold)
  | some error =>
    rw [hfold] at hrecord
    refine .inl ?_
    rw [run_bind_error hrecord]
    exact .failed collected (exists_error_of_foldl hfold)

theorem turn_leads {workflow : Workflow} (delivers : world.Delivers)
    (hworkflow : run.execution.workflow = workflow)
    (inRange : workflow.tasks.length = run.execution.statuses.length)
    (prepared : ∀ task ∈ run.execution.ready.filterMap (startedTask workflow),
      ∃ job, prepare workflow run.outputs task = .ok job) :
    Leads (Stopped world) (turn world workflow) run (Turned world workflow run) := by
  have hrange : ∀ i ∈ run.execution.ready, i < workflow.tasks.length := by
    intro i hi
    rw [WorkflowExecution.ready, hworkflow, List.mem_filter, List.mem_range] at hi
    exact hi.1
  have hstart := startReadyTasks_returns world run
  rw [hworkflow] at hstart
  refine Returns.bind hstart fun tasks run' h => ?_
  obtain ⟨rfl, hrun'⟩ := h
  by_cases hready : run.execution.ready = []
  · rw [if_pos ((startedTasks_eq_nil hrange).mpr hready)]
    have hsame : run' = run := by rw [hrun', hready, List.foldl_nil]
    rw [hsame]
    exact turn_stalls hready
  · rw [if_neg fun h => hready ((startedTasks_eq_nil hrange).mp h)]
    obtain ⟨jobs, hjobs⟩ := mapM_isOk prepared
    have houtputs : run'.outputs = run.outputs := by rw [hrun', foldl_begin_outputs]
    refine Leads.of_run_eq run_get_bind ?_
    rw [houtputs, hjobs]
    refine Leads.of_run_eq (run_bind_ok run_lift_ok) ?_
    obtain ⟨result, collected⟩ := (delivers run'.events jobs (prepared_apart hrange hjobs)).collected
      (prepared_tasks hrange hjobs)
    have hreceive := receive_returns world run' (world.deliver run'.events jobs)
    refine Returns.bind (Leads.of_run_eq run_get_bind hreceive) fun outcomes run'' h => ?_
    obtain ⟨rfl, rfl⟩ := h
    have hrecords := turn_records workflow hready
      (fun i hi => inRange ▸ hrange i hi) collected
    rwa [← hrun'] at hrecords

end Beez.Runner
