import Beez.Runner.Wave

/-! # What holds between two turns of the runner -/

open Beez.Core Beez.Lib

namespace Beez.Runner

/-! ## The life of one task -/

/-- What was reported about one task. -/
def eventsOf (task : Nat) (events : List RunEvent) : List RunEvent :=
  events.filter (·.task = some task)

/-- Everything that is reported about a task that runs: its start, its lines, its end. -/
def Ran (task : Nat) (outcome : Outcome) (events : List RunEvent) : Prop :=
  ∃ lines elapsed, (∀ line ∈ lines, Message.isLine line = true) ∧
    eventsOf task events =
      .started (some task) :: (lines ++ [.done (some task) outcome elapsed]).map Message.event

/-- A task finished with status 0. -/
def Passed (task : Nat) (events : List RunEvent) : Prop :=
  ∃ output elapsed, .finished (some task) output elapsed ∈ events ∧ output.statusCode = some 0

/-- Every task started after each of its dependencies had passed. -/
def Ordered (workflow : Workflow) (events : List RunEvent) : Prop :=
  ∀ before after task, events = before ++ .started (some task) :: after →
    ∀ d ∈ workflow.dependencies task, Passed d before

theorem Message.event_task (message : Message) : message.event.task = message.task := by
  match message with
  | .line .. => rfl
  | .done _ (.ok _) _ => rfl
  | .done _ (.error _) _ => rfl

theorem Message.event_ne_started (message : Message) (task : Option Nat) :
    message.event ≠ .started task := by
  match message with
  | .line .. => simp [Message.event]
  | .done _ (.ok _) _ => simp [Message.event]
  | .done _ (.error _) _ => simp [Message.event]

theorem eventsOf_cons (task : Nat) (event : RunEvent) (rest : List RunEvent) :
    eventsOf task (event :: rest) =
      if event.task = some task then event :: eventsOf task rest else eventsOf task rest := by
  simp [eventsOf, List.filter_cons]

theorem eventsOf_append (task : Nat) (a b : List RunEvent) :
    eventsOf task (a ++ b) = eventsOf task a ++ eventsOf task b :=
  List.filter_append ..

theorem eventsOf_messages (task : Nat) (messages : List Message) :
    eventsOf task (messages.map Message.event) =
      (messages.filter (·.task = some task)).map Message.event := by
  rw [eventsOf, List.filter_map]
  congr 1
  refine List.filter_congr fun message _ => ?_
  simp [Message.event_task]

theorem eventsOf_map (make : Nat → RunEvent) (hmake : ∀ i, (make i).task = some i) {l : List Nat}
    (nodup : l.Nodup) (task : Nat) :
    eventsOf task (l.map make) = if task ∈ l then [make task] else [] := by
  induction l with
  | nil => rfl
  | cons i rest ih =>
    rw [List.nodup_cons] at nodup
    have ih := ih nodup.2
    rw [eventsOf] at ih
    rw [List.map_cons, eventsOf, List.filter_cons, hmake, ih]
    by_cases htask : task = i
    · subst htask
      simp [nodup.1]
    · simp [htask, Ne.symm htask]

theorem Ran.passed {task : Nat} {output : ProcessOutput} {events : List RunEvent}
    (h : Ran task (.ok output) events) (hstatus : output.statusCode = some 0) :
    Passed task events := by
  obtain ⟨lines, elapsed, -, hevents⟩ := h
  refine ⟨output, elapsed, ?_, hstatus⟩
  have : .finished (some task) output elapsed ∈ eventsOf task events := by
    rw [hevents]
    simp [Message.event]
  exact List.mem_of_mem_filter this

theorem Passed.append {task : Nat} {a b : List RunEvent} (h : Passed task a) :
    Passed task (a ++ b) := by
  obtain ⟨output, elapsed, hmem, hstatus⟩ := h
  exact ⟨output, elapsed, List.mem_append_left _ hmem, hstatus⟩

theorem Ordered.append {workflow : Workflow} {a b : List RunEvent} (h : Ordered workflow a)
    (hb : ∀ task, .started (some task) ∈ b → ∀ d ∈ workflow.dependencies task, Passed d a) :
    Ordered workflow (a ++ b) := by
  intro before after task heq d hd
  rw [List.append_eq_append_iff] at heq
  rcases heq with ⟨more, rfl, hmore⟩ | ⟨more, rfl, hmore⟩
  · exact (hb task (by simp [hmore]) d hd).append
  · cases more with
    | nil =>
      rw [List.nil_append] at hmore
      simpa using hb task (by simp [← hmore]) d hd
    | cons event rest =>
      rw [List.cons_append, List.cons.injEq] at hmore
      obtain ⟨rfl, -⟩ := hmore
      exact h before rest task rfl d hd

/-! ## One wave of tasks -/

section Wave

variable {workflow : Workflow} {run : Run} {l : List Nat} {messages : List Message}
  {result : Nat → Outcome}

theorem wave_events : (run.wave workflow l messages result).events =
    run.events ++ (l.map (fun i => .started (some i)) ++ messages.map Message.event) := by
  rw [Run.wave, foldl_record_events, Run.report, foldl_begin]
  simp

theorem wave_workflow :
    (run.wave workflow l messages result).execution.workflow = run.execution.workflow := by
  rw [Run.wave, foldl_record_execution, Run.report, foldl_begin]

theorem foldl_begin_length (l : List Nat) :
    (l.foldl Run.begin run).execution.statuses.length = run.execution.statuses.length := by
  induction l generalizing run with
  | nil => rfl
  | cons i rest ih => exact ih.trans (List.length_set ..)

theorem wave_length : (run.wave workflow l messages result).execution.statuses.length =
    run.execution.statuses.length := by
  rw [Run.wave, foldl_record_length]
  exact foldl_begin_length l

theorem wave_status (inRange : ∀ i ∈ l, i < run.execution.statuses.length) (j : Nat) :
    (run.wave workflow l messages result).execution.statuses[j]? =
      if j ∈ l then some (statusAfter (result j)) else run.execution.statuses[j]? := by
  have hstart :
      ((l.foldl Run.begin run).report (messages.map Message.event)).execution.statuses[j]? =
        if j ∈ l then some .running else run.execution.statuses[j]? := by
    rw [Run.report, foldl_begin]
    exact getElem?_foldl_set inRange j
  rw [Run.wave, foldl_record_status, hstart]
  · split <;> rfl
  · intro i hi
    exact (inRange i hi).trans_eq (foldl_begin_length l).symm

theorem wave_outputs_of_notMem {j : Nat} (hj : j ∉ l) :
    (run.wave workflow l messages result).outputs j = run.outputs j := by
  rw [Run.wave, foldl_record_outputs_of_notMem hj, Run.report, foldl_begin]

theorem wave_outputs_of_mem {j : Nat} {output : ProcessOutput} (nodup : l.Nodup) (hj : j ∈ l)
    (hread : j ∈ readTasks workflow) (hresult : result j = .ok output) :
    (run.wave workflow l messages result).outputs j = some output := by
  rw [Run.wave, foldl_record_outputs_of_mem nodup hj hread hresult]

theorem wave_exitStatus : (run.wave workflow l messages result).exitStatus =
    l.foldl (fun status i => exitAfter status (result i)) run.exitStatus := by
  rw [Run.wave, foldl_record_exitStatus, Run.report, foldl_begin]

theorem wave_eventsOf_of_notMem (nodup : l.Nodup) (collected : Collected l messages result)
    {j : Nat} (hj : j ∉ l) :
    eventsOf j (run.wave workflow l messages result).events = eventsOf j run.events := by
  have hnone : messages.filter (·.task = some j) = [] := by
    rw [List.filter_eq_nil_iff]
    intro message hmessage
    obtain ⟨i, hi, his⟩ := collected.known message hmessage
    rw [his]
    rintro h
    simp only [Option.some.injEq, decide_eq_true_eq] at h
    exact hj (h ▸ hi)
  rw [wave_events, eventsOf_append, eventsOf_append, eventsOf_map _ (fun _ => rfl) nodup,
    eventsOf_messages, hnone, if_neg hj]
  simp

theorem wave_ran (nodup : l.Nodup) (collected : Collected l messages result) {j : Nat} (hj : j ∈ l)
    (fresh : eventsOf j run.events = []) :
    Ran j (result j) (run.wave workflow l messages result).events := by
  obtain ⟨lines, elapsed, hlines, hfilter⟩ := collected.whole j hj
  refine ⟨lines, elapsed, hlines, ?_⟩
  rw [wave_events, eventsOf_append, eventsOf_append, eventsOf_map _ (fun _ => rfl) nodup,
    eventsOf_messages, hfilter, if_pos hj, fresh]
  simp

theorem wave_known {n : Nat} (collected : Collected l messages result)
    (known : ∀ event ∈ run.events, ∃ i < n, event.task = some i) (inRange : ∀ i ∈ l, i < n) :
    ∀ event ∈ (run.wave workflow l messages result).events, ∃ i < n, event.task = some i := by
  intro event hevent
  rw [wave_events, List.mem_append, List.mem_append, List.mem_map, List.mem_map] at hevent
  rcases hevent with hevent | ⟨i, hi, rfl⟩ | ⟨message, hmessage, rfl⟩
  · exact known event hevent
  · exact ⟨i, inRange i hi, rfl⟩
  · obtain ⟨i, hi, his⟩ := collected.known message hmessage
    exact ⟨i, inRange i hi, message.event_task.trans his⟩

theorem wave_ordered (ordered : Ordered workflow run.events)
    (passed : ∀ i ∈ l, ∀ d ∈ workflow.dependencies i, Passed d run.events) :
    Ordered workflow (run.wave workflow l messages result).events := by
  rw [wave_events]
  refine ordered.append fun task htask => ?_
  rw [List.mem_append, List.mem_map, List.mem_map] at htask
  rcases htask with ⟨i, hi, heq⟩ | ⟨message, -, heq⟩
  · simp only [RunEvent.started.injEq, Option.some.injEq] at heq
    exact heq ▸ passed i hi
  · exact absurd heq (message.event_ne_started _)

end Wave

/-! ## Between two turns -/

/-- No task runs, and what was reported tells the statuses apart. -/
structure Settled (workflow : Workflow) (run : Run) : Prop where
  same : run.execution.workflow = workflow
  length : workflow.tasks.length = run.execution.statuses.length
  still : ∀ i : Nat, run.execution.statuses[i]? ≠ some .running
  fresh : ∀ i : Nat, run.execution.statuses[i]? = some .pending → eventsOf i run.events = []
  known : ∀ event ∈ run.events, ∃ i < workflow.tasks.length, event.task = some i
  succeeded : ∀ i : Nat, run.execution.statuses[i]? = some .succeeded → ∃ output : ProcessOutput,
    output.statusCode = some 0 ∧ Ran i (.ok output) run.events ∧
      (i ∈ readTasks workflow → run.outputs i = some output)
  failed : ∀ i : Nat, run.execution.statuses[i]? = some .failed → ∃ output : ProcessOutput,
    output.statusCode ≠ some 0 ∧ Ran i (.ok output) run.events
  ordered : Ordered workflow run.events

theorem settled_initial (workflow : Workflow) : Settled workflow (Run.initial workflow) := by
  have hpending : ∀ i : Nat, ∀ status, (Run.initial workflow).execution.statuses[i]? = some status →
      status = .pending := by
    intro i status h
    rw [Run.initial, Workflow.execution, List.getElem?_replicate] at h
    split at h
    · exact (Option.some.inj h).symm
    · cases h
  refine ⟨rfl, ?_, fun i h => ?_, fun _ _ => rfl, fun _ h => ?_, fun i h => ?_, fun i h => ?_, ?_⟩
  · simp [Run.initial, Workflow.execution]
  · cases hpending i _ h
  · cases h
  · cases hpending i _ h
  · cases hpending i _ h
  · intro before after task h
    simp [Run.initial] at h

section Settled

variable {workflow : Workflow} {run : Run}

theorem Settled.ready_dependencies (settled : Settled workflow run) {i : Nat}
    (hi : i ∈ run.execution.ready) :
    run.execution.statuses[i]? = some .pending ∧
      ∀ d ∈ workflow.dependencies i, run.execution.statuses[d]? = some .succeeded := by
  obtain ⟨task, htask, hpending, hdeps⟩ :=
    WorkflowExecution.isReady_iff.mp (WorkflowExecution.mem_ready.mp hi)
  refine ⟨hpending, fun d hd => hdeps d ?_⟩
  rw [settled.same, Workflow.task] at htask
  rwa [Workflow.dependencies, dependenciesAt, htask] at hd

theorem taskStatus_eq_zero {output : ProcessOutput} :
    taskStatus (.ok output) = 0 ↔ output.statusCode = some 0 := by
  cases h : output.statusCode with
  | none => simp [taskStatus, h]
  | some code => simp [taskStatus, h]

theorem statusAfter_eq_succeeded {output : ProcessOutput} :
    statusAfter (.ok output) = .succeeded ↔ output.statusCode = some 0 := by
  rw [← taskStatus_eq_zero, statusAfter]
  split <;> simp_all

theorem statusAfter_eq_failed {output : ProcessOutput} :
    statusAfter (.ok output) = .failed ↔ output.statusCode ≠ some 0 := by
  rw [ne_eq, ← taskStatus_eq_zero, statusAfter]
  split <;> simp_all

theorem statusAfter_ended {outcome : Outcome} {status : TaskStatus}
    (h : statusAfter outcome = status) : status = .succeeded ∨ status = .failed := by
  subst h
  unfold statusAfter
  split
  · exact .inl rfl
  · exact .inr rfl

section

variable {messages : List Message} {result : Nat → Outcome}

/-- A task has just run, or it has the status that it had. -/
theorem wave_status_cases {j : Nat} {status : TaskStatus}
    (h : (run.wave workflow run.execution.ready messages result).execution.statuses[j]? =
      some status) :
    (j ∈ run.execution.ready ∧ statusAfter (result j) = status) ∨
      (j ∉ run.execution.ready ∧ run.execution.statuses[j]? = some status) := by
  rw [wave_status fun _ => WorkflowExecution.lt_of_mem_ready] at h
  split at h
  · next hj => exact .inl ⟨hj, Option.some.inj h⟩
  · next hj => exact .inr ⟨hj, h⟩

theorem Ran.wave {j : Nat} {outcome : Outcome} (ran : Ran j outcome run.events)
    (collected : Collected run.execution.ready messages result) (hj : j ∉ run.execution.ready) :
    Ran j outcome (run.wave workflow run.execution.ready messages result).events := by
  obtain ⟨lines, elapsed, hlines, hevents⟩ := ran
  refine ⟨lines, elapsed, hlines, ?_⟩
  rw [wave_eventsOf_of_notMem WorkflowExecution.ready_nodup collected hj, hevents]

theorem Settled.wave_ran (settled : Settled workflow run)
    (collected : Collected run.execution.ready messages result) {j : Nat}
    (hj : j ∈ run.execution.ready) :
    Ran j (result j) (run.wave workflow run.execution.ready messages result).events :=
  Runner.wave_ran WorkflowExecution.ready_nodup collected hj
    (settled.fresh j (settled.ready_dependencies hj).1)

theorem Settled.wave (settled : Settled workflow run)
    (collected : Collected run.execution.ready messages result)
    (healthy : ∀ i ∈ run.execution.ready, ∃ output, result i = .ok output) :
    Settled workflow (run.wave workflow run.execution.ready messages result) := by
  refine ⟨?_, ?_, fun i h => ?_, fun i h => ?_, ?_, fun i h => ?_, fun i h => ?_, ?_⟩
  · rw [wave_workflow, settled.same]
  · rw [wave_length, settled.length]
  · rcases wave_status_cases h with ⟨-, h⟩ | ⟨-, h⟩
    · rcases statusAfter_ended h with hended | hended
      · cases hended
      · cases hended
    · exact settled.still i h
  · rcases wave_status_cases h with ⟨-, h⟩ | ⟨hi, h⟩
    · rcases statusAfter_ended h with hended | hended
      · cases hended
      · cases hended
    · rw [wave_eventsOf_of_notMem WorkflowExecution.ready_nodup collected hi, settled.fresh i h]
  · exact wave_known collected settled.known fun i hi =>
      settled.length ▸ WorkflowExecution.lt_of_mem_ready hi
  · rcases wave_status_cases h with ⟨hi, h⟩ | ⟨hi, h⟩
    · obtain ⟨output, houtput⟩ := healthy i hi
      rw [houtput] at h
      refine ⟨output, statusAfter_eq_succeeded.mp h, houtput ▸ settled.wave_ran collected hi, ?_⟩
      intro hread
      exact wave_outputs_of_mem WorkflowExecution.ready_nodup hi hread houtput
    · obtain ⟨output, hzero, hran, hread⟩ := settled.succeeded i h
      refine ⟨output, hzero, hran.wave collected hi, ?_⟩
      intro h
      rw [wave_outputs_of_notMem hi, hread h]
  · rcases wave_status_cases h with ⟨hi, h⟩ | ⟨hi, h⟩
    · obtain ⟨output, houtput⟩ := healthy i hi
      rw [houtput] at h
      exact ⟨output, statusAfter_eq_failed.mp h, houtput ▸ settled.wave_ran collected hi⟩
    · obtain ⟨output, hzero, hran⟩ := settled.failed i h
      exact ⟨output, hzero, hran.wave collected hi⟩
  · refine wave_ordered settled.ordered fun i hi d hd => ?_
    obtain ⟨output, hzero, hran, -⟩ :=
      settled.succeeded d ((settled.ready_dependencies hi).2 d hd)
    exact hran.passed hzero

end

end Settled

end Beez.Runner
