import Beez.Runner.Outcome

/-! # What a run leaves on record -/

open Beez.Core Beez.Lib Beez.Runner

namespace Beez.Record

/-! ## Outcomes and their tally -/

/-- What happened to one task. -/
inductive TaskOutcome where
  | started
  | finished (exitStatus : Option Int) (elapsed : Nat)
  | failed (error : ErrorKind) (elapsed : Nat)
  | blocked
deriving DecidableEq

namespace TaskOutcome

/-- What one event says about its task. -/
def of : RunEvent → Option TaskOutcome
  | .output .. => none
  | .started _ => some .started
  | .blocked _ => some .blocked
  | .finished _ output elapsed => some (.finished output.statusCode elapsed)
  | .failed _ errorKind elapsed => some (.failed errorKind elapsed)

def succeeded : TaskOutcome → Bool
  | .finished (some 0) _ => true
  | _ => false

def state : TaskOutcome → String
  | .started => "running"
  | .finished exitStatus elapsed =>
    if succeeded (.finished exitStatus elapsed) then "finished" else "failed"
  | .failed .. => "failed"
  | .blocked => "blocked"

end TaskOutcome

/-- How many tasks of one run passed, failed and never ran. -/
structure RunTally where
  passed : Nat
  failed : Nat
  blocked : Nat
deriving DecidableEq

namespace RunTally

def zero : RunTally := ⟨0, 0, 0⟩

def add (tally : RunTally) : TaskOutcome → RunTally
  | .finished exitStatus elapsed =>
    if TaskOutcome.succeeded (.finished exitStatus elapsed) then
      { tally with passed := tally.passed + 1 }
    else { tally with failed := tally.failed + 1 }
  | .failed .. => { tally with failed := tally.failed + 1 }
  | .blocked => { tally with blocked := tally.blocked + 1 }
  | .started => tally

def record (tally : RunTally) (event : RunEvent) : RunTally :=
  match TaskOutcome.of event with
  | some outcome => tally.add outcome
  | none => tally

def total (tally : RunTally) : Nat := tally.passed + tally.failed + tally.blocked

end RunTally

/-! ## The record of each task -/

structure TaskRecord where
  id : Text
  state : String
  exitStatus : Option Int
  duration : Option Nat
  error : Option ErrorKind
deriving DecidableEq

/-- The record of a task before it runs. -/
def taskRecord (id : Text) : TaskRecord := ⟨id, "pending", none, none, none⟩

def TaskRecord.outcome (record : TaskRecord) (outcome : TaskOutcome) : TaskRecord :=
  let record := { record with state := outcome.state }
  match outcome with
  | .finished exitStatus elapsed => { record with exitStatus, duration := some elapsed }
  | .failed error elapsed => { record with error := some error, duration := some elapsed }
  | .started | .blocked => record

/-- The part of the run log that becomes the run record, one entry for each task. -/
structure RunLog where
  tasks : List TaskRecord

/-- The record of every task before it runs, in declaration order. -/
def RunLog.ofWorkflow (workflow : Workflow) : RunLog :=
  ⟨workflow.tasks.map fun task => taskRecord task.id.text⟩

def RunLog.outcome (log : RunLog) (index : Nat) (outcome : TaskOutcome) : RunLog :=
  ⟨log.tasks.modify index (·.outcome outcome)⟩

/-- Records one lifecycle event. Output lines go to the streams only. -/
def RunLog.event (log : RunLog) (event : RunEvent) : RunLog :=
  match TaskOutcome.of event with
  | some outcome => log.outcome event.position outcome
  | none => log

def tallyOf (events : List RunEvent) : RunTally := events.foldl RunTally.record .zero

def recordOf (workflow : Workflow) (events : List RunEvent) : RunLog :=
  events.foldl RunLog.event (RunLog.ofWorkflow workflow)

/-! ## Events that close a task -/

/-- The event is the last one of its task. -/
def closes : RunEvent → Bool
  | .finished .. | .failed .. | .blocked _ => true
  | .started _ | .output .. => false

/-- Every task is closed once, on record and in the counts. -/
structure Closed (workflow : Workflow) (events : List RunEvent) : Prop where
  once : ∀ i < workflow.tasks.length,
    (events.filter fun event => event.task = some i && closes event).length = 1
  recorded : ∀ record ∈ (recordOf workflow events).tasks,
    record.state ≠ "pending" ∧ record.state ≠ "running"
  counted : (tallyOf events).total = workflow.tasks.length

theorem record_total (tally : RunTally) (event : RunEvent) :
    (tally.record event).total = tally.total + (if closes event then 1 else 0) := by
  cases event with
  | started task => rfl
  | output task stream line => rfl
  | finished task output elapsed =>
    simp only [RunTally.record, TaskOutcome.of, RunTally.add]
    split <;> simp [RunTally.total, closes] <;> omega
  | failed task errorKind elapsed =>
    simp [RunTally.record, TaskOutcome.of, RunTally.add, RunTally.total, closes]
    omega
  | blocked task => rfl

theorem foldl_record_total (events : List RunEvent) (tally : RunTally) :
    (events.foldl RunTally.record tally).total = tally.total + events.countP closes := by
  induction events generalizing tally with
  | nil => rfl
  | cons event rest ih =>
    rw [List.foldl_cons, ih, record_total, List.countP_cons]
    omega

theorem tallyOf_total (events : List RunEvent) :
    (tallyOf events).total = events.countP closes := by
  rw [tallyOf, foldl_record_total]
  exact Nat.zero_add _

/-! ## What the record of one task keeps -/

def TaskRecord.event (record : TaskRecord) (event : RunEvent) : TaskRecord :=
  match TaskOutcome.of event with
  | some outcome => record.outcome outcome
  | none => record

theorem event_getElem? (log : RunLog) {event : RunEvent} {i j : Nat} (h : event.task = some j) :
    (log.event event).tasks[i]? = (log.tasks[i]?).map fun record =>
      if j = i then record.event event else record := by
  have hposition : event.position = j := by rw [RunEvent.position, h, positionOf, Option.getD_some]
  cases houtcome : TaskOutcome.of event with
  | none => simp [RunLog.event, TaskRecord.event, houtcome]
  | some outcome =>
    simp [RunLog.event, TaskRecord.event, houtcome, RunLog.outcome, hposition,
      List.getElem?_modify]

theorem foldl_event_getElem? {events : List RunEvent} (known : ∀ event ∈ events, event.task ≠ none)
    (log : RunLog) (i : Nat) : (events.foldl RunLog.event log).tasks[i]? =
      (log.tasks[i]?).map fun record => (eventsOf i events).foldl TaskRecord.event record := by
  induction events generalizing log with
  | nil => simp [eventsOf]
  | cons event rest ih =>
    obtain ⟨j, hj⟩ := Option.ne_none_iff_exists'.mp (known event (by simp))
    rw [List.foldl_cons, ih fun event h => known event (by simp [h]), event_getElem? log hj,
      Option.map_map, eventsOf_cons, hj]
    refine congrFun (congrArg _ (funext fun record => ?_)) _
    by_cases hij : j = i
    · simp [hij]
    · simp [hij]

theorem closes_state {record : TaskRecord} {event : RunEvent} (h : closes event = true) :
    (record.event event).state ≠ "pending" ∧ (record.event event).state ≠ "running" := by
  cases event with
  | started task => cases h
  | output task stream line => cases h
  | finished task output elapsed =>
    simp only [TaskRecord.event, TaskOutcome.of, TaskRecord.outcome, TaskOutcome.state]
    split <;> decide
  | failed task errorKind elapsed =>
    simp only [TaskRecord.event, TaskOutcome.of, TaskRecord.outcome, TaskOutcome.state]
    decide
  | blocked task =>
    simp only [TaskRecord.event, TaskOutcome.of, TaskRecord.outcome, TaskOutcome.state]
    decide

/-! ## Runs that close every task -/

/-- The last event of the task closes it, and no other one does. -/
def EndsClosed (task : Nat) (events : List RunEvent) : Prop :=
  ∃ before last, eventsOf task events = before ++ [last] ∧ closes last = true ∧
    ∀ event ∈ before, closes event = false

theorem Ran.endsClosed {task : Nat} {outcome : Outcome} {events : List RunEvent}
    (h : Ran task outcome events) : EndsClosed task events := by
  obtain ⟨lines, elapsed, hlines, hevents⟩ := h
  refine ⟨.started (some task) :: lines.map Message.event,
    (Message.done (some task) outcome elapsed).event, by simp [hevents], ?_, fun event hevent => ?_⟩
  · cases outcome <;> rfl
  · rw [List.mem_cons, List.mem_map] at hevent
    rcases hevent with rfl | ⟨message, hmessage, rfl⟩
    · rfl
    · cases message with
      | line => rfl
      | done => cases hlines _ hmessage

theorem filter_closes_eq (task : Nat) (events : List RunEvent) :
    (events.filter fun event => event.task = some task && closes event) =
      (eventsOf task events).filter closes := by
  rw [eventsOf, List.filter_filter]
  exact List.filter_congr fun event _ => Bool.and_comm ..

theorem EndsClosed.filter {task : Nat} {events : List RunEvent} (h : EndsClosed task events) :
    ((eventsOf task events).filter closes).length = 1 := by
  obtain ⟨before, last, hevents, hlast, hbefore⟩ := h
  have hnone : before.filter closes = [] :=
    List.filter_eq_nil_iff.mpr fun event hevent => by simp [hbefore event hevent]
  simp [hevents, List.filter_append, hnone, hlast]

theorem countP_closes {n : Nat} {events : List RunEvent}
    (known : ∀ event ∈ events, ∃ i < n, event.task = some i)
    (once : ∀ i < n, ((eventsOf i events).filter closes).length = 1) :
    events.countP closes = n := by
  have hparts : events.Perm (((List.range n).map some).flatMap fun task =>
      events.filter (·.task = task)) := by
    refine perm_flatMap_filter (List.nodup_range.map (Option.some_injective _)) fun event h => ?_
    obtain ⟨i, hi, htask⟩ := known event h
    exact htask ▸ List.mem_map_of_mem (List.mem_range.mpr hi)
  rw [hparts.countP_eq, List.countP_flatMap, List.map_map]
  have hone : ∀ i ∈ List.range n, List.countP closes (events.filter (·.task = some i)) = 1 := by
    intro i hi
    rw [List.countP_eq_length_filter]
    exact once i (List.mem_range.mp hi)
  have ones : (List.range n).map (fun _ => 1) = List.replicate n 1 := by
    rw [List.map_const', List.length_range]
  refine (congrArg List.sum (List.map_congr_left hone)).trans ?_
  rw [ones, List.sum_replicate_nat, Nat.mul_one]

theorem closed_of_endsClosed {workflow : Workflow} {events : List RunEvent}
    (known : ∀ event ∈ events, ∃ i < workflow.tasks.length, event.task = some i)
    (ends : ∀ i < workflow.tasks.length, EndsClosed i events) : Closed workflow events := by
  refine ⟨fun i hi => ?_, fun record hrecord => ?_, ?_⟩
  · rw [filter_closes_eq]
    exact (ends i hi).filter
  · obtain ⟨i, hi⟩ := List.mem_iff_getElem?.mp hrecord
    rw [recordOf, foldl_event_getElem?, Option.map_eq_some_iff] at hi
    · obtain ⟨start, hstart, rfl⟩ := hi
      have hlt : i < workflow.tasks.length := by
        have := (List.getElem?_eq_some_iff.mp hstart).1
        simpa [RunLog.ofWorkflow] using this
      obtain ⟨before, last, hevents, hlast, -⟩ := ends i hlt
      rw [hevents, List.foldl_append]
      exact closes_state hlast
    · intro event hevent hnone
      obtain ⟨j, -, hj⟩ := known event hevent
      rw [hnone] at hj
      cases hj
  · rw [tallyOf_total]
    exact countP_closes known fun i hi => (ends i hi).filter

/-- A run closes every task unless a task that cannot be executed leaves later ones behind. -/
theorem runWorkflow_closed_iff {world : World} {workflow : Workflow} {ends : Nat → End} {fuel : Nat}
    (delivers : world.Delivers) (hends : world.Ends ends)
    (quiet : ∀ error, ¬Stopped world error (runWorkflow world workflow fuel).2)
    (enough : workflow.tasks.length < fuel) :
    Closed workflow (runWorkflow world workflow fuel).2.events ↔
      ∀ i < workflow.tasks.length, CanStart workflow ends i → ends i = .error →
        ∀ j < workflow.tasks.length, CanStart workflow ends j ∧
          depth workflow.dependencies j ≤ depth workflow.dependencies i := by
  have ended := runWorkflow_ended delivers hends enough quiet
  generalize (runWorkflow world workflow fuel).1 = result at ended ⊢
  generalize (runWorkflow world workflow fuel).2 = run at ended ⊢
  cases ended with
  | closed known ran blocked _ _ =>
    constructor
    · intro _ i hi hstart herror
      obtain ⟨output, houtput, -⟩ := ran i hi hstart
      rw [herror] at houtput
      cases houtput
    · intro _
      refine closed_of_endsClosed known fun i hi => ?_
      by_cases hstart : CanStart workflow ends i
      · obtain ⟨output, -, hran⟩ := ran i hi hstart
        exact Ran.endsClosed hran
      · exact ⟨[], .blocked i, blocked i hi hstart, rfl, by simp⟩
  | @broken k error _ known ran absent healthy unhealthy =>
    obtain ⟨u, hu, huerror⟩ := unhealthy
    have hdepth : depthOf workflow u = k := by
      have : ¬depthOf workflow u < k := fun h => healthy u ⟨hu.1, hu.2.1, h⟩ huerror
      have := hu.2.2
      omega
    constructor
    · intro closed i hi hstart herror j hj
      have hbelow : Below workflow ends (k + 1) j := by
        by_contra hnot
        have := closed.once j hj
        rw [filter_closes_eq, absent j hj hnot] at this
        cases this
      refine ⟨hbelow.2.1, ?_⟩
      have hi' : ¬depthOf workflow i < k := fun h => healthy i ⟨hi, hstart, h⟩ herror
      have := hbelow.2.2
      simp only [depthOf] at this hi'
      omega
    · intro hall
      refine closed_of_endsClosed known fun j hj => ?_
      obtain ⟨hjs, hjd⟩ := hall u hu.1 hu.2.1 huerror j hj
      obtain ⟨outcome, -, hran⟩ := ran j ⟨hj, hjs, by simp only [depthOf] at hdepth ⊢; omega⟩
      exact Ran.endsClosed hran

theorem runWorkflow_closed_buildAndTest :
    Closed buildAndTestWorkflow
        (runWorkflow (.immediate passThenSignal) buildAndTestWorkflow 3).2.events ↔
      ∀ i < 2, CanStart buildAndTestWorkflow (fun i => endOf (passThenSignal i)) i →
        endOf (passThenSignal i) = .error → ∀ j < 2,
          CanStart buildAndTestWorkflow (fun i => endOf (passThenSignal i)) j ∧
            depth buildAndTestWorkflow.dependencies j ≤ depth buildAndTestWorkflow.dependencies i :=
  runWorkflow_closed_iff (immediate_delivers _) (immediate_ends _) (fun _ h => by cases h)
    (by decide)

def missingBuild (task : Nat) : Outcome :=
  if task = 0 then .error ⟨.notFound, "make".toList⟩ else .ok ⟨some 0, [], []⟩

/-- The test has no closing event when the build cannot be executed. -/
theorem runWorkflow_not_closed : ¬∀ (world : World) (workflow : Workflow) (fuel : Nat),
    world.Delivers → workflow.tasks.length < fuel →
      (∀ error, ¬Stopped world error (runWorkflow world workflow fuel).2) →
        Closed workflow (runWorkflow world workflow fuel).2.events := by
  intro h
  have closed := h (.immediate missingBuild) buildAndTestWorkflow 3 (immediate_delivers _)
    (by decide) (fun _ h => by cases h)
  have hnone : ((runWorkflow (.immediate missingBuild) buildAndTestWorkflow 3).2.events.filter
      fun event => event.task = some 1 && closes event).length = 0 := by
    decide +kernel
  have := closed.once 1 (by decide)
  omega

end Beez.Record
