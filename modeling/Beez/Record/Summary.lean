import Beez.Lib.Keyed
import Beez.Record.Format

/-! # The counts that close a run

The summary of a run and its record are made from the same events, by different code.
-/

open Beez.Core Beez.Lib Beez.Runner

namespace Beez.Record

/-! ## Counts -/

/-- The event leaves its task in this state. -/
def leaves (state : String) (event : RunEvent) : Bool :=
  (TaskOutcome.of event).any (·.state = state)

theorem foldl_record_eq (events : List RunEvent) (tally : RunTally) :
    events.foldl RunTally.record tally =
      ⟨tally.passed + events.countP (leaves "finished"), tally.failed + events.countP (leaves "failed"),
        tally.blocked + events.countP (leaves "blocked")⟩ := by
  induction events generalizing tally with
  | nil => rfl
  | cons event rest ih =>
    rw [List.foldl_cons, ih, List.countP_cons, List.countP_cons, List.countP_cons]
    unfold RunTally.record leaves
    cases houtcome : TaskOutcome.of event with
    | none => simp
    | some outcome =>
      cases outcome with
      | finished exitStatus elapsed =>
        unfold RunTally.add
        dsimp only [Option.any_some, TaskOutcome.state]
        split <;> simp [*] <;> omega
      | _ => simp [RunTally.add, TaskOutcome.state] <;> omega

/-- The tally counts the states that the events leave. -/
theorem tallyOf_eq (events : List RunEvent) :
    tallyOf events = ⟨events.countP (leaves "finished"), events.countP (leaves "failed"),
      events.countP (leaves "blocked")⟩ := by
  rw [tallyOf, foldl_record_eq]
  simp [RunTally.zero]

/-! ## States on record -/

theorem event_state (record : TaskRecord) (event : RunEvent) :
    (record.event event).state = ((TaskOutcome.of event).map (·.state)).getD record.state := by
  unfold TaskRecord.event
  cases TaskOutcome.of event with
  | none => rfl
  | some outcome => cases outcome <;> rfl

theorem leaves_closes {state : String} (ends : state ≠ "running") {event : RunEvent}
    (h : leaves state event = true) : closes event = true := by
  cases event with
  | started task => simp [leaves, TaskOutcome.of, TaskOutcome.state, ends.symm] at h
  | output task stream line => cases h
  | _ => rfl

theorem closed_state (record : TaskRecord) {event : RunEvent} (h : closes event = true) (state : String) :
    leaves state event = decide ((record.event event).state = state) := by
  rw [event_state]
  cases event with
  | started task => cases h
  | output task stream line => cases h
  | _ => rfl

/-- A task that is closed leaves the state on record that one of its events leaves. -/
theorem EndsClosed.countP_leaves {task : Nat} {events : List RunEvent} (h : EndsClosed task events)
    (record : TaskRecord) {state : String} (ends : state ≠ "running") :
    (eventsOf task events).countP (leaves state) =
      if ((eventsOf task events).foldl TaskRecord.event record).state = state then 1 else 0 := by
  obtain ⟨before, last, hevents, hlast, hbefore⟩ := h
  have none : before.countP (leaves state) = 0 := by
    rw [List.countP_eq_zero]
    intro event hmem hleaves
    have := leaves_closes ends hleaves
    simp [hbefore event hmem] at this
  rw [hevents, List.countP_append, none, List.foldl_append, List.countP_singleton,
    closed_state (before.foldl TaskRecord.event record) hlast state]
  by_cases same : ((before.foldl TaskRecord.event record).event last).state = state
  · simp [same]
  · simp [same]

/-- What is left of a task in a run: a record that no event touched, or a closed one. -/
def Settles (task : Nat) (events : List RunEvent) : Prop :=
  eventsOf task events = [] ∨ EndsClosed task events

theorem recordOf_getElem? {workflow : Workflow} {events : List RunEvent}
    (known : ∀ event ∈ events, ∃ i < workflow.tasks.length, event.task = some i) (i : Nat) :
    (recordOf workflow events).tasks[i]? = (workflow.tasks[i]?).map fun task =>
      (eventsOf i events).foldl TaskRecord.event (taskRecord task.id.text) := by
  have named : ∀ event ∈ events, event.task ≠ none := by
    intro event hmem hnone
    obtain ⟨i, -, hi⟩ := known event hmem
    simp [hi] at hnone
  unfold recordOf
  rw [foldl_event_getElem? named, RunLog.ofWorkflow, List.getElem?_map, Option.map_map]
  rfl

theorem recordOf_length (workflow : Workflow) (events : List RunEvent) :
    (recordOf workflow events).tasks.length = workflow.tasks.length := by
  have kept (log : RunLog) : (events.foldl RunLog.event log).tasks.length = log.tasks.length := by
    induction events generalizing log with
    | nil => rfl
    | cons event rest ih =>
      rw [List.foldl_cons, ih]
      unfold RunLog.event
      split <;> simp [RunLog.outcome]
  unfold recordOf
  rw [kept]
  simp [RunLog.ofWorkflow]

/-- The record of a run holds every state as often as its events leave it. -/
theorem countP_recordOf {workflow : Workflow} {events : List RunEvent}
    (known : ∀ event ∈ events, ∃ i < workflow.tasks.length, event.task = some i)
    (settles : ∀ i < workflow.tasks.length, Settles i events) {state : String}
    (ends : state ≠ "running") (begun : state ≠ "pending") :
    (recordOf workflow events).tasks.countP (·.state = state) = events.countP (leaves state) := by
  let left : Nat → Bool := fun i =>
    ((recordOf workflow events).tasks[i]?.map fun record => decide (record.state = state)).getD false
  have each : ∀ task ∈ (List.range workflow.tasks.length).map some,
      (events.filter (·.task = task)).countP (leaves state) = if task.any left then 1 else 0 := by
    intro task hmem
    obtain ⟨i, hi, rfl⟩ := List.mem_map.mp hmem
    rw [List.mem_range] at hi
    have found : left i = decide (((eventsOf i events).foldl TaskRecord.event
        (taskRecord workflow.tasks[i].id.text)).state = state) := by
      dsimp only [left]
      rw [recordOf_getElem? known, List.getElem?_eq_getElem hi]
      rfl
    rw [Option.any_some, found]
    rw [← eventsOf]
    rcases settles i hi with none | closed
    · rw [none]
      simp [taskRecord, begun.symm]
    · simpa using closed.countP_leaves (taskRecord workflow.tasks[i].id.text) ends
  have counted := countP_keyed (List.nodup_range.map (Option.some_injective _))
    (fun event hmem => by
      obtain ⟨i, hi, htask⟩ := known event hmem
      exact htask ▸ List.mem_map_of_mem (List.mem_range.mpr hi)) each
  rw [counted, List.countP_map, ← recordOf_length workflow events]
  conv_lhs => rw [← filterMap_getElem?_range (recordOf workflow events).tasks]
  rw [List.countP_filterMap]
  rfl

/-! ## Runs -/

theorem Ended.settles {workflow : Workflow} {ends : Nat → End} {result : Except IoError (Option Int)}
    {run : Run} (ended : Ended workflow ends result run) :
    (∀ event ∈ run.events, ∃ i < workflow.tasks.length, event.task = some i) ∧
      ∀ i < workflow.tasks.length, Settles i run.events := by
  cases ended with
  | closed known ran blocked _ _ =>
    refine ⟨known, fun i hi => .inr ?_⟩
    by_cases start : CanStart workflow ends i
    · obtain ⟨output, -, ran⟩ := ran i hi start
      exact Ran.endsClosed ran
    · exact ⟨[], .blocked i, blocked i hi start, rfl, by simp⟩
  | @broken k _ _ known ran absent _ _ =>
    refine ⟨known, fun i hi => ?_⟩
    by_cases below : Below workflow ends (k + 1) i
    · obtain ⟨outcome, -, ran⟩ := ran i below
      exact .inr (Ran.endsClosed ran)
    · exact .inl (absent i hi below)

theorem Ran.finished_iff {task : Nat} {outcome : Outcome} {events : List RunEvent}
    (h : Ran task outcome events) (record : TaskRecord) :
    ((eventsOf task events).foldl TaskRecord.event record).state = "finished" ↔
      endOf outcome = .exited (some 0) := by
  obtain ⟨lines, elapsed, -, hevents⟩ := h
  rw [hevents, List.map_append, ← List.cons_append, List.foldl_append]
  generalize List.foldl TaskRecord.event record _ = before
  rw [List.map_singleton, List.foldl_cons, List.foldl_nil, event_state]
  cases outcome with
  | error error => simp [Message.event, TaskOutcome.of, TaskOutcome.state, endOf]
  | ok output =>
    simp only [Message.event, TaskOutcome.of, TaskOutcome.state, endOf, Option.map_some, Option.getD_some,
      End.exited.injEq]
    by_cases passed : output.statusCode = some 0
    · simp [passed, TaskOutcome.succeeded]
    · simp [passed, TaskOutcome.succeeded]

/-- The record holds an error of every task that could not be executed. -/
theorem Ran.error_on_record {task : Nat} {error : IoError} {events : List RunEvent}
    (h : Ran task (.error error) events) (record : TaskRecord) :
    ((eventsOf task events).foldl TaskRecord.event record).error = some error.kind := by
  obtain ⟨lines, elapsed, -, hevents⟩ := h
  rw [hevents, List.map_append, ← List.cons_append, List.foldl_append]
  rfl

/-- A run returns 0 when every record says that its task finished, and only then. -/
theorem Ended.zero_iff {workflow : Workflow} {ends : Nat → End} {result : Except IoError (Option Int)}
    {run : Run} (ended : Ended workflow ends result run) :
    result = .ok (some 0) ↔ ∀ record ∈ (recordOf workflow run.events).tasks, record.state = "finished" := by
  have settled := Ended.settles ended
  have onRecord {i : Nat} (hi : i < workflow.tasks.length) :
      (recordOf workflow run.events).tasks[i]? = some ((eventsOf i run.events).foldl TaskRecord.event
        (taskRecord workflow.tasks[i].id.text)) := by
    rw [recordOf_getElem? settled.1, List.getElem?_eq_getElem hi]
    rfl
  have every : (∀ record ∈ (recordOf workflow run.events).tasks, record.state = "finished") ↔
      ∀ i (hi : i < workflow.tasks.length), ((eventsOf i run.events).foldl TaskRecord.event
        (taskRecord workflow.tasks[i].id.text)).state = "finished" := by
    constructor
    · intro h i hi
      exact h _ (List.mem_of_getElem? (onRecord hi))
    · intro h record hmem
      obtain ⟨i, hi, hget⟩ := List.mem_iff_getElem.mp hmem
      have hi' : i < workflow.tasks.length := by rwa [recordOf_length] at hi
      have := onRecord hi'
      rw [List.getElem?_eq_getElem hi, hget] at this
      rw [Option.some.inj this]
      exact h i hi'
  rw [every]
  cases ended with
  | @closed status _ known ran blocked _ first =>
    have zero : status = 0 ↔ ∀ i < workflow.tasks.length, (ends i).code = 0 := by
      rcases first.all with ⟨hstatus, all⟩ | ⟨i, hi, hcode, hstatus, -⟩
      · exact ⟨fun _ => all, fun _ => hstatus⟩
      · exact ⟨fun h => absurd (hstatus.symm.trans h) hcode, fun h => absurd (h i hi) hcode⟩
    simp only [Except.ok.injEq, Option.some.injEq, zero, End.code_eq_zero]
    constructor
    · intro passed i hi
      have start : CanStart workflow ends i := fun d needs => passed d (needs_lt needs)
      obtain ⟨output, hend, ran⟩ := ran i hi start
      rw [Ran.finished_iff ran, hend]
      exact passed i hi
    · intro finished i hi
      have own := finished i hi
      by_cases start : CanStart workflow ends i
      · obtain ⟨output, hend, ran⟩ := ran i hi start
        rw [← hend]
        exact (Ran.finished_iff ran _).mp own
      · rw [blocked i hi start] at own
        exact absurd own (by simp [TaskRecord.event, TaskOutcome.of, TaskRecord.outcome, TaskOutcome.state])
  | broken known ran absent healthy unhealthy =>
    obtain ⟨i, hi, failed⟩ := unhealthy
    obtain ⟨outcome, hend, ran⟩ := ran i hi
    simp only [reduceCtorEq, false_iff, not_forall]
    refine ⟨i, hi.1, ?_⟩
    rw [Ran.finished_iff ran, hend, failed]
    exact End.noConfusion

end Beez.Record
