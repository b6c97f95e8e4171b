import Beez.Runner.Level

/-! # How a run of a workflow comes out -/

open Beez.Core Beez.Lib

namespace Beez.Runner

/-! ## Counting events -/

theorem count_eventsOf (task : Nat) {event : RunEvent} (h : event.task = some task)
    (events : List RunEvent) : events.count event = (eventsOf task events).count event := by
  rw [eventsOf, List.count_filter]
  simp [h]

theorem Ran.count_started {task : Nat} {outcome : Outcome} {events : List RunEvent}
    (h : Ran task outcome events) : events.count (.started (some task)) = 1 := by
  obtain ⟨lines, elapsed, -, hevents⟩ := h
  rw [count_eventsOf task rfl, hevents, List.count_cons_self, Nat.add_eq_right,
    List.count_eq_zero, List.mem_map]
  rintro ⟨message, -, hmessage⟩
  exact message.event_ne_started _ hmessage

theorem Ran.count_blocked {task : Nat} {outcome : Outcome} {events : List RunEvent}
    (h : Ran task outcome events) : events.count (.blocked task) = 0 := by
  obtain ⟨lines, elapsed, -, hevents⟩ := h
  rw [count_eventsOf task rfl, hevents, List.count_eq_zero, List.mem_cons, List.mem_map]
  rintro (h | ⟨message, -, hmessage⟩)
  · cases h
  · match message with
    | .line .. => cases hmessage
    | .done _ (.ok _) _ => cases hmessage
    | .done _ (.error _) _ => cases hmessage

/-! ## Runs in which every process runs -/

/-- What a run reports and returns when task `i` exits as `exits i` says. Nothing stands for a
signal, which counts as 1. -/
structure Correct (workflow : Workflow) (exits : Nat → Option Int) (status : Int)
    (events : List RunEvent) : Prop where
  started : ∀ i < workflow.tasks.length,
    (∀ d, Needs workflow.dependencies i d → exits d = some 0) →
      events.count (.started (some i)) = 1 ∧ events.count (.blocked i) = 0
  blocked : ∀ i < workflow.tasks.length,
    ¬(∀ d, Needs workflow.dependencies i d → exits d = some 0) →
      events.count (.started (some i)) = 0 ∧ events.count (.blocked i) = 1
  ordered : ∀ before after i, events = before ++ .started (some i) :: after →
    ∀ d ∈ workflow.dependencies i, ∃ output elapsed,
      .finished (some d) output elapsed ∈ before ∧ output.statusCode = some 0
  zero : status = 0 ↔ ∀ i < workflow.tasks.length, exits i = some 0
  first : status ≠ 0 → ∃ i < workflow.tasks.length, exits i ≠ some 0 ∧
    status = (exits i).getD 1 ∧ ∀ j < workflow.tasks.length, exits j ≠ some 0 →
      depth workflow.dependencies i < depth workflow.dependencies j ∨
        depth workflow.dependencies i = depth workflow.dependencies j ∧ i ≤ j

theorem canStart_exits {workflow : Workflow} {exits : Nat → Option Int} {i : Nat} :
    CanStart workflow (fun i => .exited (exits i)) i ↔
      ∀ d, Needs workflow.dependencies i d → exits d = some 0 := by
  simp only [CanStart, End.exited.injEq]

theorem FirstFailure.correct {workflow : Workflow} {exits : Nat → Option Int} {status : Int}
    (h : FirstFailure workflow (fun i => .exited (exits i)) (· < workflow.tasks.length) status) :
    (status = 0 ↔ ∀ i < workflow.tasks.length, exits i = some 0) ∧
      (status ≠ 0 → ∃ i < workflow.tasks.length, exits i ≠ some 0 ∧
        status = (exits i).getD 1 ∧ ∀ j < workflow.tasks.length, exits j ≠ some 0 →
          depth workflow.dependencies i < depth workflow.dependencies j ∨
            depth workflow.dependencies i = depth workflow.dependencies j ∧ i ≤ j) := by
  have hcode : ∀ i, (exits i).getD 1 = 0 ↔ exits i = some 0 := fun i =>
    (End.code_eq_zero (e := .exited (exits i))).trans (by rw [End.exited.injEq])
  simp only [FirstFailure, End.code, hcode, ne_eq, depthOf] at h
  rcases h with ⟨hstatus, hall⟩ | ⟨i, hi, hfail, hstatus, hfirst⟩
  · exact ⟨⟨fun _ => hall, fun _ => hstatus⟩, fun h => absurd hstatus h⟩
  · have hne : status ≠ 0 := by
      rw [hstatus]
      exact fun h => hfail ((hcode i).mp h)
    exact ⟨⟨fun h => absurd h hne, fun h => absurd (h i hi) hfail⟩,
      fun _ => ⟨i, hi, hfail, hstatus, hfirst⟩⟩

/-- A run returns after one turn for each level at most, and is correct. -/
theorem runWorkflow_correct {world : World} {workflow : Workflow} {exits : Nat → Option Int}
    {fuel : Nat} (delivers : world.Delivers) (hexits : world.Ends fun i => .exited (exits i))
    (quiet : ∀ events, world.callback events = none) (enough : workflow.tasks.length < fuel) :
    ∃ status, (runWorkflow world workflow fuel).1 = .ok (some status) ∧
      Correct workflow exits status (runWorkflow world workflow fuel).2.events := by
  have ended : Ended workflow _ (runWorkflow world workflow fuel).1 _ :=
    runWorkflow_ended delivers hexits enough fun error h => by simp [Stopped, quiet] at h
  generalize (runWorkflow world workflow fuel).1 = result at ended ⊢
  generalize (runWorkflow world workflow fuel).2 = run at ended ⊢
  cases ended with
  | @closed status _ _ ran blocked ordered first =>
    obtain ⟨hzero, hfirst⟩ := first.all.correct
    refine ⟨status, rfl, fun i hi hstart => ?_, fun i hi hstart => ?_, ordered, hzero, hfirst⟩
    · obtain ⟨output, -, hran⟩ := ran i hi (canStart_exits.mpr hstart)
      exact ⟨hran.count_started, hran.count_blocked⟩
    · have hevents := blocked i hi (mt canStart_exits.mp hstart)
      have hcount := fun event (h : RunEvent.task event = some i) => count_eventsOf i h run.events
      rw [hcount (.started (some i)) rfl, hcount (.blocked i) rfl, hevents]
      simp
  | broken _ _ _ _ unhealthy =>
    obtain ⟨i, -, hi⟩ := unhealthy
    cases hi

theorem immediate_ends (outcome : Nat → Outcome) :
    (World.immediate outcome).Ends fun i => endOf (outcome i) := by
  intro events jobs task result elapsed h
  simp only [World.immediate, List.mem_map, Message.done.injEq] at h
  obtain ⟨job, -, htask, rfl, -⟩ := h
  rw [htask]
  rfl

theorem runWorkflow_correct_buildAndTest : ∃ status,
    (runWorkflow (.immediate passThenSignal) buildAndTestWorkflow 3).1 = .ok (some status) ∧
      Correct buildAndTestWorkflow (fun i => if i = 0 then some 0 else none) status
        (runWorkflow (.immediate passThenSignal) buildAndTestWorkflow 3).2.events := by
  refine runWorkflow_correct (immediate_delivers _) ?_ (fun _ => rfl) (by decide)
  intro events jobs task result elapsed h
  rw [immediate_ends passThenSignal events jobs task result elapsed h]
  simp only [passThenSignal, endOf]
  split <;> rfl

example : (runWorkflow (.immediate passThenSignal) buildAndTestWorkflow 3).1 = .ok (some 1) := by
  decide +kernel

end Beez.Runner
