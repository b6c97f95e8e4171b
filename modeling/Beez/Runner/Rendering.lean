import Beez.Runner.Settled

/-! # What a started task is asked to do -/

open Beez.Core Beez.Lib

namespace Beez.Runner

/-! ## The requests of a wave -/

/-- The states of a run between two turns of its loop. -/
inductive Reached (world : World) (workflow : Workflow) : Run → Prop
  | initial : Reached world workflow (Run.initial workflow)
  | turn {run run' : Run} (reached : Reached world workflow run)
    (pending : run.execution.hasPending = true)
    (turned : turn world workflow run = (.ok none, run')) : Reached world workflow run'

/-- `text` is what the task of `reference` wrote on the stream that `reference` names, decoded
and without the newlines that end it. -/
def WroteText (workflow : Workflow) (events : List RunEvent) (reference : OutputReference)
    (text : Text) : Prop :=
  ∃ i output, workflow.indexOf reference.task = some i ∧
    (∃ elapsed, .finished (some i) output elapsed ∈ events) ∧
    (∀ output' elapsed, .finished (some i) output' elapsed ∈ events → output' = output) ∧
    Text.Trimmed ['\r', '\n'] (Text.fromUtf8Lossy (output.stream reference.output)) text

/-- `rendered` is `text` with every placeholder replaced by the output that it reads. -/
def Filled (workflow : Workflow) (events : List RunEvent) (text rendered : Text) : Prop :=
  ∃ pieces value, Template.Reads text pieces ∧
    (∀ reference ∈ pieces.filterMap Template.Piece.reference,
      WroteText workflow events reference (value reference)) ∧
    rendered = pieces.flatMap (Template.Piece.filled value)

/-- `rendered` is the same request with every text filled. -/
inductive RequestFilled (workflow : Workflow) (events : List RunEvent) :
    TaskRequest → TaskRequest → Prop
  | harness {harness : HeadlessHarness} {prompt prompt' : Text} {options : HarnessOptions}
    (filled : Filled workflow events prompt prompt') :
    RequestFilled workflow events (.harness harness prompt options) (.harness harness prompt' options)
  | command {program : Text} {arguments arguments' : List Text}
    (filled : List.Forall₂ (Filled workflow events) arguments arguments') :
    RequestFilled workflow events (.command program arguments) (.command program arguments')

theorem indexOf_eq {workflow : Workflow} {i : Nat} {id : TaskId}
    (h : idAt workflow.tasks i = some id) : workflow.indexOf id = some i := by
  rw [idAt, Option.map_eq_some_iff] at h
  obtain ⟨task, htask, hid⟩ := h
  obtain ⟨hlt, hget⟩ := List.getElem?_eq_some_iff.mp htask
  rw [Workflow.indexOf, List.findIdx?_eq_some_iff_getElem]
  refine ⟨hlt, by simp [hget, hid], fun j hj => ?_⟩
  have nodup := workflow.wellFormed.ids
  have hne := (List.pairwise_iff_getElem.mp nodup) j i (by simpa using hj.trans hlt)
    (by simpa using hlt) hj
  rw [List.getElem_map, List.getElem_map, hget, hid] at hne
  simpa using hne

theorem Ran.finished {task : Nat} {output : ProcessOutput} {events : List RunEvent}
    (h : Ran task (.ok output) events) : (∃ elapsed, .finished (some task) output elapsed ∈ events) ∧
      ∀ output' elapsed, .finished (some task) output' elapsed ∈ events → output' = output := by
  obtain ⟨lines, elapsed, hlines, hevents⟩ := h
  constructor
  · refine ⟨elapsed, ?_⟩
    have : .finished (some task) output elapsed ∈ eventsOf task events := by
      rw [hevents]
      simp [Message.event]
    exact List.mem_of_mem_filter this
  · intro output' elapsed' hmem
    have : .finished (some task) output' elapsed' ∈ eventsOf task events := by
      rw [eventsOf, List.mem_filter]
      exact ⟨hmem, by simp [RunEvent.task]⟩
    rw [hevents, List.mem_cons, List.mem_map] at this
    rcases this with h | ⟨message, hmessage, h⟩
    · cases h
    · rw [List.mem_append, List.mem_singleton] at hmessage
      rcases hmessage with hline | rfl
      · cases message with
        | line => cases h
        | done => cases hlines _ hline
      · rw [Message.event, RunEvent.finished.injEq] at h
        exact h.2.1.symm

section Render

variable {workflow : Workflow} {run : Run}

/-- The output that a reference of a ready task reads is at hand. -/
theorem Settled.wroteText (settled : Settled workflow run) {i : Nat} {task : Task}
    (hi : i ∈ run.execution.ready) (htask : workflow.task i = some task) {text : Text}
    (htext : text ∈ task.request.texts) : ∃ template, Template.parse text = .ok template ∧
      ∀ reference ∈ template.references, ∃ j output, workflow.indexOf reference.task = some j ∧
        run.outputs j = some output ∧
        WroteText workflow run.events reference (outputText output reference.output) := by
  have hmem : task ∈ workflow.tasks := List.mem_of_getElem? htask
  obtain ⟨template, hparse, hrefs⟩ := workflow.wellFormed.reads task hmem text htext
  refine ⟨template, hparse, fun reference href => ?_⟩
  obtain ⟨j, hread, hdep, hid⟩ := hrefs reference href
  have hindex := indexOf_eq hid
  have hdeps : j ∈ workflow.dependencies i := by
    rw [Workflow.task] at htask
    rwa [Workflow.dependencies, dependenciesAt, htask]
  obtain ⟨output, -, hran, houtput⟩ :=
    settled.succeeded j ((settled.ready_dependencies hi).2 j hdeps)
  obtain ⟨hfinished, hunique⟩ := hran.finished
  exact ⟨j, output, hindex, houtput (List.mem_flatMap.mpr ⟨task, hmem, hread⟩), j, output, hindex,
    hfinished, hunique, Text.trimEndMatches_trimmed _ _⟩

theorem Settled.renderText (settled : Settled workflow run) {i : Nat} {task : Task}
    (hi : i ∈ run.execution.ready) (htask : workflow.task i = some task) {text : Text}
    (htext : text ∈ task.request.texts) :
    ∃ rendered, renderText workflow run.outputs text = .ok rendered ∧
      Filled workflow run.events text rendered := by
  obtain ⟨template, hparse, hrefs⟩ := settled.wroteText hi htask htext
  have hvalue : ∀ reference : OutputReference, ∃ value : Text, reference ∈ template.references →
      (∃ j output, workflow.indexOf reference.task = some j ∧ run.outputs j = some output ∧
        value = outputText output reference.output) ∧
      WroteText workflow run.events reference value := by
    intro reference
    by_cases href : reference ∈ template.references
    · obtain ⟨j, output, hindex, houtput, hwrote⟩ := hrefs reference href
      exact ⟨_, fun _ => ⟨⟨j, output, hindex, houtput, rfl⟩, hwrote⟩⟩
    · exact ⟨[], fun h => absurd h href⟩
  choose value hvalue using hvalue
  obtain ⟨pieces, hreads, hfill, hpieces⟩ := Template.parse_reads hparse
  refine ⟨template.fill value, ?_, pieces, value, hreads, ?_, hfill value⟩
  · rw [Runner.renderText, hparse]
    dsimp only
    rw [Template.render_eq_fill value]
    intro reference href
    obtain ⟨⟨j, output, hindex, houtput, heq⟩, -⟩ := hvalue reference href
    simp [hindex, houtput, heq]
  · intro reference href
    exact (hvalue reference (hpieces ▸ href)).2

theorem Settled.renderRequest (settled : Settled workflow run) {i : Nat} {task : Task}
    (hi : i ∈ run.execution.ready) (htask : workflow.task i = some task) :
    ∃ rendered, renderRequest workflow task.request run.outputs = .ok rendered ∧
      RequestFilled workflow run.events task.request rendered := by
  have htext := fun text (h : text ∈ task.request.texts) => settled.renderText hi htask h
  rw [Runner.renderRequest]
  cases hrequest : task.request with
  | harness harness prompt options =>
    obtain ⟨rendered, hrender, hfilled⟩ := htext prompt (by simp [hrequest, TaskRequest.texts])
    refine ⟨.harness harness rendered options, ?_, .harness hfilled⟩
    rw [TaskRequest.tryMapTexts, hrender]
    rfl
  | command program arguments =>
    have hall : ∀ text ∈ arguments, ∃ rendered,
        Runner.renderText workflow run.outputs text = .ok rendered := by
      intro text hmem
      obtain ⟨rendered, hrender, -⟩ := htext text (by simpa [hrequest, TaskRequest.texts] using hmem)
      exact ⟨rendered, hrender⟩
    obtain ⟨rendered, hrender⟩ := mapM_isOk hall
    refine ⟨.command program rendered, ?_, .command ?_⟩
    · rw [TaskRequest.tryMapTexts, hrender]
      rfl
    · have hpairs := mapM_eq_ok hrender
      refine List.forall₂_iff_get.mpr ⟨hpairs.length_eq, fun k hk hk' => ?_⟩
      have hk'' := hpairs.get hk hk'
      have hmem : arguments.get ⟨k, hk⟩ ∈ task.request.texts := by
        rw [hrequest]
        exact List.get_mem ..
      obtain ⟨text, htext, hfilled⟩ := htext _ hmem
      rw [hk'', Except.ok.injEq] at htext
      exact htext ▸ hfilled

theorem Settled.prepared (settled : Settled workflow run) :
    ∀ task ∈ run.execution.ready.filterMap (startedTask workflow),
      ∃ job, prepare workflow run.outputs task = .ok job := by
  intro started hstarted
  obtain ⟨i, hi, hstarted⟩ := List.mem_filterMap.mp hstarted
  rw [startedTask, Option.map_eq_some_iff] at hstarted
  obtain ⟨task, htask, rfl⟩ := hstarted
  obtain ⟨rendered, hrender, -⟩ := settled.renderRequest hi htask
  exact ⟨_, by rw [prepare, hrender]; rfl⟩

/-- What a turn does between two settled states. -/
theorem Settled.turn_leads (settled : Settled workflow run) {world : World}
    (delivers : world.Delivers) :
    Leads (Stopped world) (turn world workflow) run (Turned world workflow run) :=
  Runner.turn_leads delivers settled.same settled.length settled.prepared

theorem Settled.turn (settled : Settled workflow run) {world : World} (delivers : world.Delivers)
    {run' : Run} (h : turn world workflow run = (.ok none, run')) : Settled workflow run' := by
  cases (settled.turn_leads delivers).of_ok h with
  | wave _ collected healthy => exact settled.wave collected healthy

end Render

theorem reached_settled {world : World} {workflow : Workflow} (delivers : world.Delivers)
    {run : Run} (reached : Reached world workflow run) : Settled workflow run := by
  induction reached with
  | initial => exact settled_initial workflow
  | turn _ _ turned ih => exact ih.turn delivers turned

/-- Every started task has a request, which is its own with the outputs filled in. -/
theorem started_request_filled {world : World} {workflow : Workflow} (delivers : world.Delivers)
    {run run' : Run} {started : List StartedTask} (reached : Reached world workflow run)
    (start : startReadyTasks world run = (.ok started, run')) :
    ∀ task ∈ started, ∃ rendered,
      renderRequest workflow task.request run'.outputs = .ok rendered ∧
        RequestFilled workflow run.events task.request rendered := by
  have settled := reached_settled delivers reached
  obtain ⟨hstarted, hrun'⟩ : started = run.execution.ready.filterMap (startedTask workflow) ∧
      run' = run.execution.ready.foldl Run.begin run := by
    have hreturns := startReadyTasks_returns world run
    rw [settled.same] at hreturns
    obtain ⟨_, ha, hpost⟩ := hreturns.of_ok start
    rw [Except.ok.injEq] at ha
    exact ha ▸ hpost
  intro _ hmem
  rw [hstarted] at hmem
  obtain ⟨i, hi, hmem⟩ := List.mem_filterMap.mp hmem
  rw [startedTask, Option.map_eq_some_iff] at hmem
  obtain ⟨task, htask, rfl⟩ := hmem
  rw [hrun', foldl_begin_outputs]
  exact settled.renderRequest hi htask

/-! ## A run of two tasks -/

def World.immediate (outcome : Nat → Outcome) : World :=
  ⟨fun _ => none, fun _ jobs => jobs.map fun job => .done job.task (outcome (positionOf job.task)) 0⟩

theorem immediate_delivers (outcome : Nat → Outcome) : (World.immediate outcome).Delivers := by
  intro events jobs nodup
  refine ⟨fun message hmessage => ?_, fun job hjob => ?_⟩
  · obtain ⟨job, hjob, rfl⟩ := List.mem_map.mp hmessage
    exact ⟨job, hjob, rfl⟩
  · refine ⟨[], outcome (positionOf job.task), 0, by simp, ?_⟩
    rw [World.immediate, List.filter_map]
    exact congrArg (List.map _) (filter_key_eq nodup hjob)

/-- `test` waits for `build` and is given what it wrote. -/
def buildAndTest : List TaskDefinition :=
  [⟨⟨"build".toList, by decide⟩, [], .command "make".toList [], none⟩,
    ⟨⟨"test".toList, by decide⟩, [⟨"build".toList, by decide⟩],
      .command "check".toList ["\x7b\x7b tasks.build.stdout \x7d\x7d".toList], none⟩]

theorem buildAndTest_resolved : resolveTasks buildAndTest = .ok
    [⟨⟨"build".toList, by decide⟩, [], [], .command "make".toList [], none⟩,
      ⟨⟨"test".toList, by decide⟩, [0], [0],
        .command "check".toList ["\x7b\x7b tasks.build.stdout \x7d\x7d".toList], none⟩] := rfl

def buildAndTestWorkflow : Workflow where
  tasks := _
  wellFormed := resolveTasks_wellFormed buildAndTest_resolved

/-- The build passes with a line of output, and a signal ends the test. -/
def passThenSignal (task : Nat) : Outcome :=
  .ok (if task = 0 then ⟨some 0, [0x6F, 0x6B, 0x0A], []⟩ else ⟨none, [], []⟩)

/-- The state in which the build is done and the test is ready. -/
def afterBuild : Run :=
  (turn (.immediate passThenSignal) buildAndTestWorkflow (Run.initial buildAndTestWorkflow)).2

theorem afterBuild_reached : Reached (.immediate passThenSignal) buildAndTestWorkflow afterBuild :=
  .turn .initial (by decide) (Prod.ext (by decide +kernel) rfl)

theorem started_request_filled_test : ∃ started run',
    startReadyTasks (.immediate passThenSignal) afterBuild = (.ok started, run') ∧
      ∀ task ∈ started, ∃ rendered,
        renderRequest buildAndTestWorkflow task.request run'.outputs = .ok rendered ∧
          RequestFilled buildAndTestWorkflow afterBuild.events task.request rendered := by
  have hok : (startReadyTasks (.immediate passThenSignal) afterBuild).1.isOk = true := by
    decide +kernel
  obtain ⟨started, hstarted⟩ := exists_of_isOk hok
  exact ⟨started, _, hstarted,
    started_request_filled (immediate_delivers _) afterBuild_reached hstarted⟩

end Beez.Runner
