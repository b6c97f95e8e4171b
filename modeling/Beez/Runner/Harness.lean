import Beez.Lib.Arguments
import Beez.Runner.Rendering

/-! # What a harness reads of its prompt

A prompt may hold whatever other tasks wrote, and reaches a harness as an argument. -/

open Beez.Core Beez.Lib

namespace Beez.Runner

/-! ## Arguments -/

/-- Codex takes a subcommand here where the other harnesses take a flag. -/
def headlessArgument : HeadlessHarness → Text
  | .pi | .omp | .claude => "--print".toList
  | .codex => "exec".toList

/-- The option that names the effort. -/
def effortOption : HeadlessHarness → Text
  | .pi | .claude => "--effort".toList
  | .omp => "--thinking".toList
  | .codex => "-c".toList

def effortValue (harness : HeadlessHarness) (effort : Text) : Text :=
  match harness with
  | .pi | .omp | .claude => effort
  | .codex => "model_reasoning_effort=".toList ++ effort

def modelOption : Text := "--model".toList

/-- Each harness names the reasoning effort differently. -/
def effortArguments (harness : HeadlessHarness) (effort : Text) : List Text :=
  [effortOption harness, effortValue harness effort]

namespace HarnessCall

def intoParts (call : HarnessCall) : Text × List Text :=
  (call.harness.name.toList,
    headlessArgument call.harness ::
      (call.model.elim [] (fun model => [modelOption, model.toList]) ++
        (call.effort.elim [] (fun effort => effortArguments call.harness effort.toList) ++
          -- The prompt stays last because harnesses read it as a positional argument.
          Arguments.guarded call.prompt)))

end HarnessCall

def ExecutionRequest.intoParts : ExecutionRequest → Text × List Text
  | .harness call => call.intoParts
  | .command call => (call.program, call.arguments)

/-! ## What is read back -/

/-- The program knows the options that Beez gives it. It may know others. -/
structure Knows (valued : Text → Bool) (harness : HeadlessHarness) : Prop where
  model : valued modelOption = true
  effort : valued (effortOption harness) = true
  print : valued "--print".toList = false

def given (name : Text) (value : Option Text) : List (Text × Option Text) :=
  value.elim [] fun value => [(name, some value)]

/-- The arguments that a call means. -/
def HarnessCall.meant (call : HarnessCall) : Arguments where
  options :=
    (if call.harness = .codex then [] else [("--print".toList, none)]) ++
      (given modelOption (call.model.map String.toList) ++
        given (effortOption call.harness)
          (call.effort.map fun effort => effortValue call.harness effort.toList))
  positional := (if call.harness = .codex then ["exec".toList] else []) ++ [call.prompt]

theorem read_effort {valued : Text → Bool} {harness : HeadlessHarness} (knows : Knows valued harness)
    (effort : Option String) (prompt : Text) :
    Arguments.read valued (effort.elim [] (fun effort => effortArguments harness effort.toList) ++
        Arguments.guarded prompt) =
      some ⟨given (effortOption harness) (effort.map fun effort => effortValue harness effort.toList),
        [prompt]⟩ := by
  cases effort with
  | none => exact Arguments.read_guarded valued prompt
  | some effort =>
    have named : (effortOption harness).head? = some '-' := by cases harness <;> rfl
    have apart : effortOption harness ≠ Arguments.mark := by cases harness <;> decide
    simp only [Option.elim_some, effortArguments, List.cons_append, List.nil_append]
    rw [Arguments.read_option valued named apart knows.effort, Arguments.read_guarded]
    rfl

theorem read_model {valued : Text → Bool} {harness : HeadlessHarness} (knows : Knows valued harness)
    (model effort : Option String) (prompt : Text) :
    Arguments.read valued (model.elim [] (fun model => [modelOption, model.toList]) ++
        (effort.elim [] (fun effort => effortArguments harness effort.toList) ++
          Arguments.guarded prompt)) =
      some ⟨given modelOption (model.map String.toList) ++
        given (effortOption harness) (effort.map fun effort => effortValue harness effort.toList),
        [prompt]⟩ := by
  cases model with
  | none => exact read_effort knows effort prompt
  | some model =>
    simp only [Option.elim_some, List.cons_append, List.nil_append]
    rw [Arguments.read_option valued rfl (by decide) knows.model, read_effort knows]
    rfl

/-- A harness reads the options that its call names, and the prompt as a prompt. -/
theorem HarnessCall.read_intoParts (call : HarnessCall) {valued : Text → Bool}
    (knows : Knows valued call.harness) :
    Arguments.read valued call.intoParts.2 = some call.meant := by
  obtain ⟨harness, prompt, model, effort⟩ := call
  unfold HarnessCall.intoParts HarnessCall.meant
  dsimp only at knows ⊢
  have rest := read_model knows model effort prompt
  by_cases codex : harness = .codex
  · subst codex
    have plain : (headlessArgument .codex).head? ≠ some '-' := by decide
    rw [Arguments.read_positional valued plain, rest]
    rfl
  · have print : headlessArgument harness = "--print".toList := by
      cases harness <;> first | rfl | exact absurd rfl codex
    have apart : "--print".toList ≠ Arguments.mark := by decide
    rw [print, Arguments.read_flag valued rfl apart knows.print, rest, if_neg codex, if_neg codex]
    rfl

theorem given_append_inj {name other : Text} (apart : name ≠ other)
    {first first' second second' : Option Text}
    (h : given name first ++ given other second = given name first' ++ given other second') :
    first = first' ∧ second = second' := by
  have front (first second : Option Text) :
      (given name first ++ given other second).lookup name = first.map some := by
    cases first <;> cases second <;> simp [given, List.lookup_cons, beq_eq_false_iff_ne.mpr apart]
  have back (first second : Option Text) :
      (given name first ++ given other second).lookup other = second.map some := by
    cases first <;> cases second <;> simp [given, List.lookup_cons, beq_eq_false_iff_ne.mpr apart.symm]
  have fronts := congrArg (List.lookup name) h
  have backs := congrArg (List.lookup other) h
  rw [front, front] at fronts
  rw [back, back] at backs
  exact ⟨Option.map_injective (Option.some_injective _) fronts,
    Option.map_injective (Option.some_injective _) backs⟩

theorem effortValue_injective (harness : HeadlessHarness) :
    Function.Injective fun effort : String => effortValue harness effort.toList := by
  intro one other h
  apply String.toList_injective
  cases harness with
  | codex => exact List.append_cancel_left h
  | _ => exact h

/-- Two calls that run the same program with the same arguments are the same call. -/
theorem HarnessCall.intoParts_injective {call other : HarnessCall}
    (same : call.intoParts = other.intoParts) : call = other := by
  obtain ⟨harness, prompt, model, effort⟩ := call
  obtain ⟨harness', prompt', model', effort'⟩ := other
  have program : harness.name.toList = harness'.name.toList := congrArg Prod.fst same
  obtain rfl : harness = harness' := by
    cases harness <;> cases harness' <;> first | rfl | exact absurd program (by decide)
  have knows : Knows (fun option => option = modelOption ∨ option = effortOption harness) harness := by
    refine ⟨?_, ?_, ?_⟩ <;> cases harness <;> decide
  have here := HarnessCall.read_intoParts ⟨harness, prompt, model, effort⟩ knows
  have there := HarnessCall.read_intoParts ⟨harness, prompt', model', effort'⟩ knows
  rw [same, there] at here
  have means := Option.some.inj here
  unfold HarnessCall.meant at means
  simp only [Arguments.mk.injEq, List.append_cancel_left_eq, List.cons.injEq, and_true] at means
  obtain ⟨options, rfl⟩ := means
  have apart : modelOption ≠ effortOption harness := by cases harness <;> decide
  obtain ⟨models, efforts⟩ := given_append_inj apart options
  obtain rfl := Option.map_injective (fun _ _ => String.toList_injective) models
  obtain rfl := Option.map_injective (effortValue_injective harness) efforts
  rfl

/-! ## What a started harness reads -/

theorem started_of_ready {world : World} {workflow : Workflow} {run run' : Run}
    {started : List StartedTask} (settled : Settled workflow run)
    (start : startReadyTasks world run = (.ok started, run')) :
    run'.outputs = run.outputs ∧ ∀ task ∈ started, ∃ i ∈ run.execution.ready, ∃ own,
      workflow.task i = some own ∧ task.index = i ∧ task.request = own.request := by
  have returns := startReadyTasks_returns world run
  rw [settled.same] at returns
  obtain ⟨_, ha, hstarted, hrun⟩ := returns.of_ok start
  obtain rfl := Except.ok.inj ha
  refine ⟨by rw [hrun, foldl_begin_outputs], fun task hmem => ?_⟩
  rw [hstarted] at hmem
  obtain ⟨i, hi, hmem⟩ := List.mem_filterMap.mp hmem
  obtain ⟨own, hown, rfl⟩ := Option.map_eq_some_iff.mp hmem
  exact ⟨i, hi, own, hown, rfl, rfl⟩

/-- The harness of a started task reads the options of the task and one prompt: that of the task,
filled with what other tasks wrote. No text that they wrote is read as an option. -/
theorem started_prompt_read {world : World} {workflow : Workflow} (delivers : world.Delivers)
    {run run' : Run} {started : List StartedTask} (reached : Reached world workflow run)
    (start : startReadyTasks world run = (.ok started, run')) :
    ∀ task ∈ started, ∀ harness prompt options, task.request = .harness harness prompt options →
      ∃ filled job, Filled workflow run.events prompt filled ∧
        prepare workflow run'.outputs task = .ok job ∧
        job.request.intoParts.1 = harness.name.toList ∧
        ∀ valued, Knows valued harness → Arguments.read valued job.request.intoParts.2 =
          some (HarnessCall.meant ⟨harness, filled, options.model, options.effort⟩) := by
  have settled := reached_settled delivers reached
  obtain ⟨outputs, begun⟩ := started_of_ready settled start
  intro task hmem harness prompt options hrequest
  obtain ⟨i, hi, own, hown, -, same⟩ := begun task hmem
  obtain ⟨rendered, hrender, hfilled⟩ := settled.renderRequest hi hown
  rw [← same, hrequest] at hrender hfilled
  cases hfilled with
  | @harness _ _ filled _ wrote =>
    have asked : executionRequest (.harness harness filled options) =
        .harness ⟨harness, filled, options.model, options.effort⟩ := by
      simp [executionRequest, HarnessCall.withOptions]
    refine ⟨filled, ⟨some task.index, executionRequest (.harness harness filled options), task.sandbox⟩,
      wrote, ?_, ?_⟩
    · unfold prepare
      rw [hrequest, outputs, hrender]
      rfl
    · dsimp only
      rw [asked]
      exact ⟨rfl, fun valued knows => HarnessCall.read_intoParts _ knows⟩

/-- `review` is a prompt that starts with what `draft` wrote, which is an option. -/
def draftAndReview : List TaskDefinition :=
  [⟨⟨"draft".toList, by decide⟩, [], .command "make".toList [], none⟩,
    ⟨⟨"review".toList, by decide⟩, [⟨"draft".toList, by decide⟩],
      .harness .claude "\x7b\x7b tasks.draft.stdout \x7d\x7d".toList ⟨none, some "high"⟩, none⟩]

theorem draftAndReview_resolved : resolveTasks draftAndReview = .ok
    [⟨⟨"draft".toList, by decide⟩, [], [], .command "make".toList [], none⟩,
      ⟨⟨"review".toList, by decide⟩, [0], [0],
        .harness .claude "\x7b\x7b tasks.draft.stdout \x7d\x7d".toList ⟨none, some "high"⟩, none⟩] := rfl

def draftAndReviewWorkflow : Workflow where
  tasks := _
  wellFormed := resolveTasks_wellFormed draftAndReview_resolved

/-- The draft is `--help`. -/
def writesOption (task : Nat) : Outcome :=
  .ok (if task = 0 then ⟨some 0, [0x2D, 0x2D, 0x68, 0x65, 0x6C, 0x70, 0x0A], []⟩ else ⟨some 0, [], []⟩)

def beforeReview : Run :=
  (turn (.immediate writesOption) draftAndReviewWorkflow (Run.initial draftAndReviewWorkflow)).2

theorem beforeReview_reached :
    Reached (.immediate writesOption) draftAndReviewWorkflow beforeReview :=
  .turn .initial (by decide) (Prod.ext (by decide +kernel) rfl)

theorem started_prompt_read_option : ∃ started run',
    startReadyTasks (.immediate writesOption) beforeReview = (.ok started, run') ∧
      ∀ task ∈ started, ∀ harness prompt options, task.request = .harness harness prompt options →
        ∃ filled job, Filled draftAndReviewWorkflow beforeReview.events prompt filled ∧
          prepare draftAndReviewWorkflow run'.outputs task = .ok job ∧
          job.request.intoParts.1 = harness.name.toList ∧
          ∀ valued, Knows valued harness → Arguments.read valued job.request.intoParts.2 =
            some (HarnessCall.meant ⟨harness, filled, options.model, options.effort⟩) := by
  have hok : (startReadyTasks (.immediate writesOption) beforeReview).1.isOk = true := by
    decide +kernel
  obtain ⟨started, hstarted⟩ := exists_of_isOk hok
  exact ⟨started, _, hstarted,
    started_prompt_read (immediate_delivers _) beforeReview_reached hstarted⟩

example : HarnessCall.intoParts ⟨.claude, "--help".toList, none, some "high"⟩ =
    ("claude".toList, ["--print".toList, "--effort".toList, "high".toList, "--".toList,
      "--help".toList]) := by decide

end Beez.Runner
