import Beez.Daemon.Job
import Beez.Manifest.Load

/-! # What a manifest lets the daemon run -/

open Beez.Core Beez.Lib

namespace Beez

variable [RustDebug]

/-- An entry that the table of the workflow or the one of the task names. -/
def NamedFor (workflow : Option ManifestSandbox) (written : ManifestTask) (entry : PolicyEntry) : Prop :=
  ∃ (table : ManifestSandbox) (sections : Sections),
    (workflow = some table ∨ written.sandbox = some (.policy table)) ∧
      table.read = .ok sections ∧ sections.Names entry

/-- The task is as limited as the tables ask for. -/
structure Limited (workflow : Option ManifestSandbox) (written : ManifestTask) (task : Task) : Prop where
  off : task.sandbox = none ↔ written.sandbox = some (.enabled false)
  keeps : ∀ policy ∈ task.sandbox, ∀ entry, NamedFor workflow written entry →
    ∀ profile, policy.Applies profile entry

/-- A table that is read names in the policy of a task what it names itself. -/
theorem Sandboxes.names {table : Option ManifestSandbox} {workflow : Option SandboxPolicy}
    {written : ManifestTask} {policy : SandboxPolicy} (base : WorkflowSandbox table workflow)
    (sandboxes : Sandboxes workflow written.sandbox (some policy)) {entry : PolicyEntry}
    (named : NamedFor table written entry) : policy.sections.Names entry := by
  obtain ⟨found, sections, which, read, names⟩ := named
  have ofWorkflow (h : table = some found) : (workflow.getD .default).sections.Names entry := by
    subst h
    cases base with
    | table read' =>
      obtain rfl := Except.ok.inj (read'.symm.trans read)
      exact (Sections.names_applyTo _ _ entry).mpr (.inr names)
  generalize written.sandbox = setting at sandboxes which
  cases sandboxes with
  | unset => exact ofWorkflow (which.resolve_right (by simp))
  | on => exact ofWorkflow (which.resolve_right (by simp))
  | @table own ownSections read' =>
    rw [Sections.names_applyTo]
    rcases which with which | which
    · exact .inl (ofWorkflow which)
    · cases which
      obtain rfl := Except.ok.inj (read'.symm.trans read)
      exact .inr names

theorem Sandboxes.off_iff {workflow sandbox : Option SandboxPolicy} {setting : Option WrittenSetting}
    (sandboxes : Sandboxes workflow setting sandbox) :
    sandbox = none ↔ setting = some (.enabled false) := by
  cases sandboxes <;> simp

theorem load_limited [CronCrate] [ChronoCrate] {build : Build} {source : ManifestSource}
    {path : Path} {manifest : Manifest}
    (h : (Manifest.load build source path).run = some (.ok manifest)) :
    ∃ document, source.Holds path document ∧
      List.Forall₂ (ScheduleFields.Gives build) (ScheduleSetting.entries document.schedule)
        manifest.schedules ∧
      List.Forall₂ (Limited document.sandbox) document.tasks manifest.workflow.tasks := by
  obtain ⟨document, workflow, definitions, written, resolves⟩ := load_written h
  refine ⟨document, written.holds, written.entries, Forall₂.comp ?_ written.tasks resolves⟩
  intro task definition built describes resolves
  have sandboxes := describes.sandbox
  rw [← resolves.sandbox] at sandboxes
  refine ⟨sandboxes.off_iff, fun policy limits entry named => ?_⟩
  rw [Option.mem_def.mp limits] at sandboxes
  exact SandboxPolicy.applies_of_names (sandboxes.names written.sandbox named)

namespace Daemon

theorem everyTaskSandboxed_iff {workflow : Option ManifestSandbox} {tasks : List ManifestTask}
    {manifest : Manifest} (limited : List.Forall₂ (Limited workflow) tasks manifest.workflow.tasks) :
    everyTaskSandboxed manifest = true ↔ ∀ task ∈ tasks, task.sandbox ≠ some (.enabled false) := by
  unfold everyTaskSandboxed
  generalize manifest.workflow.tasks = built at limited
  induction limited with
  | nil => simp
  | cons first _ ih =>
    rw [List.all_cons, Bool.and_eq_true, ih, List.forall_mem_cons, ne_eq, ← first.off,
      Option.isSome_iff_ne_none]

/-- Loading a watched manifest panics over an offset, fails, or returns. A job of a manifest that
loads runs if its schedule is one that an entry gives and no task is written `sandbox: false`, or
the schedule allows it. Its tasks are then as limited as the tables ask for. -/
theorem jobs_limited [CronCrate] [ChronoCrate] (build : Build) (source : ManifestSource)
    (watched : Watched) (states : States) :
    ((Manifest.load build source watched.path).run = none ∧ build = .checked ∧
      ∃ document, source.Holds watched.path document ∧
        ∃ fields ∈ ScheduleSetting.entries document.schedule, ∃ value,
          fields.offset = some value ∧ UtcOffset.fromStr .checked value = none) ∨
    (∃ error, (Manifest.load build source watched.path).run = some (.error error) ∧
      ∀ job ∈ jobsOf (fun _ => .error error.display) watched states,
        job.error = some error.display) ∨
    ∃ document manifest, source.Holds watched.path document ∧
      (Manifest.load build source watched.path).run = some (.ok manifest) ∧
      List.Forall₂ (Limited document.sandbox) document.tasks manifest.workflow.tasks ∧
      ∀ job ∈ jobsOf (fun _ => .ok manifest) watched states, (job.error = none ↔
        ∃ schedule, job.schedule = some schedule ∧
          (∃ fields ∈ ScheduleSetting.entries document.schedule, fields.Gives build schedule) ∧
          (schedule.allowUnsandboxed = true ∨
            ∀ task ∈ document.tasks, task.sandbox ≠ some (.enabled false))) := by
  match hload : (Manifest.load build source watched.path).run with
  | none => exact .inl ⟨rfl, load_panics hload⟩
  | some (.error error) =>
    refine .inr (.inl ⟨error, rfl, fun job hmem => ?_⟩)
    unfold jobsOf at hmem
    rw [List.mem_singleton.mp hmem]
    rfl
  | some (.ok manifest) =>
    obtain ⟨document, holds, entries, limited⟩ := load_limited hload
    refine .inr (.inr ⟨document, manifest, holds, rfl, limited, fun job hmem => ?_⟩)
    rw [← everyTaskSandboxed_iff limited]
    unfold jobsOf at hmem
    dsimp only at hmem
    split at hmem
    · rw [List.mem_singleton.mp hmem]
      simp [broken, Job.new]
    · obtain ⟨schedule, hschedule, rfl⟩ := List.mem_map.mp hmem
      obtain ⟨i, hi⟩ := List.mem_iff_getElem?.mp hschedule
      obtain ⟨fields, hfields, given⟩ := Forall₂.getElem? entries hi
      have listed : ∃ fields ∈ ScheduleSetting.entries document.schedule,
          fields.Gives build schedule := ⟨fields, List.mem_of_getElem? hfields, given⟩
      have own : (jobOf watched states manifest schedule).schedule = some schedule := rfl
      simp only [own, Option.some.injEq, exists_eq_left', listed, true_and]
      simp only [jobOf, Job.new, ite_eq_right_iff, reduceCtorEq, imp_false, Bool.and_eq_true,
        Bool.not_eq_true', not_and, Bool.not_eq_false]
      cases everyTaskSandboxed manifest <;> simp

end Daemon

end Beez
