import Beez.Core.Validation
import Beez.Lib.Machine
import Beez.Path
import Beez.Record.Time
import Beez.Runner.Run
import Mathlib.Logic.Function.Basic

/-! # The artifacts of one run

Every run gets its own directory under the runs of the Beez root, named after the time it started
and the process that started it.
-/

open Beez.Core Beez.Lib Beez.Runner

namespace Beez.Record

/-! ## Files -/

inductive Node where
  | directory
  | file (bytes : List Byte)
  | link (target : Path)
deriving DecidableEq

/-- What each path of the host holds. -/
abbrev Disk := Path → Option Node

/-- One step on the file system. A write is cut into its bytes, because it may land in parts. -/
inductive FileStep where
  /-- One level of `create_dir_all`. -/
  | createDir (path : Path)
  /-- `ignore_everything`. -/
  | ignore (root : Path)
  | remove (path : Path)
  | symlink (target path : Path)
  /-- `File::create`, which empties a file that is there. -/
  | create (path : Path)
  /-- One byte through the handle that the run has on `path`. -/
  | write (path : Path) (byte : Byte)
deriving DecidableEq

namespace FileStep

/-- The path that the step may change. -/
def path : FileStep → Path
  | createDir path | remove path | symlink _ path | create path | write path _ => path
  | ignore root => root ++ [".gitignore"]

/-- The run goes on when the step fails. -/
def optional : FileStep → Bool
  | ignore _ | remove _ | symlink .. => true
  | createDir _ | create _ | write .. => false

/-- The content once `byte` stands at `offset`. What lies before it and was not written is zero. -/
def writeAt (offset : Nat) (byte : Byte) (bytes : List Byte) : List Byte :=
  if offset < bytes.length then bytes.set offset byte
  else bytes ++ List.replicate (offset - bytes.length) 0 ++ [byte]

/-- What the step makes of the node at its path, through a handle at `offset`. -/
def node (offset : Nat) : FileStep → Option Node → Option Node
  | createDir _, none => some .directory
  | ignore _, none => some (.file [42, 10])
  | symlink target _, none => some (.link target)
  | remove _, some .directory => some .directory
  | remove _, _ => none
  | create _, none | create _, some (.file _) => some (.file [])
  | write _ byte, some (.file bytes) => some (.file (writeAt offset byte bytes))
  | _, found => found

def apply (step : FileStep) (offsets : Path → Nat) (disk : Disk) : Disk :=
  Function.update disk step.path (step.node (offsets step.path) (disk step.path))

/-- Where the handles of the run stand after the step. -/
def advance (step : FileStep) (offsets : Path → Nat) : Path → Nat :=
  match step with
  | create path => Function.update offsets path 0
  | write path _ => Function.update offsets path (offsets path + 1)
  | _ => offsets

theorem apply_of_ne {step : FileStep} {path : Path} (h : path ≠ step.path) (offsets : Path → Nat)
    (disk : Disk) : step.apply offsets disk path = disk path := by
  unfold apply
  rw [Function.update_of_ne h]

theorem apply_congr (step : FileStep) (offsets : Path → Nat) {disk disk' : Disk} {path : Path}
    (h : disk path = disk' path) : step.apply offsets disk path = step.apply offsets disk' path := by
  by_cases here : path = step.path
  · subst here
    simp only [apply, Function.update_self, h]
  · rw [apply_of_ne here, apply_of_ne here, h]

end FileStep

/-! ## The steps of one run -/

/-- What one run executes. -/
inductive RunTarget where
  | workflow (workflow : Workflow)
  | request (name : Text)

/-- The name of every task record, in declaration order. -/
def RunTarget.ids : RunTarget → List Text
  | .workflow loaded => loaded.tasks.map (·.id.text)
  | .request name => [name]

/-- One call on the open log, with the bytes of the lines it formats. -/
inductive LogCall where
  | status (line : List Byte)
  | output (index : Nat) (stream : OutputStream) (line logged : List Byte)
  | finish (record : List Byte)

/-- One run that writes artifacts. `resolved` is true when Beez found the root itself. -/
structure LoggedRun where
  started : Int
  pid : Nat
  resolved : Bool
  target : RunTarget
  calls : List LogCall

/-- The name of one run. -/
def runId (started : Int) (pid : Nat) : Text := compactUtc started ++ '-' :: decimal pid

namespace LoggedRun

def id (run : LoggedRun) : String := String.ofList (runId run.started run.pid)

/-- The directory of one run. -/
def directory (run : LoggedRun) (root : Path) : Path := root ++ ["runs", run.id]

def runLog (run : LoggedRun) (root : Path) : Path := run.directory root ++ ["run.log"]

def runRecord (run : LoggedRun) (root : Path) : Path := run.directory root ++ ["run.json"]

def streamFile (run : LoggedRun) (root : Path) (id : Text) : OutputStream → Path
  | .stdout => run.directory root ++ ["tasks", String.ofList (id ++ ".stdout".toList)]
  | .stderr => run.directory root ++ ["tasks", String.ofList (id ++ ".stderr".toList)]

/-- `RunLog::create`. -/
def createSteps (run : LoggedRun) (root : Path) : List FileStep :=
  (run.directory root ++ ["tasks"]).inits.map .createDir ++
    (if run.resolved then [.ignore root] else []) ++
    -- `link_latest`
    [.remove (root ++ ["latest"]), .symlink ["runs", run.id] (root ++ ["latest"])] ++
    run.target.ids.flatMap (fun id =>
      [.create (run.streamFile root id .stdout), .create (run.streamFile root id .stderr)]) ++
    [.create (run.runLog root)]

/-- `RunLog::status`, `RunLog::output` and `RunLog::finish`. -/
def callSteps (run : LoggedRun) (root : Path) : LogCall → List FileStep
  | .status line => line.map (.write (run.runLog root))
  | .output index stream line logged =>
    match run.target.ids[index]? with
    | none => []
    | some id => line.map (.write (run.streamFile root id stream)) ++
      logged.map (.write (run.runLog root))
  | .finish record => .create (run.runRecord root) :: record.map (.write (run.runRecord root))

def steps (run : LoggedRun) (root : Path) : List FileStep :=
  run.createSteps root ++ run.calls.flatMap (run.callSteps root)

end LoggedRun

/-! ## Runs side by side -/

/-- What one run has left to do, and where its handles stand. -/
structure Writer where
  left : List FileStep
  offsets : Path → Nat

/-- The file system, and the runs by number. -/
structure Shared where
  disk : Disk
  writers : Nat → Writer

/-- One run takes its next step, which may fail. -/
structure Turn where
  run : Nat
  succeeds : Bool

/-- The writer once its next step succeeded or failed. A failure closes the log, unless the run
does not look at it. -/
def Writer.next (writer : Writer) (step : FileStep) (rest : List FileStep) (succeeds : Bool) :
    Writer :=
  if succeeds then ⟨rest, step.advance writer.offsets⟩
  else ⟨if step.optional then rest else [], writer.offsets⟩

def turn (shared : Shared) (turn : Turn) : Shared :=
  let writer := shared.writers turn.run
  match writer.left with
  | [] => shared
  | step :: rest =>
    ⟨if turn.succeeds then step.apply writer.offsets shared.disk else shared.disk,
      Function.update shared.writers turn.run (writer.next step rest turn.succeeds)⟩

/-- Every run is about to start. -/
def atStart (root : Path) (runs : List LoggedRun) (disk : Disk) : Shared :=
  ⟨disk, fun i => ⟨(runs[i]?.map (·.steps root)).getD [], fun _ => 0⟩⟩

/-- Every run has a directory of its own. No step of another run changes what is in it, so it
holds what it would hold had the run been alone. -/
structure KeptApart (root : Path) (runs : List LoggedRun) : Prop where
  directories : (runs.map (·.directory root)).Nodup
  untouched : ∀ disk turns i run, runs[i]? = some run → ∀ next : Turn, next.run ≠ i →
    ∀ path, run.directory root <+: path →
      (turn (runAll turn (atStart root runs disk) turns) next).disk path =
        (runAll turn (atStart root runs disk) turns).disk path
  alone : ∀ disk turns i run, runs[i]? = some run → ∀ path, run.directory root <+: path →
    (runAll turn (atStart root runs disk) turns).disk path =
      (runAll turn (atStart root runs disk) (turns.filter (·.run = i))).disk path

/-! ## The name of a run -/

theorem runId_inj {started started' : Int} {pid pid' : Nat}
    (h : runId started pid = runId started' pid') :
    millisecond started = millisecond started' ∧ pid = pid' := by
  have noDash : ∀ n, '-' ∉ decimal n := not_mem_decimal (by decide)
  have cut := congrArg (Text.rsplitOnce '-') h
  unfold runId at cut
  rw [Text.rsplitOnce_append _ (noDash pid), Text.rsplitOnce_append _ (noDash pid')] at cut
  simp only [Option.some.injEq, Prod.mk.injEq] at cut
  exact ⟨compactUtc_inj cut.1, decimal_inj cut.2⟩

theorem compactUtc_congr {a b : Int} (h : millisecond a = millisecond b) :
    compactUtc a = compactUtc b := by
  unfold compactUtc
  rw [h]

theorem directory_eq_iff (root : Path) (a b : LoggedRun) :
    a.directory root = b.directory root ↔
      millisecond a.started = millisecond b.started ∧ a.pid = b.pid := by
  constructor
  · intro h
    have same := List.append_cancel_left h
    simp only [List.cons.injEq, and_true, true_and] at same
    exact runId_inj (String.ofList_injective same)
  · rintro ⟨hstarted, hpid⟩
    simp only [LoggedRun.directory, LoggedRun.id, runId, compactUtc_congr hstarted, hpid]

/-! ## Where a run writes -/

section

variable {root path : Path} {run other : LoggedRun} {step : FileStep}

/-- The paths that a run may change: those in its directory, those on the way to it, and two
beside the runs. -/
inductive Reaches (root : Path) (run : LoggedRun) (path : Path) : Prop where
  | inside (h : run.directory root <+: path)
  | above (h : path <+: run.directory root ++ ["tasks"])
  | beside (name : String) (h : path = root ++ [name])

theorem createSteps_reach (h : step ∈ run.createSteps root) : Reaches root run step.path := by
  simp only [LoggedRun.createSteps, List.mem_append, List.mem_map, List.mem_flatMap,
    List.mem_cons, List.not_mem_nil, or_false] at h
  rcases h with (((⟨directory, hdirectory, rfl⟩ | h) | rfl | rfl) | ⟨id, -, rfl | rfl⟩) | rfl
  · exact .above ((List.mem_inits _ _).mp hdirectory)
  · split at h
    · rw [List.mem_singleton.mp h]
      exact .beside _ rfl
    · simp at h
  · exact .beside _ rfl
  · exact .beside _ rfl
  · exact .inside (List.prefix_append _ _)
  · exact .inside (List.prefix_append _ _)
  · exact .inside (List.prefix_append _ _)

theorem streamFile_inside (id : Text) (stream : OutputStream) :
    run.directory root <+: run.streamFile root id stream := by
  cases stream <;> exact List.prefix_append _ _

theorem callSteps_reach {call : LogCall} (h : step ∈ run.callSteps root call) :
    run.directory root <+: step.path := by
  unfold LoggedRun.callSteps at h
  split at h
  · obtain ⟨byte, -, rfl⟩ := List.mem_map.mp h
    exact List.prefix_append _ _
  · split at h
    · simp at h
    · rcases List.mem_append.mp h with h | h
      · obtain ⟨byte, -, rfl⟩ := List.mem_map.mp h
        exact streamFile_inside _ _
      · obtain ⟨byte, -, rfl⟩ := List.mem_map.mp h
        exact List.prefix_append _ _
  · rcases List.mem_cons.mp h with rfl | h
    · exact List.prefix_append _ _
    · obtain ⟨byte, -, rfl⟩ := List.mem_map.mp h
      exact List.prefix_append _ _

theorem steps_reach (h : step ∈ run.steps root) : Reaches root run step.path := by
  rcases List.mem_append.mp h with h | h
  · exact createSteps_reach h
  · obtain ⟨call, -, h⟩ := List.mem_flatMap.mp h
    exact .inside (callSteps_reach h)

theorem length_directory (root : Path) (run : LoggedRun) :
    (run.directory root).length = root.length + 2 := by
  simp [LoggedRun.directory]

theorem Reaches.not_inside (reaches : Reaches root other path)
    (apart : run.directory root ≠ other.directory root) : ¬ run.directory root <+: path := by
  intro h
  have same : (run.directory root).length = (other.directory root).length := by
    rw [length_directory, length_directory]
  cases reaches with
  | inside h' =>
    exact apart ((List.prefix_of_prefix_length_le h h' (by omega)).eq_of_length same)
  | above h' =>
    have both := List.prefix_of_prefix_length_le (h.trans h') (List.prefix_append _ _) (by omega)
    exact apart (both.eq_of_length same)
  | beside name h' =>
    have := h.length_le
    rw [length_directory, h'] at this
    simp at this

end

/-! ## No run reaches into another -/

section

variable {root path : Path} {runs : List LoggedRun} {run : LoggedRun} {i : Nat}

/-- What the runs have left to do are steps of their own. -/
def OwnSteps (root : Path) (runs : List LoggedRun) (shared : Shared) : Prop :=
  ∀ j, ∀ step ∈ (shared.writers j).left, ∃ run, runs[j]? = some run ∧ step ∈ run.steps root

/-- Two states that show one run the same: its writer, and what is in its directory. -/
structure SameView (directory : Path) (i : Nat) (shared other : Shared) : Prop where
  writer : shared.writers i = other.writers i
  disk : ∀ path, directory <+: path → shared.disk path = other.disk path

theorem turn_of_done {shared : Shared} {next : Turn} (h : (shared.writers next.run).left = []) :
    turn shared next = shared := by
  unfold turn
  simp only [h]

theorem turn_of_step {shared : Shared} {next : Turn} {step : FileStep} {rest : List FileStep}
    (h : (shared.writers next.run).left = step :: rest) :
    turn shared next =
      ⟨if next.succeeds then step.apply (shared.writers next.run).offsets shared.disk
          else shared.disk,
        Function.update shared.writers next.run
          ((shared.writers next.run).next step rest next.succeeds)⟩ := by
  unfold turn
  simp only [h]

theorem next_left (writer : Writer) (step : FileStep) (rest : List FileStep) (succeeds : Bool) :
    (writer.next step rest succeeds).left = rest ∨ (writer.next step rest succeeds).left = [] := by
  unfold Writer.next
  split
  · exact .inl rfl
  · split
    · exact .inl rfl
    · exact .inr rfl

theorem atStart_own (root : Path) (runs : List LoggedRun) (disk : Disk) :
    OwnSteps root runs (atStart root runs disk) := by
  intro j step h
  unfold atStart at h
  cases hrun : runs[j]? with
  | none => simp [hrun] at h
  | some run =>
    simp only [hrun, Option.map_some, Option.getD_some] at h
    exact ⟨run, rfl, h⟩

theorem turn_own {shared : Shared} (own : OwnSteps root runs shared) (next : Turn) :
    OwnSteps root runs (turn shared next) := by
  cases hleft : (shared.writers next.run).left with
  | nil =>
    rw [turn_of_done hleft]
    exact own
  | cons step rest =>
    rw [turn_of_step hleft]
    intro j held hheld
    dsimp only at hheld
    by_cases here : j = next.run
    · subst here
      rw [Function.update_self] at hheld
      apply own next.run
      rw [hleft]
      rcases next_left (shared.writers next.run) step rest next.succeeds with h | h
      · rw [h] at hheld
        exact List.mem_cons_of_mem _ hheld
      · rw [h] at hheld
        cases hheld
    · rw [Function.update_of_ne here] at hheld
      exact own j held hheld

theorem directory_ne (distinct : (runs.map (·.directory root)).Nodup) {j : Nat}
    {other : LoggedRun} (hrun : runs[i]? = some run) (hother : runs[j]? = some other)
    (hne : j ≠ i) : run.directory root ≠ other.directory root := by
  intro same
  apply hne
  have hlt : j < (runs.map (·.directory root)).length := by
    simpa using (List.getElem?_eq_some_iff.mp hother).1
  apply (List.getElem?_inj hlt distinct).mp
  rw [List.getElem?_map, List.getElem?_map, hrun, hother, Option.map_some, Option.map_some, same]

theorem turn_other (distinct : (runs.map (·.directory root)).Nodup) (hrun : runs[i]? = some run)
    {shared : Shared} (own : OwnSteps root runs shared) {next : Turn} (other : next.run ≠ i) :
    SameView (run.directory root) i (turn shared next) shared := by
  cases hleft : (shared.writers next.run).left with
  | nil =>
    rw [turn_of_done hleft]
    exact ⟨rfl, fun _ _ => rfl⟩
  | cons step rest =>
    rw [turn_of_step hleft]
    refine ⟨Function.update_of_ne other.symm _ _, fun path inside => ?_⟩
    obtain ⟨stranger, hstranger, hstep⟩ := own next.run step (by simp [hleft])
    have outside : path ≠ step.path := by
      rintro rfl
      exact (steps_reach hstep).not_inside (directory_ne distinct hrun hstranger other) inside
    dsimp only
    split
    · exact FileStep.apply_of_ne outside _ _
    · rfl

/-- A turn of the run itself does the same wherever the run sees the same. -/
theorem turn_self {directory : Path} {shared shared' : Shared}
    (same : SameView directory i shared shared') {next : Turn} (self : next.run = i) :
    SameView directory i (turn shared next) (turn shared' next) := by
  subst self
  cases hleft : (shared.writers next.run).left with
  | nil =>
    rw [turn_of_done hleft, turn_of_done (same.writer ▸ hleft)]
    exact same
  | cons step rest =>
    rw [turn_of_step hleft, turn_of_step (same.writer ▸ hleft)]
    refine ⟨?_, fun path inside => ?_⟩
    · simp only [Function.update_self, same.writer]
    · dsimp only
      split
      · rw [same.writer]
        exact FileStep.apply_congr step _ (same.disk path inside)
      · exact same.disk path inside

/-- Runs of one root keep apart in every interleaving if and only if no two of them started in
one millisecond in one process. -/
theorem keptApart_iff (root : Path) (runs : List LoggedRun) :
    KeptApart root runs ↔ runs.Pairwise fun run other =>
      millisecond run.started ≠ millisecond other.started ∨ run.pid ≠ other.pid := by
  have names : (runs.map (·.directory root)).Nodup ↔ runs.Pairwise fun run other =>
      millisecond run.started ≠ millisecond other.started ∨ run.pid ≠ other.pid := by
    unfold List.Nodup
    rw [List.pairwise_map]
    simp only [ne_eq, directory_eq_iff, not_and_or]
  rw [← names]
  constructor
  · exact fun kept => kept.directories
  · intro distinct
    have keep : ∀ shared next, OwnSteps root runs shared → OwnSteps root runs (turn shared next) :=
      fun shared next own => turn_own own next
    refine ⟨distinct, ?_, ?_⟩
    · intro disk turns i run hrun next other path inside
      have own : OwnSteps root runs (runAll turn (atStart root runs disk) turns) :=
        runAll_invariant (fun shared next own _ => keep shared next own)
          (atStart_own root runs disk) (Along.of_forall (fun _ _ => trivial) _ turns)
      exact (turn_other distinct hrun own other).disk path inside
    · intro disk turns i run hrun path inside
      have self : ∀ shared shared' next, decide (next.run = i) = true →
          SameView (run.directory root) i shared shared' →
          SameView (run.directory root) i (turn shared next) (turn shared' next) :=
        fun shared shared' next self same => turn_self same (by simpa using self)
      have other : ∀ shared shared' next, decide (next.run = i) = false →
          OwnSteps root runs shared → SameView (run.directory root) i shared shared' →
          SameView (run.directory root) i (turn shared next) shared' := by
        intro shared shared' next other own same
        have moved := turn_other distinct hrun own (by simpa using other)
        exact ⟨moved.writer.trans same.writer,
          fun path inside => (moved.disk path inside).trans (same.disk path inside)⟩
      have view := runAll_filter keep self other (atStart_own root runs disk)
        ⟨rfl, fun _ _ => rfl⟩ turns
      exact view.disk path inside

end

/-! ## Two jobs that are due together -/

def lintWorkflow : Workflow :=
  (Workflow.tryFrom [⟨⟨"lint".toList, by decide⟩, [], .command "cargo".toList [], none⟩]).toOption.get
    (by decide +kernel)

/-- Two runs that one daemon starts within a millisecond. The first one has logged a line. -/
def dueTogether : List LoggedRun :=
  [⟨1700000000042100000, 4123, false, .workflow lintWorkflow, [.status [65, 10]]⟩,
    ⟨1700000000042500000, 4123, false, .workflow lintWorkflow, []⟩]

def oneThenOther : List Turn := List.replicate 12 ⟨0, true⟩ ++ List.replicate 12 ⟨1, true⟩

def firstLog : Path := ["root", "runs", "20231114T221320042Z-4123", "run.log"]

theorem runs_share_directory :
    ¬ KeptApart ["root"] dueTogether ∧
      (runAll turn (atStart ["root"] dueTogether fun _ => none)
        (oneThenOther.filter (·.run = 0))).disk firstLog = some (.file [65, 10]) ∧
      (runAll turn (atStart ["root"] dueTogether fun _ => none) oneThenOther).disk firstLog
        = some (.file []) := by
  refine ⟨fun kept => ?_, by decide +kernel, by decide +kernel⟩
  have distinct := kept.directories
  revert distinct
  decide +kernel

end Beez.Record
