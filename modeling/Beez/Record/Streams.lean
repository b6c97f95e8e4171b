import Beez.Record.Log
import Beez.Runner.Streams

/-! # The streams of the tasks on disk

The run log takes every event that is reported, and keeps each stream of each task in a file of
its own.
-/

open Beez.Core Beez.Lib Beez.Runner

namespace Beez.Record

/-! ## An open log -/

/-- The file system, where the handles of the run stand, and whether the log is open. -/
structure OpenLog where
  isOpen : Bool
  disk : Disk
  offsets : Path → Nat

namespace OpenLog

def perform (log : OpenLog) (step : FileStep) : OpenLog :=
  { log with disk := step.apply log.offsets log.disk, offsets := step.advance log.offsets }

/-- Writes to the log, and closes it after a failure: the step after the first `fails`. A closed
log ignores every later write. -/
def write (log : OpenLog) (steps : List FileStep) (fails : Option Nat) : OpenLog :=
  if log.isOpen then
    match fails with
    | none => runAll perform log steps
    | some count =>
      if count < steps.length then { runAll perform log (steps.take count) with isOpen := false }
      else runAll perform log steps
  else log

/-- The call that records one event. `logged` is the line in the run log. -/
def callOf (event : RunEvent) (logged : List Byte) : LogCall :=
  match event with
  | .output _ stream line => .output event.position stream line logged
  | _ => .status logged

/-- Records one lifecycle or output event. -/
def event (run : LoggedRun) (root : Path) (log : OpenLog) (event : RunEvent) (logged : List Byte)
    (fails : Option Nat) : OpenLog :=
  log.write (run.callSteps root (callOf event logged)) fails

/-! ### What the steps leave -/

variable {log : OpenLog} {path other : Path} {steps : List FileStep}

theorem perform_of_ne {step : FileStep} (ne : path ≠ step.path) :
    (log.perform step).disk path = log.disk path ∧
      (log.perform step).offsets path = log.offsets path := by
  refine ⟨FileStep.apply_of_ne ne _ _, ?_⟩
  unfold perform FileStep.advance
  cases step with
  | create own | write own byte => exact Function.update_of_ne ne _ _
  | createDir | ignore | remove | symlink => rfl

theorem runAll_of_ne (apart : ∀ step ∈ steps, path ≠ step.path) :
    (runAll perform log steps).disk path = log.disk path ∧
      (runAll perform log steps).offsets path = log.offsets path := by
  induction steps generalizing log with
  | nil => exact ⟨rfl, rfl⟩
  | cons step rest ih =>
    obtain ⟨disk, offsets⟩ := @perform_of_ne log path step (apart step (by simp))
    obtain ⟨disk', offsets'⟩ := @ih (log.perform step) fun step h =>
      apart step (List.mem_cons_of_mem _ h)
    exact ⟨disk'.trans disk, offsets'.trans offsets⟩

theorem writeAt_length (bytes : List Byte) (byte : Byte) :
    FileStep.writeAt bytes.length byte bytes = bytes ++ [byte] := by
  simp [FileStep.writeAt]

/-- A file that is written through to its end grows by what is written. -/
structure Holds (log : OpenLog) (path : Path) (bytes : List Byte) : Prop where
  content : log.disk path = some (.file bytes)
  atEnd : log.offsets path = bytes.length

theorem Holds.writes {bytes : List Byte} (holds : log.Holds path bytes) (more : List Byte) :
    (runAll perform log (more.map (.write path))).Holds path (bytes ++ more) := by
  induction more generalizing log bytes with
  | nil => simpa using holds
  | cons byte rest ih =>
    have next : (log.perform (.write path byte)).Holds path (bytes ++ [byte]) := by
      constructor
      · simp only [perform, FileStep.apply, FileStep.path, Function.update_self, holds.content,
          holds.atEnd, FileStep.node, writeAt_length]
      · simp [perform, FileStep.advance, holds.atEnd]
    have whole := ih next
    rwa [List.append_assoc] at whole

theorem Holds.of_ne {bytes : List Byte} (holds : log.Holds path bytes)
    (apart : ∀ step ∈ steps, path ≠ step.path) : (runAll perform log steps).Holds path bytes := by
  obtain ⟨disk, offsets⟩ := @runAll_of_ne log path steps apart
  exact ⟨disk.trans holds.content, offsets.trans holds.atEnd⟩

end OpenLog

/-! ## Files that are told apart -/

section

variable {run : LoggedRun} {root : Path}

theorem ids_nodup (target : RunTarget) : target.ids.Nodup := by
  cases target with
  | request name => exact List.nodup_singleton _
  | workflow loaded =>
    have ids := loaded.wellFormed.ids
    have texts : ((loaded.tasks.map (·.id)).map (·.text)).Nodup :=
      ids.map fun ⟨a, _⟩ ⟨b, _⟩ same => by simpa using same
    rwa [List.map_map] at texts

theorem streamFile_append (id : Text) (stream : OutputStream) : ∃ ending : Text,
    (ending = ".stdout".toList ∧ stream = .stdout ∨ ending = ".stderr".toList ∧ stream = .stderr) ∧
      run.streamFile root id stream =
        run.directory root ++ ["tasks", String.ofList (id ++ ending)] := by
  cases stream with
  | stdout => exact ⟨_, .inl ⟨rfl, rfl⟩, by rw [LoggedRun.streamFile]⟩
  | stderr => exact ⟨_, .inr ⟨rfl, rfl⟩, by rw [LoggedRun.streamFile]⟩

theorem endings_apart {a b : Text} (first : a = ".stdout".toList) (second : b = ".stderr".toList) :
    a.length = b.length ∧ a ≠ b := by
  subst first second
  decide

theorem streamFile_inj {id id' : Text} {stream stream' : OutputStream}
    (h : run.streamFile root id stream = run.streamFile root id' stream') :
    id = id' ∧ stream = stream' := by
  obtain ⟨ending, hending, name⟩ := @streamFile_append run root id stream
  obtain ⟨ending', hending', name'⟩ := @streamFile_append run root id' stream'
  rw [name, name'] at h
  have same := List.append_cancel_left h
  simp only [List.cons.injEq, and_true, true_and] at same
  have texts := String.ofList_injective same
  rcases hending with ⟨first, rfl⟩ | ⟨first, rfl⟩ <;>
    rcases hending' with ⟨second, rfl⟩ | ⟨second, rfl⟩
  · rw [first, second] at texts
    exact ⟨List.append_cancel_right texts, rfl⟩
  · obtain ⟨length, ne⟩ := endings_apart first second
    exact absurd (List.append_inj' texts length).2 ne
  · obtain ⟨length, ne⟩ := endings_apart second first
    exact absurd (List.append_inj' texts length.symm).2.symm ne
  · rw [first, second] at texts
    exact ⟨List.append_cancel_right texts, rfl⟩

theorem streamFile_ne_runLog (id : Text) (stream : OutputStream) :
    run.streamFile root id stream ≠ run.runLog root := by
  intro h
  have length := congrArg List.length h
  cases stream <;> simp [LoggedRun.streamFile, LoggedRun.runLog] at length

theorem ids_apart {target : RunTarget} {i j : Nat} {id : Text} (hi : target.ids[i]? = some id)
    (hj : target.ids[j]? = some id) : i = j := by
  obtain ⟨lt, -⟩ := List.getElem?_eq_some_iff.mp hi
  exact (List.getElem?_inj lt (ids_nodup target)).mp (hi.trans hj.symm)

end

/-! ## What is filed -/

/-- Every task of the run. -/
def RunTarget.whole : RunTarget → Batch
  | .workflow loaded => .tasks (List.range loaded.tasks.length)
  | .request _ => .request

/-- While the log is open, each stream of each task has a file with the lines that were
reported. -/
def Filed (run : LoggedRun) (root : Path) (log : OpenLog) (events : List RunEvent) : Prop :=
  log.isOpen = true → ∀ task ∈ run.target.whole.keys, ∀ id,
    run.target.ids[positionOf task]? = some id → ∀ stream,
      log.Holds (run.streamFile root id stream) (Exchange.outputLines task stream events).flatten

section

variable {run : LoggedRun} {root : Path} {log : OpenLog} {events : List RunEvent}

theorem OpenLog.write_cases (log : OpenLog) (steps : List FileStep) (fails : Option Nat) :
    (log.write steps fails).isOpen = true →
      log.isOpen = true ∧ log.write steps fails = runAll OpenLog.perform log steps := by
  unfold OpenLog.write
  by_cases on : log.isOpen = true
  · rw [if_pos on]
    cases fails with
    | none => exact fun _ => ⟨on, rfl⟩
    | some count =>
      dsimp only
      split
      · nofun
      · exact fun _ => ⟨on, rfl⟩
  · rw [if_neg on]
    exact fun h => absurd h on

theorem outputLines_of_ne {task own : Option Nat} {stream ownStream : OutputStream}
    {line : List Byte} (ne : own ≠ task ∨ ownStream ≠ stream) :
    Exchange.outputLines task stream [.output own ownStream line] = [] := by
  unfold Exchange.outputLines
  rcases ne with ne | ne <;> simp [ne]

theorem runLog_apart (id : Text) (stream : OutputStream) (bytes : List Byte) :
    ∀ step ∈ bytes.map (FileStep.write (run.runLog root)),
      run.streamFile root id stream ≠ step.path := by
  intro step hstep
  obtain ⟨byte, -, rfl⟩ := List.mem_map.mp hstep
  exact streamFile_ne_runLog id stream

/-- A status line goes to the run log only. -/
theorem Filed.status (filed : Filed run root log events) (line : List Byte)
    (fails : Option Nat) :
    Filed run root (log.write (run.callSteps root (.status line)) fails) events := by
  intro on task member id here stream
  obtain ⟨before, same⟩ := log.write_cases _ fails on
  rw [same]
  exact (filed before task member id here stream).of_ne (runLog_apart id stream line)

/-- The bytes of a line go to the file of its own stream, and of no other. -/
theorem OpenLog.Holds.line {task own : Option Nat} {stream ownStream : OutputStream}
    {id ownId : Text} (here : run.target.ids[positionOf task]? = some id)
    (found : run.target.ids[positionOf own]? = some ownId)
    (member : own ∈ run.target.whole.keys) (other : task ∈ run.target.whole.keys) {bytes : List Byte}
    (holds : log.Holds (run.streamFile root id stream) bytes) (line : List Byte) :
    (runAll OpenLog.perform log (line.map (.write (run.streamFile root ownId ownStream)))).Holds
      (run.streamFile root id stream)
      (bytes ++ (Exchange.outputLines task stream [.output own ownStream line]).flatten) := by
  by_cases mine : own = task ∧ ownStream = stream
  · obtain ⟨rfl, rfl⟩ := mine
    obtain rfl : id = ownId := Option.some.inj (here.symm.trans found)
    simpa [Exchange.outputLines] using holds.writes line
  · rw [outputLines_of_ne (by tauto), List.flatten_nil, List.append_nil]
    refine holds.of_ne fun step hstep => ?_
    obtain ⟨byte, -, rfl⟩ := List.mem_map.mp hstep
    intro path
    obtain ⟨rfl, rfl⟩ := streamFile_inj path
    exact mine ⟨Batch.position_inj member other (ids_apart found here), rfl⟩

theorem Filed.output (filed : Filed run root log events) {own : Option Nat}
    (member : own ∈ run.target.whole.keys) (ownStream : OutputStream) (line logged : List Byte)
    (fails : Option Nat) :
    Filed run root (log.event run root (.output own ownStream line) logged fails)
      (events ++ [.output own ownStream line]) := by
  intro on task other id here stream
  obtain ⟨before, same⟩ := log.write_cases _ fails on
  unfold OpenLog.event
  rw [same, Exchange.outputLines_append, List.flatten_append]
  have holds := filed before task other id here stream
  change OpenLog.Holds (runAll OpenLog.perform log
    (run.callSteps root (.output (positionOf own) ownStream line logged))) _ _
  unfold LoggedRun.callSteps
  dsimp only
  cases found : run.target.ids[positionOf own]? with
  | none =>
    have ne : own ≠ task := by
      rintro rfl
      rw [here] at found
      cases found
    rw [outputLines_of_ne (.inl ne)]
    simpa using holds
  | some ownId =>
    dsimp only
    rw [runAll_append]
    exact (holds.line here found member other line).of_ne (runLog_apart id stream logged)

theorem Filed.event (filed : Filed run root log events) {event : RunEvent}
    (member : event.task ∈ run.target.whole.keys) (logged : List Byte) (fails : Option Nat) :
    Filed run root (log.event run root event logged fails) (events ++ [event]) := by
  have silent : ∀ told : RunEvent,
      (∀ task stream, Exchange.outputLines task stream [told] = []) →
      OpenLog.callOf told logged = .status logged →
      Filed run root (log.event run root told logged fails) (events ++ [told]) := by
    intro told none call on task other id here stream
    rw [Exchange.outputLines_append, none, List.append_nil]
    unfold OpenLog.event at on ⊢
    rw [call] at on ⊢
    exact filed.status logged fails on task other id here stream
  cases event with
  | output own stream line => exact filed.output member stream line logged fails
  | started | finished | failed | blocked => exact silent _ (fun _ _ => rfl) rfl

end

/-! ## A log that was just opened -/

section

variable {log : OpenLog} {path : Path}

theorem create_holds (blank : ∀ node, log.disk path = some node → node = .file []) :
    (log.perform (.create path)).Holds path [] := by
  constructor
  · simp only [OpenLog.perform, FileStep.apply, FileStep.path, Function.update_self]
    cases found : log.disk path with
    | none => rfl
    | some node =>
      obtain rfl := blank node found
      rfl
  · simp [OpenLog.perform, FileStep.advance]

/-- A file that nothing else touches is empty once it is created. -/
theorem creates_hold {steps : List FileStep}
    (each : ∀ step ∈ steps, path ≠ step.path ∨ step = .create path)
    (blank : ∀ node, log.disk path = some node → node = .file [])
    (ready : .create path ∈ steps ∨ log.Holds path []) :
    (runAll OpenLog.perform log steps).Holds path [] := by
  induction steps generalizing log with
  | nil => exact ready.resolve_left (by simp)
  | cons step rest ih =>
    have others : ∀ step ∈ rest, path ≠ step.path ∨ step = .create path := fun step h =>
      each step (List.mem_cons_of_mem _ h)
    rcases each step (by simp) with apart | rfl
    · obtain ⟨disk, offsets⟩ := @OpenLog.perform_of_ne log path step apart
      refine ih others (fun node found => blank node (disk ▸ found)) (ready.imp ?_ fun holds => ?_)
      · intro member
        rcases List.mem_cons.mp member with rfl | h
        · exact absurd rfl apart
        · exact h
      · exact ⟨disk.trans holds.content, offsets.trans holds.atEnd⟩
    · have holds := create_holds blank
      refine ih others (fun node found => ?_) (.inr holds)
      rw [holds.content] at found
      exact (Option.some.inj found).symm

variable {run : LoggedRun} {root : Path}

theorem createSteps_streamFile (id : Text) (stream : OutputStream) {step : FileStep}
    (h : step ∈ run.createSteps root) :
    run.streamFile root id stream ≠ step.path ∨ step = .create (run.streamFile root id stream) := by
  have deep : (run.streamFile root id stream).length = root.length + 4 := by
    cases stream <;> simp [LoggedRun.streamFile, LoggedRun.directory]
  have shallow : ∀ path : Path, path.length < root.length + 4 →
      run.streamFile root id stream ≠ path := by
    rintro path short rfl
    omega
  have stream_file : ∀ id' stream', run.streamFile root id stream ≠ run.streamFile root id' stream' ∨
      FileStep.create (run.streamFile root id' stream') =
        .create (run.streamFile root id stream) := by
    intro id' stream'
    by_cases same : run.streamFile root id stream = run.streamFile root id' stream'
    · exact .inr (by rw [same])
    · exact .inl same
  simp only [LoggedRun.createSteps, List.mem_append, List.mem_map, List.mem_flatMap,
    List.mem_cons, List.not_mem_nil, or_false] at h
  rcases h with (((⟨directory, hdirectory, rfl⟩ | h) | rfl | rfl) | ⟨id, -, rfl | rfl⟩) | rfl
  · have short := ((List.mem_inits _ _).mp hdirectory).length_le
    refine .inl (shallow directory (short.trans_lt ?_))
    simp [LoggedRun.directory]
  · refine .inl (shallow _ ?_)
    split at h
    · rw [List.mem_singleton.mp h]
      simp [FileStep.path]
    · simp at h
  · exact .inl (shallow _ (by simp [FileStep.path]))
  · exact .inl (shallow _ (by simp [FileStep.path]))
  · exact stream_file id .stdout
  · exact stream_file id .stderr
  · exact .inl (streamFile_ne_runLog _ _)

theorem create_mem_createSteps {id : Text} (member : id ∈ run.target.ids) (stream : OutputStream) :
    .create (run.streamFile root id stream) ∈ run.createSteps root := by
  unfold LoggedRun.createSteps
  refine List.mem_append_left _ (List.mem_append_right _ ?_)
  refine List.mem_flatMap.mpr ⟨id, member, ?_⟩
  cases stream <;> simp

/-- In a directory that is new, every stream has a file with nothing in it. -/
theorem filed_of_create (unused : ∀ path, run.directory root <+: path → log.disk path = none) :
    Filed run root (runAll OpenLog.perform log (run.createSteps root)) [] := by
  intro _ task _ id here stream
  refine creates_hold (fun step h => createSteps_streamFile id stream h) (fun node found => ?_)
    (.inl (create_mem_createSteps (List.mem_of_getElem? here) stream))
  rw [unused _ (streamFile_inside id stream)] at found
  cases found

end

/-! ## While the tasks run -/

/-- What a run does at the same time, and the log that it finds. -/
structure Round where
  run : LoggedRun
  root : Path
  batch : Batch
  within : ∀ task ∈ batch.keys, task ∈ run.target.whole.keys
  log : OpenLog
  /-- What was reported before. -/
  before : List RunEvent
  filed : Filed run root log before
  silent : ∀ task ∈ batch.keys, ∀ stream, Exchange.outputLines task stream before = []

/-- A round of a run whose directory is new. -/
def Round.first (run : LoggedRun) (root : Path) (disk : Disk) (offsets : Path → Nat) (batch : Batch)
    (within : ∀ task ∈ batch.keys, task ∈ run.target.whole.keys)
    (unused : ∀ path, run.directory root <+: path → disk path = none) : Round where
  run := run
  root := root
  batch := batch
  within := within
  log := runAll OpenLog.perform ⟨true, disk, offsets⟩ (run.createSteps root)
  before := []
  filed := filed_of_create unused
  silent _ _ _ := rfl

structure Recording where
  exchange : Exchange
  log : OpenLog

inductive RecordingAct where
  /-- The callback records an event before anything else. `logged` is its line in the run log. -/
  | exchange (act : Act) (logged : List Byte) (fails : Option Nat)
  /-- A status line of another thread, such as a diagnostic of the sandbox. -/
  | status (line : List Byte) (fails : Option Nat)

namespace Round

def start (round : Round) : Recording := ⟨.start, round.log⟩

def take (round : Round) (recording : Recording) : RecordingAct → Recording
  | .exchange act logged fails =>
    ⟨recording.exchange.take round.batch act,
      match recording.exchange.next act with
      | none => recording.log
      | some message => recording.log.event round.run round.root message.event logged fails⟩
  | .status line fails =>
    { recording with
      log := recording.log.write (round.run.callSteps round.root (.status line)) fails }

/-- The events agree with the streams, and the files with the events. -/
structure Records (round : Round) (recording : Recording) : Prop where
  agrees : recording.exchange.Agrees round.batch
  filed : Filed round.run round.root recording.log (round.before ++ recording.exchange.events)
  finished : recording.log.isOpen = true → ∀ task output elapsed,
    .finished task output elapsed ∈ recording.exchange.events → ∀ id,
      round.run.target.ids[positionOf task]? = some id → ∀ stream,
        recording.log.disk (round.run.streamFile round.root id stream) =
          some (.file (output.bytes stream))

structure Keeps (round : Round) (recording : Recording) : Prop where
  carries : recording.exchange.Carries round.batch
  filed : Filed round.run round.root recording.log (round.before ++ recording.exchange.events)

variable {round : Round} {recording : Recording}

theorem start_keeps (round : Round) : round.Keeps round.start where
  carries := Exchange.start_carries _
  filed := by simpa [start, Exchange.start, Exchange.events] using round.filed

theorem Keeps.take (keeps : round.Keeps recording) (act : RecordingAct) :
    round.Keeps (round.take recording act) := by
  cases act with
  | status line fails => exact ⟨keeps.carries, keeps.filed.status line fails⟩
  | exchange act logged fails =>
    have carries := keeps.carries.take act
    refine ⟨carries, ?_⟩
    have delivered := recording.exchange.take_delivered round.batch act
    unfold Round.take Exchange.events
    dsimp only
    cases taken : recording.exchange.next act with
    | none =>
      rw [delivered, taken]
      simpa [Exchange.events] using keeps.filed
    | some message =>
      rw [taken] at delivered
      have member : message ∈ (recording.exchange.take round.batch act).delivered := by
        rw [delivered]
        simp
      have known := round.within _ (carries.known_task member)
      rw [← message.event_task] at known
      rw [delivered]
      simpa [Exchange.events] using keeps.filed.event known logged fails

theorem Keeps.records (keeps : round.Keeps recording) : round.Records recording where
  agrees := keeps.carries.agrees
  filed := keeps.filed
  finished := by
    intro on task output elapsed member id here stream
    obtain ⟨before, after, split⟩ := List.append_of_mem member
    obtain ⟨known, -, -, finished⟩ := keeps.carries.agrees
    obtain ⟨last, bytes⟩ := finished before task output elapsed after split
    have own : task ∈ round.batch.keys := by
      obtain ⟨own, hown, rfl⟩ := known _ member
      exact hown
    have nothing : Exchange.outputLines task stream (.finished task output elapsed :: after) = [] :=
      (List.filterMap_cons_none rfl).trans (Exchange.outputLines_of_others last)
    have holds := keeps.filed on task (round.within task own) id here stream
    rw [split, Exchange.outputLines_append, Exchange.outputLines_append,
      round.silent task own stream, nothing] at holds
    simpa [(bytes stream).1] using holds.content

theorem run_keeps (round : Round) (acts : List RecordingAct) :
    round.Keeps (runAll round.take round.start acts) :=
  @runAll_invariant _ _ _ (fun _ _ => True) round.Keeps (fun _ act keeps _ => keeps.take act) _ _
    (start_keeps round) (Along.of_forall (fun _ _ => trivial) _ acts)

/-- Whatever the order of the task threads, their readers, the loop that receives and the other
writers of the log: the events of every task report its streams as they were read, and the open
log holds them in a file each. -/
theorem streams_recorded (round : Round) (acts : List RecordingAct) :
    round.Records (runAll round.take round.start acts) :=
  (run_keeps round acts).records

/-! ### The next round -/

/-- An event between two rounds, with its line in the run log. -/
structure Told where
  event : RunEvent
  logged : List Byte
  fails : Option Nat

def tell (round : Round) (log : OpenLog) (told : Told) : OpenLog :=
  log.event round.run round.root told.event told.logged told.fails

theorem tell_filed {log : OpenLog} {events : List RunEvent} {told : List Told}
    (filed : Filed round.run round.root log events)
    (known : ∀ entry ∈ told, entry.event.task ∈ round.run.target.whole.keys) :
    Filed round.run round.root (runAll round.tell log told) (events ++ told.map (·.event)) := by
  induction told generalizing log events with
  | nil => simpa using filed
  | cons entry rest ih =>
    have next := filed.event (known entry (by simp)) entry.logged entry.fails
    rw [List.map_cons, List.append_cons]
    exact ih next fun entry h => known entry (List.mem_cons_of_mem _ h)

/-- Tasks that did not run before find their files empty, after `told` was reported too. -/
def following (round : Round) (acts : List RecordingAct) (told : List Told) (batch : Batch)
    (known : ∀ entry ∈ told, entry.event.task ∈ round.run.target.whole.keys)
    (lifecycle : ∀ task stream, Exchange.outputLines task stream (told.map (·.event)) = [])
    (within : ∀ task ∈ batch.keys, task ∈ round.run.target.whole.keys)
    (unstarted : ∀ task ∈ batch.keys, task ∉ round.batch.keys ∧
      ∀ stream, Exchange.outputLines task stream round.before = []) : Round :=
  let reached := runAll round.take round.start acts
  { run := round.run
    root := round.root
    batch := batch
    within := within
    log := runAll round.tell reached.log told
    before := round.before ++ reached.exchange.events ++ told.map (·.event)
    filed := tell_filed (run_keeps round acts).filed known
    silent := by
      intro task member stream
      obtain ⟨other, before⟩ := unstarted task member
      rw [Exchange.outputLines_append, Exchange.outputLines_append, before stream,
        lifecycle task stream, List.nil_append, List.append_nil]
      refine Exchange.outputLines_of_others fun event hevent same => other ?_
      obtain ⟨own, hown, rfl⟩ := (run_keeps round acts).carries.agrees.known event hevent
      exact same ▸ hown }

end Round

end Beez.Record
