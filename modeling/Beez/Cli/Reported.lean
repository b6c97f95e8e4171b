import Beez.Cli.Relayed

/-! # A workflow on the terminal -/

open Beez.Core Beez.Lib Beez.Record Beez.Runner

namespace Beez.Cli

/-! ## The events of a run -/

theorem eventsOf_split {task : Nat} {before after : List RunEvent} {event : RunEvent}
    (h : event.task = some task) :
    eventsOf task (before ++ event :: after) = eventsOf task before ++ event :: eventsOf task after := by
  unfold eventsOf
  rw [List.filter_append, List.filter_cons_of_pos (by simpa using h)]

/-- Only the first event of a task is its start. -/
theorem Ended.starts {workflow : Workflow} {ends : Nat → End} {result : Except IoError (Option Int)}
    {run : Run} (ended : Ended workflow ends result run) {i : Nat} (hi : i < workflow.tasks.length) :
    ∀ event ∈ (eventsOf i run.events).tail, ∀ task, event ≠ .started task := by
  have ran {outcome : Outcome} (h : Ran i outcome run.events) :
      ∀ event ∈ (eventsOf i run.events).tail, ∀ task, event ≠ .started task := by
    obtain ⟨lines, elapsed, -, hevents⟩ := h
    rw [hevents, List.tail_cons]
    intro event hmem task
    obtain ⟨message, -, rfl⟩ := List.mem_map.mp hmem
    exact message.event_ne_started task
  cases ended with
  | closed _ started blocked _ _ =>
    by_cases start : CanStart workflow ends i
    · obtain ⟨output, -, h⟩ := started i hi start
      exact ran h
    · rw [blocked i hi start]
      exact nofun
  | @broken k _ _ _ started absent _ _ =>
    by_cases below : Below workflow ends (k + 1) i
    · obtain ⟨outcome, -, h⟩ := started i below
      exact ran h
    · rw [absent i hi below]
      exact nofun

theorem Ended.orderly {workflow : Workflow} {ends : Nat → End} {result : Except IoError (Option Int)}
    {run : Run} (ended : Ended workflow ends result run) : Orderly workflow.tasks.length run.events := by
  obtain ⟨known, settles⟩ := Record.Ended.settles ended
  have own (event : RunEvent) (hmem : event ∈ run.events) :
      event.position < workflow.tasks.length ∧ event.task = some event.position := by
    obtain ⟨i, hi, htask⟩ := known event hmem
    unfold RunEvent.position positionOf
    rw [htask]
    exact ⟨hi, rfl⟩
  refine ⟨fun event hmem => (own _ hmem).1, ?_, ?_⟩
  · intro before task after split other hmem same
    have otherOwn := own other (by rw [split]; exact List.mem_append_left _ hmem)
    have startOwn := own (.started task) (by simp [split])
    rw [show (RunEvent.started task).position = positionOf task from rfl, ← same] at startOwn
    have alone := Ended.starts ended otherOwn.1
    rw [split, eventsOf_split startOwn.2] at alone
    have earlier : other ∈ eventsOf other.position before :=
      List.mem_filter.mpr ⟨hmem, by simpa using otherOwn.2⟩
    obtain ⟨first, rest, hfirst⟩ := List.exists_cons_of_ne_nil (List.ne_nil_of_mem earlier)
    rw [hfirst, List.cons_append, List.tail_cons] at alone
    exact alone (.started task) (by simp) task rfl
  · intro before event after split ends other hmem same
    have eventOwn := own event (by simp [split])
    have otherOwn := own other (by simp [split, hmem])
    rw [same] at otherOwn
    have later : other ∈ eventsOf event.position after :=
      List.mem_filter.mpr ⟨hmem, by simpa using otherOwn.2⟩
    have whole : eventsOf event.position run.events =
        eventsOf event.position before ++ event :: eventsOf event.position after := by
      rw [split, eventsOf_split eventOwn.2]
    rcases settles _ eventOwn.1 with none | ⟨front, last, hevents, -, open'⟩
    · rw [whole] at none
      simp at none
    · obtain ⟨middle, final, hlast⟩ := List.eq_nil_or_concat (eventsOf event.position after) |>.resolve_left
        (List.ne_nil_of_mem later)
      rw [whole, hlast, List.concat_eq_append, ← List.cons_append, ← List.append_assoc] at hevents
      have fronts := (List.append_inj' hevents rfl).1
      have := open' event (by rw [← fronts]; simp)
      rw [ends] at this
      exact Bool.noConfusion this

/-! ## Labels -/

theorem labels_length {screen : Screen} {workflow : Workflow} (target : screen.target = .workflow workflow) :
    workflow.tasks.length = screen.labels.labels.length := by
  simp [Screen.labels, target, RunTarget.ids]

/-! ## Status lines -/

/-- The status lines that the run log holds of the events. -/
def logged (screen : Screen) (told : List Told) : List (String × Text) :=
  told.filterMap fun entry =>
    (TaskOutcome.of entry.event).map (·.status screen.words (screen.labels.get entry.event.position))

/-- The status lines that writes show of events. -/
def statuses (writes : List Write) : List (String × Text) :=
  (own writes).filterMap fun
    | .status _ _ verb message => some (verb, message)
    | _ => none

/-- The part of the status lines that a layout shows. A spinner stands for the start of a task. -/
def Layout.shows (layout : Layout) (lines : List (String × Text)) : List (String × Text) :=
  match layout with
  | .plain => []
  | .stream => lines.filter (·.1 ≠ "Running")
  | .grouped => lines

def Write.isWarning : Write → Bool
  | .status _ _ verb _ => verb = "Warning"
  | _ => false

theorem statuses_append (first second : List Write) :
    statuses (first ++ second) = statuses first ++ statuses second := by
  unfold statuses
  rw [own_append, List.filterMap_append]

theorem statuses_showOutcome {screen : Screen} (decorated : screen.layout ≠ .plain) (event : RunEvent)
    (clock : Clock) : statuses (Reporter.showOutcome screen event clock) =
      ((TaskOutcome.of event).map (·.status screen.words (screen.labels.get event.position))).toList := by
  unfold statuses
  rw [showOutcome_own]
  unfold Reporter.showOutcome
  cases TaskOutcome.of event with
  | none => rfl
  | some outcome => simp [Reporter.showStatus, decorated]

theorem status_running (words : Words) (outcome : TaskOutcome) (label : Text) :
    (outcome.status words label).1 = "Running" ↔ outcome = .started := by
  unfold TaskOutcome.status
  cases outcome with
  | finished exitStatus elapsed =>
    dsimp only
    split <;> simp
  | _ => simp

theorem statuses_narrates (screen : Screen) (told : List Told) (entry : Told) :
    statuses (narrates screen told entry) = screen.layout.shows (logged screen [entry]) := by
  have one : logged screen [entry] = ((TaskOutcome.of entry.event).map
      (·.status screen.words (screen.labels.get entry.event.position))).toList := by
    unfold logged
    cases h : TaskOutcome.of entry.event <;> simp [h]
  rw [one]
  unfold narrates Layout.shows
  cases hlayout : screen.layout with
  | plain => cases entry.event <;> rfl
  | stream =>
    have decorated : screen.layout ≠ .plain := by simp [hlayout]
    cases hevent : entry.event with
    | output task stream line => rfl
    | started task => rfl
    | _ =>
      dsimp only
      rw [statuses_showOutcome decorated]
      simp [TaskOutcome.of, status_running]
  | grouped =>
    have decorated : screen.layout ≠ .plain := by simp [hlayout]
    cases hevent : entry.event with
    | finished task output elapsed =>
      dsimp only
      rw [← List.singleton_append, statuses_append, statuses_showOutcome decorated]
      rfl
    | _ => exact statuses_showOutcome decorated _ _

theorem statuses_narration (screen : Screen) (told : List Told) :
    statuses (narration screen told) = screen.layout.shows (logged screen told) := by
  have shows_append (layout : Layout) (first second : List (String × Text)) :
      layout.shows (first ++ second) = layout.shows first ++ layout.shows second := by
    cases layout <;> simp [Layout.shows]
  have each (entries : List Told) : statuses (entries.flatMap (narrates screen told)) =
      screen.layout.shows (logged screen entries) := by
    induction entries with
    | nil => cases screen.layout <;> rfl
    | cons entry rest ih =>
      have split : logged screen (entry :: rest) = logged screen [entry] ++ logged screen rest := by
        unfold logged
        rw [← List.filterMap_append]
        rfl
      rw [List.flatMap_cons, statuses_append, ih, statuses_narrates, split, shows_append]
  exact each told

theorem statuses_own (writes : List Write) : statuses (own writes) = statuses writes := by
  unfold statuses own
  rw [List.filter_filter]
  simp only [Bool.and_self]

/-- The status lines on the terminal are those of the run log, in their order. -/
theorem Shows.statuses {screen : Screen} {session : Session} (shows : Shows screen session) :
    Cli.statuses session.asked <+: screen.layout.shows (logged screen session.told) ∧
      (session.pending = [] → session.stopped = none →
        Cli.statuses session.asked = screen.layout.shows (logged screen session.told)) := by
  rw [← statuses_narration, ← statuses_own]
  constructor
  · obtain ⟨rest, hrest⟩ := shows.before
    rw [← hrest, statuses_append]
    exact List.prefix_append _ _
  · intro settled going
    have asked := shows.asked going
    rw [settled, show own [] = [] from rfl, List.append_nil] at asked
    rw [asked]

/-! ## The warning -/

/-- How many warnings are written or still to come. -/
def warnings (session : Session) : Nat :=
  session.asked.countP (·.isWarning) + session.pending.countP (·.isWarning) +
    session.notes.countP (·.isWarning) + if session.logOpen then 1 else 0

variable {screen : Screen} {session : Session}

theorem warnings_log (session : Session) (refused : Option Text) (clock : Clock) :
    warnings (session.log screen refused clock) = warnings session := by
  rcases @log_cases screen session refused clock with same | ⟨error, isOpen, warned⟩
  · rw [same]
  · rw [warned]
    unfold warnings
    dsimp only
    rw [isOpen, List.countP_append]
    simp [Session.warning, Write.isWarning]
    omega

theorem isNote_of_warning {write : Write} (warning : write.isWarning = true) : write.isNote = true := by
  cases write with
  | status stamp style verb message =>
    have same : verb = "Warning" := by simpa [Write.isWarning] using warning
    simp [Write.isNote, same, noteVerbs]
  | _ => cases warning

theorem countP_own (writes : List Write) : (own writes).countP (·.isWarning) = 0 := by
  rw [List.countP_eq_zero]
  intro write hmem warning
  have shown := (List.mem_filter.mp hmem).2
  rw [isNote_of_warning warning] at shown
  cases shown

theorem event_own (screen : Screen) (reporter : Reporter) (event : RunEvent) (clock : Clock) :
    own (reporter.event screen event clock).2 = (reporter.event screen event clock).2 := by
  unfold Reporter.event
  cases event with
  | output task stream line =>
    unfold Reporter.output
    dsimp only
    cases screen.layout <;> rfl
  | started task =>
    dsimp only
    split
    · rfl
    · dsimp only
      exact showOutcome_own screen _ clock
  | finished task output elapsed =>
    dsimp only
    split
    · rfl
    · rw [own_append, showOutcome_own]
      congr 1
      split <;> rfl
  | _ =>
    dsimp only
    exact showOutcome_own screen _ clock

theorem countP_summary (screen : Screen) (style : Style) (message : Text) (clock : Clock) :
    (Reporter.showStatus screen style "Summary" message clock).countP (·.isWarning) = 0 := by
  unfold Reporter.showStatus
  split <;> rfl

theorem warnings_take (session : Session) (act : SessionAct) :
    warnings (session.take screen act) ≤ warnings session := by
  cases act with
  | event told =>
    have logged := @warnings_log screen session told.refused told.warned
    unfold Session.take
    dsimp only
    split
    · unfold Session.event warnings
      unfold warnings at logged
      dsimp only
      rw [← event_own, countP_own]
      omega
    · exact le_rfl
  | write fails =>
    unfold Session.take
    dsimp only
    cases next : session.pending with
    | nil => exact le_rfl
    | cons write rest =>
      unfold warnings
      rw [next, List.countP_cons]
      cases fails with
      | none =>
        unfold Session.put
        dsimp only
        rw [List.countP_append, List.countP_singleton]
        omega
      | some failure =>
        unfold Session.put
        dsimp only
        rw [List.countP_append, List.countP_singleton, List.countP_nil]
        omega
  | diagnostic message refused warned shown =>
    have logged := @warnings_log screen session refused warned
    unfold Session.take
    unfold warnings at logged ⊢
    dsimp only
    rw [List.countP_append, List.countP_singleton, if_neg (by simp [Write.isWarning])]
    omega
  | note index fails =>
    unfold Session.take
    dsimp only
    cases found : session.notes[index]? with
    | none => exact le_rfl
    | some write =>
      obtain ⟨inside, rfl⟩ := List.getElem?_eq_some_iff.mp found
      have whole := (List.getElem_cons_eraseIdx_perm inside).countP_eq (·.isWarning)
      rw [List.countP_cons] at whole
      unfold warnings Session.put
      dsimp only
      rw [List.countP_append, List.countP_singleton]
      omega
  | tick => exact le_rfl
  | finish refused warned shown =>
    have logged := @warnings_log screen session refused warned
    unfold Session.take
    dsimp only
    split
    · unfold Session.finish warnings
      unfold warnings at logged
      dsimp only
      rw [countP_summary]
      omega
    · exact le_rfl

theorem warnings_start (opening : Opening) (clock : Clock) :
    warnings (.start screen opening clock) ≤ 1 := by
  unfold warnings Session.start
  cases opening <;> by_cases plain : screen.layout = .plain <;>
    simp [plain, Session.warning, Write.isWarning]

theorem runAll_warnings (session : Session) (acts : List SessionAct) :
    warnings (runAll (Session.take screen) session acts) ≤ warnings session := by
  induction acts generalizing session with
  | nil => exact le_rfl
  | cons act rest ih => exact (ih _).trans (warnings_take session act)

/-! ## The spinners -/

/-- The task has started, and has not ended. -/
def Runs (index : Nat) (events : List RunEvent) : Prop :=
  (∃ task, .started task ∈ events ∧ positionOf task = index) ∧
    ∀ event ∈ events, closes event = true → event.position ≠ index

/-- A run that is streamed has a spinner for each task that runs, and every other run has none. -/
structure Spins (screen : Screen) (reporter : Reporter) (events : List RunEvent) : Prop where
  length : reporter.spinners.length = screen.labels.labels.length
  nodup : reporter.bars.Nodup
  slots : ∀ i, i ∈ reporter.bars ↔ reporter.spinners[i]? = some true
  bars : ∀ i, i ∈ reporter.bars ↔ screen.layout = .stream ∧ Runs i events

theorem start_spins : Spins screen (.new screen) [] := by
  unfold Reporter.new
  refine ⟨by simp, List.nodup_nil, fun i => ?_, fun i => ?_⟩
  · simp [List.getElem?_replicate]
  · simp [Runs]

theorem runs_append {index : Nat} {events : List RunEvent} {event : RunEvent} :
    Runs index (events ++ [event]) ↔
      ((∃ task, .started task ∈ events ∧ positionOf task = index) ∨
          ∃ task, event = .started task ∧ positionOf task = index) ∧
        (∀ other ∈ events, closes other = true → other.position ≠ index) ∧
          (closes event = true → event.position ≠ index) := by
  unfold Runs
  simp only [List.mem_append, List.mem_singleton, or_imp, forall_and, forall_eq]
  refine and_congr_left fun _ => ?_
  constructor
  · rintro ⟨task, old | new, same⟩
    · exact .inl ⟨task, old, same⟩
    · exact .inr ⟨task, new.symm, same⟩
  · rintro (⟨task, old, same⟩ | ⟨task, new, same⟩)
    · exact ⟨task, .inl old, same⟩
    · exact ⟨task, .inr new.symm, same⟩

variable {reporter : Reporter} {events : List RunEvent}

/-- What neither starts nor ends a task leaves the spinners as they are. -/
theorem runs_kept {event : RunEvent} (starts : ∀ task, event ≠ .started task)
    (ends : closes event = false) (index : Nat) : Runs index (events ++ [event]) ↔ Runs index events := by
  rw [runs_append]
  unfold Runs
  simp [starts, ends]

theorem Spins.start {task : Option Nat} (spins : Spins screen reporter events)
    (stream : screen.layout = .stream) (known : positionOf task < screen.labels.labels.length)
    (first : ∀ other ∈ events, other.position ≠ positionOf task) :
    Spins screen (reporter.startSpinner (positionOf task)) (events ++ [.started task]) := by
  obtain ⟨length, nodup, slots, bars⟩ := spins
  have absent : positionOf task ∉ reporter.bars := by
    rw [bars]
    rintro ⟨-, ⟨other, hmem, same⟩, -⟩
    exact first _ hmem same
  unfold Reporter.startSpinner
  rw [length, if_pos known]
  refine ⟨by simp [length], ?_, fun i => ?_, fun i => ?_⟩
  · exact List.nodup_append.mpr ⟨nodup, List.nodup_singleton _, by
      rintro a ha b hb rfl
      rw [List.mem_singleton] at hb
      exact absent (hb ▸ ha)⟩
  · dsimp only
    rw [List.mem_append, List.mem_singleton, List.getElem?_set, slots, length]
    by_cases same : i = positionOf task
    · simp [same, known]
    · simp [same, Ne.symm same]
  · dsimp only
    rw [List.mem_append, List.mem_singleton, bars, runs_append]
    unfold Runs
    by_cases same : i = positionOf task
    · subst same
      simp [stream, closes]
      exact fun other hmem _ => first other hmem
    · simp [same, Ne.symm same, closes, stream]

theorem Spins.stop (spins : Spins screen reporter events) (event : RunEvent) (ends : closes event = true)
    (starts : ∀ task, event ≠ .started task) :
    Spins screen (reporter.stopSpinner event.position) (events ++ [event]) := by
  obtain ⟨length, nodup, slots, bars⟩ := spins
  have left (i : Nat) : Runs i (events ++ [event]) ↔ Runs i events ∧ event.position ≠ i := by
    rw [runs_append]
    unfold Runs
    simp [starts, ends, and_assoc]
  unfold Reporter.stopSpinner
  split
  · next shown =>
    refine ⟨by simp [length], nodup.erase _, fun i => ?_, fun i => ?_⟩
    · dsimp only
      rw [nodup.mem_erase_iff, slots, List.getElem?_set]
      by_cases same : event.position = i
      · simp [same]
      · simp [same, Ne.symm same]
    · dsimp only
      rw [nodup.mem_erase_iff, bars, left]
      grind
  · next hidden =>
    refine ⟨length, nodup, slots, fun i => ?_⟩
    rw [bars, left]
    have absent : event.position ∉ reporter.bars := by rwa [slots]
    rw [bars] at absent
    grind

/-- A run that is not streamed has no spinners to keep. -/
theorem Spins.other (spins : Spins screen reporter events) (still : screen.layout ≠ .stream)
    (event : RunEvent) : Spins screen reporter (events ++ [event]) := by
  refine ⟨spins.length, spins.nodup, spins.slots, fun i => ?_⟩
  rw [spins.bars]
  simp [still]

theorem Spins.kept (spins : Spins screen reporter events) (event : RunEvent)
    (starts : ∀ task, event ≠ .started task) (ends : closes event = false) :
    Spins screen reporter (events ++ [event]) := by
  refine ⟨spins.length, spins.nodup, spins.slots, fun i => ?_⟩
  rw [spins.bars, runs_kept starts ends]

theorem Spins.event {tasks : Nat} (count : tasks = screen.labels.labels.length) {event : RunEvent}
    (spins : Spins screen reporter events) (orderly : Orderly tasks (events ++ [event])) (clock : Clock) :
    Spins screen (reporter.event screen event clock).1 (events ++ [event]) := by
  have tallied (tally : RunTally) : Spins screen { reporter with tally := tally } events :=
    ⟨spins.length, spins.nodup, spins.slots, spins.bars⟩
  have known := orderly.known event (by simp)
  rw [count] at known
  unfold Reporter.event
  cases event with
  | output task stream line =>
    obtain ⟨length, nodup, slots, bars⟩ := (tallied _).kept (.output task stream line) nofun rfl
    unfold Reporter.output
    dsimp only
    cases screen.layout <;> exact ⟨length, nodup, slots, bars⟩
  | started task =>
    dsimp only
    split
    · next stream =>
      exact (tallied _).start stream known fun other hmem => orderly.first events task [] rfl other hmem
    · next still => exact (tallied _).other still _
  | finished task output elapsed =>
    dsimp only
    split
    · next plain => exact (tallied _).other (by simp [plain]) _
    · exact (tallied _).stop (.finished task output elapsed) rfl nofun
  | failed task errorKind elapsed =>
    exact (tallied _).stop (.failed task errorKind elapsed) rfl nofun
  | blocked task => exact (tallied _).stop (.blocked task) rfl nofun

theorem Spins.run {tasks : Nat} (count : tasks = screen.labels.labels.length)
    (spins : Spins screen session.reporter (eventsIn session.told)) (acts : List SessionAct)
    (orderly : Orderly tasks (eventsIn (runAll (Session.take screen) session acts).told)) :
    Spins screen (runAll (Session.take screen) session acts).reporter
      (eventsIn (runAll (Session.take screen) session acts).told) := by
  induction acts generalizing session with
  | nil => exact spins
  | cons act rest ih =>
    rw [runAll_cons] at orderly ⊢
    have earlier := orderly.of_part
      (eventsIn_within (@runAll_told screen (session.take screen act) rest))
    refine ih ?_ orderly
    rcases @take_cases screen session act with ⟨told, same⟩ | ⟨entry, -, taken⟩
    · rw [told, same]
      exact spins
    · rw [taken, event_told, eventsIn_append] at earlier ⊢
      have stepped := spins.event count earlier entry.shown
      obtain ⟨-, -, -, same⟩ := @log_fields screen session entry.refused entry.warned
      unfold Session.event
      dsimp only
      rwa [same]

/-- Nothing takes the rows away before the report is closed. -/
theorem take_cleared (whole : session.closed = false → session.cleared = false) (act : SessionAct) :
    (session.take screen act).closed = false → (session.take screen act).cleared = false := by
  have logged (refused : Option Text) (clock : Clock) :
      (session.log screen refused clock).closed = session.closed ∧
        (session.log screen refused clock).cleared = session.cleared := by
    rcases @log_cases screen session refused clock with same | ⟨error, -, warned⟩
    · rw [same]
      exact ⟨rfl, rfl⟩
    · rw [warned]
      exact ⟨rfl, rfl⟩
  unfold Session.take
  cases act with
  | event told =>
    dsimp only
    split
    · obtain ⟨closed, cleared⟩ := logged told.refused told.warned
      unfold Session.event
      dsimp only
      rwa [closed, cleared]
    · exact whole
  | write fails =>
    dsimp only
    split
    · exact whole
    · cases fails <;> exact whole
  | diagnostic message refused warned shown =>
    obtain ⟨closed, cleared⟩ := logged refused warned
    dsimp only
    rwa [closed, cleared]
  | note index fails =>
    dsimp only
    split <;> exact whole
  | tick => exact fun _ => rfl
  | finish refused warned shown =>
    dsimp only
    split
    · exact nofun
    · exact whole

theorem runAll_cleared (whole : session.closed = false → session.cleared = false) (acts : List SessionAct) :
    (runAll (Session.take screen) session acts).closed = false →
      (runAll (Session.take screen) session acts).cleared = false := by
  induction acts generalizing session with
  | nil => exact whole
  | cons act rest ih => exact ih (take_cleared whole act)

/-! ## Runs -/

/-- A session of a run: the reporter is told of its events in turn. -/
def reported (screen : Screen) (opening : Opening) (clock : Clock) (acts : List SessionAct) : Session :=
  runAll (Session.take screen) (.start screen opening clock) acts

/-- Every task writes some lines, and then it has its result. -/
def speaking (lines : Nat → List (List Byte)) (outcome : Nat → Outcome) : World :=
  ⟨fun _ => none, fun _ jobs => jobs.flatMap fun job =>
    (lines (positionOf job.task)).map (.line job.task .stdout) ++
      [.done job.task (outcome (positionOf job.task)) 0]⟩

theorem speaking_delivers (lines : Nat → List (List Byte)) (outcome : Nat → Outcome) :
    (speaking lines outcome).Delivers := by
  intro events jobs nodup
  have own (job : Job) : ∀ message ∈ (lines (positionOf job.task)).map (Message.line job.task .stdout) ++
      [.done job.task (outcome (positionOf job.task)) 0], message.task = job.task := by
    intro message hmessage
    rcases List.mem_append.mp hmessage with line | done
    · obtain ⟨bytes, -, rfl⟩ := List.mem_map.mp line
      rfl
    · rw [List.mem_singleton.mp done]
      rfl
  refine ⟨fun message hmessage => ?_, fun job hjob => ?_⟩
  · obtain ⟨job, hjob, hmessage⟩ := List.mem_flatMap.mp hmessage
    exact ⟨job, hjob, (own job message hmessage).symm⟩
  · refine ⟨(lines (positionOf job.task)).map (.line job.task .stdout), outcome (positionOf job.task), 0,
      by simp [Message.isLine], ?_⟩
    unfold speaking
    rw [filter_flatMap_key own, filter_key_eq nodup hjob, List.flatMap_singleton]

theorem speaking_ends (lines : Nat → List (List Byte)) (outcome : Nat → Outcome) :
    (speaking lines outcome).Ends fun i => endOf (outcome i) := by
  intro events jobs task result elapsed h
  obtain ⟨job, -, hmem⟩ := List.mem_flatMap.mp h
  rcases List.mem_append.mp hmem with line | done
  · obtain ⟨bytes, -, same⟩ := List.mem_map.mp line
    cases same
  · obtain ⟨htask, rfl, -⟩ := Message.done.inj (List.mem_singleton.mp done)
    rw [← htask]
    rfl

def redLine : List Byte := Text.toUtf8 "\x1b[31mok\x1b[0m\n".toList

/-- The build writes a red line. -/
def redLines (task : Nat) : List (List Byte) := if task = 0 then [redLine] else []

def redBuild : World := speaking redLines passThenSignal

/-- A terminal that shows no colours. -/
def bareScreen (output : OutputMode) : Screen where
  target := .workflow buildAndTestWorkflow
  output := output
  timestamps := none
  streams := fun _ => .bare
  escapes := ⟨fun _ => [], fun _ => [], []⟩
  words := ⟨fun _ => "0.1s".toList, fun _ => "other error".toList⟩

def tell (event : RunEvent) : SessionAct := .event ⟨event, none, ⟨0, 0⟩, ⟨0, 0⟩⟩

/-- The sandbox speaks while the build is shown, and the terminal fails before the test is over. -/
def buildShown (output : OutputMode) : Session :=
  reported (bareScreen output) .disabled ⟨0, 0⟩
    [tell (.started (some 0)), .write none, tell (.output (some 0) .stdout redLine), .write none,
      tell (.finished (some 0) ⟨some 0, [0x6F, 0x6B, 0x0A], []⟩ 0),
      .diagnostic "denied".toList none ⟨0, 0⟩ ⟨0, 0⟩, .write none, .note 0 none, .write none,
      tell (.started (some 1)), .tick, .write (some (3, ⟨.other, "closed".toList⟩))]

theorem buildShown_told (output : OutputMode) : eventsIn (buildShown output).told <+:
    (runWorkflow ⟨fun _ => none, redBuild.deliver⟩ buildAndTestWorkflow 3).2.events := by
  cases output <;> decide +kernel

/-- Whatever the layout, the run log and the sandbox threads do, the standard output of a run holds
what its tasks wrote and nothing else. A grouped run writes the lines of each task that finished in
one block, in the order in which the tasks finished. -/
theorem stdout_relayed {screen : Screen} {workflow : Workflow} {deliver : List RunEvent → List Job → List Message}
    {ends : Nat → End} {fuel : Nat} (target : screen.target = .workflow workflow)
    (delivers : World.Delivers ⟨fun _ => none, deliver⟩) (hends : World.Ends ⟨fun _ => none, deliver⟩ ends)
    (enough : workflow.tasks.length < fuel) (opening : Opening) (clock : Clock) (acts : List SessionAct)
    (told : eventsIn (reported screen opening clock acts).told <+:
      (runWorkflow ⟨fun _ => none, deliver⟩ workflow fuel).2.events) :
    (reported screen opening clock acts).written .out <+:
        (screen.streams .out).pass (relayed screen (reported screen opening clock acts).told) ∧
      ((reported screen opening clock acts).pending = [] →
        (reported screen opening clock acts).stopped = none →
          (reported screen opening clock acts).written .out =
            (screen.streams .out).pass (relayed screen (reported screen opening clock acts).told)) := by
  have ended := runWorkflow_ended delivers hends enough fun error h => by cases h
  have orderly := (Ended.orderly ended).of_part told
  exact ((start_shows opening clock).run (labels_length target) acts orderly).relays

theorem stdout_relayed_buildShown :
    (buildShown .grouped).written .out <+:
        AutoStream.bare.pass (relayed (bareScreen .grouped) (buildShown .grouped).told) ∧
      ((buildShown .grouped).pending = [] → (buildShown .grouped).stopped = none →
          (buildShown .grouped).written .out =
            AutoStream.bare.pass (relayed (bareScreen .grouped) (buildShown .grouped).told)) :=
  @stdout_relayed (bareScreen .grouped) buildAndTestWorkflow redBuild.deliver
    (fun i => endOf (passThenSignal i)) 3 rfl (speaking_delivers redLines passThenSignal)
    (speaking_ends redLines passThenSignal) (Nat.lt_succ_self 2) .disabled ⟨0, 0⟩ _ (buildShown_told .grouped)

/-- The lines of two tasks that run at the same time are not mixed. -/
example : (reported { bareScreen .grouped with streams := fun _ => .colored } .disabled ⟨0, 0⟩
    [tell (.started (some 0)), .write none, tell (.started (some 1)), .write none,
      tell (.output (some 0) .stdout [0x61, 0x0A]), tell (.output (some 1) .stdout [0x62, 0x0A]),
      tell (.output (some 0) .stderr [0x63, 0x0A]), tell (.finished (some 1) ⟨some 0, [0x62, 0x0A], []⟩ 0),
      .write none, .write none, tell (.finished (some 0) ⟨some 0, [0x61, 0x0A], [0x63, 0x0A]⟩ 0),
      .write none]).written .out = Text.toUtf8 "    b\n    a\n    c\n".toList := by
  decide +kernel

/-- The colours of a task are taken out, and its text stays. -/
example : (buildShown .grouped).written .out = Text.toUtf8 "    ok\n".toList := by
  decide +kernel

/-- The terminal and the run log hold the same status lines of the tasks in the same order, but for the
starts that a spinner shows, and at most one warning says that the run log is closed. -/
theorem status_lines_logged {screen : Screen} {workflow : Workflow}
    {deliver : List RunEvent → List Job → List Message} {ends : Nat → End} {fuel : Nat}
    (target : screen.target = .workflow workflow) (delivers : World.Delivers ⟨fun _ => none, deliver⟩)
    (hends : World.Ends ⟨fun _ => none, deliver⟩ ends) (enough : workflow.tasks.length < fuel)
    (opening : Opening) (clock : Clock) (acts : List SessionAct)
    (told : eventsIn (reported screen opening clock acts).told <+:
      (runWorkflow ⟨fun _ => none, deliver⟩ workflow fuel).2.events) :
    statuses (reported screen opening clock acts).asked <+:
        screen.layout.shows (logged screen (reported screen opening clock acts).told) ∧
      ((reported screen opening clock acts).pending = [] →
        (reported screen opening clock acts).stopped = none →
          statuses (reported screen opening clock acts).asked =
            screen.layout.shows (logged screen (reported screen opening clock acts).told)) ∧
      (reported screen opening clock acts).asked.countP (·.isWarning) ≤ 1 := by
  have ended := runWorkflow_ended delivers hends enough fun error h => by cases h
  have orderly := (Ended.orderly ended).of_part told
  have shows := (start_shows opening clock).run (labels_length target) acts orderly
  have warned := (@runAll_warnings screen _ acts).trans (@warnings_start screen opening clock)
  obtain ⟨part, whole⟩ := shows.statuses
  refine ⟨part, whole, ?_⟩
  unfold reported
  unfold warnings at warned
  omega

theorem status_lines_logged_buildShown :
    statuses (buildShown .stream).asked <+:
        (bareScreen .stream).layout.shows (logged (bareScreen .stream) (buildShown .stream).told) ∧
      ((buildShown .stream).pending = [] → (buildShown .stream).stopped = none →
          statuses (buildShown .stream).asked =
            (bareScreen .stream).layout.shows (logged (bareScreen .stream) (buildShown .stream).told)) ∧
      (buildShown .stream).asked.countP (·.isWarning) ≤ 1 :=
  @status_lines_logged (bareScreen .stream) buildAndTestWorkflow redBuild.deliver
    (fun i => endOf (passThenSignal i)) 3 rfl (speaking_delivers redLines passThenSignal)
    (speaking_ends redLines passThenSignal) (Nat.lt_succ_self 2) .disabled ⟨0, 0⟩ _ (buildShown_told .stream)

/-- A row stands for a task that runs, if the run is streamed. -/
structure RowsOf (screen : Screen) (session : Session) : Prop where
  nodup : session.rows.Nodup
  runs : ∀ i ∈ session.rows, screen.layout = .stream ∧ Runs i (eventsIn session.told)
  each : session.closed = false → screen.layout = .stream →
    ∀ i, Runs i (eventsIn session.told) → i ∈ session.rows

theorem Spins.rowsOf (spins : Spins screen session.reporter (eventsIn session.told))
    (cleared : session.closed = false → session.cleared = false) : RowsOf screen session := by
  obtain ⟨-, nodup, -, bars⟩ := spins
  have some (i : Nat) (hmem : i ∈ session.rows) : i ∈ session.reporter.bars := by
    unfold Session.rows at hmem
    split at hmem
    · cases hmem
    · exact hmem
  refine ⟨?_, fun i hmem => (bars i).mp (some i hmem), fun going stream i runs => ?_⟩
  · unfold Session.rows
    split
    · exact List.nodup_nil
    · exact nodup
  · unfold Session.rows
    rw [cleared going]
    exact (bars i).mpr ⟨stream, runs⟩

/-- No task runs any more once everything is told. -/
theorem Ended.no_runs {workflow : Workflow} {ends : Nat → End} {result : Except IoError (Option Int)}
    {run : Run} (ended : Ended workflow ends result run) (i : Nat) : ¬Runs i run.events := by
  rintro ⟨⟨task, started, same⟩, going⟩
  obtain ⟨known, settles⟩ := Record.Ended.settles ended
  obtain ⟨j, hj, htask⟩ := known _ started
  obtain rfl : j = i := by
    rw [← same, positionOf, show task = some j from htask]
    rfl
  have here : RunEvent.started task ∈ eventsOf j run.events :=
    List.mem_filter.mpr ⟨started, by simpa using htask⟩
  rcases settles j hj with none | ⟨front, last, hevents, ends, -⟩
  · rw [none] at here
    cases here
  · have member : last ∈ eventsOf j run.events := by simp [hevents]
    obtain ⟨inside, own⟩ := List.mem_filter.mp member
    refine going last inside ends ?_
    rw [RunEvent.position, of_decide_eq_true own]
    rfl

/-- A row of the terminal shows each task that runs, if the run is streamed, and no other. None is left
when the run has been told to its end. -/
theorem rows_of_running {screen : Screen} {workflow : Workflow}
    {deliver : List RunEvent → List Job → List Message} {ends : Nat → End} {fuel : Nat}
    (target : screen.target = .workflow workflow) (delivers : World.Delivers ⟨fun _ => none, deliver⟩)
    (hends : World.Ends ⟨fun _ => none, deliver⟩ ends) (enough : workflow.tasks.length < fuel)
    (opening : Opening) (clock : Clock) (acts : List SessionAct)
    (told : eventsIn (reported screen opening clock acts).told <+:
      (runWorkflow ⟨fun _ => none, deliver⟩ workflow fuel).2.events) :
    RowsOf screen (reported screen opening clock acts) ∧
      (eventsIn (reported screen opening clock acts).told =
          (runWorkflow ⟨fun _ => none, deliver⟩ workflow fuel).2.events →
        (reported screen opening clock acts).rows = []) := by
  have ended := runWorkflow_ended delivers hends enough fun error h => by cases h
  have orderly := (Ended.orderly ended).of_part told
  have spins : Spins screen (Session.start screen opening clock).reporter
      (eventsIn (Session.start screen opening clock).told) := start_spins
  have rows : RowsOf screen (reported screen opening clock acts) :=
    (spins.run (labels_length target) acts orderly).rowsOf (runAll_cleared (fun _ => rfl) acts)
  refine ⟨rows, fun whole => List.eq_nil_iff_forall_not_mem.mpr fun i hmem => ?_⟩
  have runs := (rows.runs i hmem).2
  rw [whole] at runs
  exact Ended.no_runs ended i runs

theorem rows_of_running_buildShown : (buildShown .stream).rows = [1] ∧
    RowsOf (bareScreen .stream) (buildShown .stream) ∧
      (eventsIn (buildShown .stream).told =
          (runWorkflow ⟨fun _ => none, redBuild.deliver⟩ buildAndTestWorkflow 3).2.events →
        (buildShown .stream).rows = []) :=
  ⟨by decide +kernel, @rows_of_running (bareScreen .stream) buildAndTestWorkflow redBuild.deliver
    (fun i => endOf (passThenSignal i)) 3 rfl (speaking_delivers redLines passThenSignal)
    (speaking_ends redLines passThenSignal) (Nat.lt_succ_self 2) .disabled ⟨0, 0⟩ _ (buildShown_told .stream)⟩

end Beez.Cli
