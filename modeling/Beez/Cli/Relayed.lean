import Beez.Cli.Report
import Beez.Record.Summary

/-! # What the terminal shows of a run

Beside the notes of other threads, the terminal gets what each event says, whatever those threads
do meanwhile.
-/

open Beez.Core Beez.Lib Beez.Record Beez.Runner

namespace Beez.Cli

/-! ## What is to be shown -/

/-- The lines of one task, as its block shows them. -/
def blockOf (screen : Screen) (index : Nat) (told : List Told) : List Byte :=
  told.flatMap fun entry =>
    match entry.event with
    | .output task _ line =>
      if positionOf task = index then Text.toUtf8 (screen.groupedLine line entry.shown) else []
    | _ => []

/-- What an event puts on the terminal. `told` is everything that the reporter is told. -/
def narrates (screen : Screen) (told : List Told) (entry : Told) : List Write :=
  match screen.layout with
  | .plain =>
    match entry.event with
    | .finished _ output _ => [.captured output]
    | _ => []
  | .stream =>
    match entry.event with
    | .output task stream line =>
      [.line (screen.stamp entry.shown) (screen.streamLine (positionOf task) stream line)]
    | .started _ => []
    | event => Reporter.showOutcome screen event entry.shown
  | .grouped =>
    match entry.event with
    | .finished task output elapsed =>
      .bytes (blockOf screen (positionOf task) told) ::
        Reporter.showOutcome screen (.finished task output elapsed) entry.shown
    | event => Reporter.showOutcome screen event entry.shown

def narration (screen : Screen) (told : List Told) : List Write := told.flatMap (narrates screen told)

/-- What a run of this layout relays on the standard output. -/
def relayed (screen : Screen) (told : List Told) : List Byte :=
  match screen.layout with
  | .plain => told.flatMap fun entry =>
    match entry.event with
    | .finished _ output _ => output.stdout
    | _ => []
  | .stream => told.flatMap fun entry =>
    match entry.event with
    | .output task stream line => Text.toUtf8 (screen.stamp entry.shown ++
        (screen.streamLine (positionOf task) stream line ++ ['\n']))
    | _ => []
  -- A block for each task that finished, in the order in which they did.
  | .grouped => told.flatMap fun entry =>
    match entry.event with
    | .finished task _ _ => blockOf screen (positionOf task) told
    | _ => []

/-- The words that no event carries. -/
def noteVerbs : List String := ["Warning", "Sandbox", "Logging", "Summary"]

def Write.isNote : Write → Bool
  | .status _ _ verb _ => verb ∈ noteVerbs
  | _ => false

/-- The writes that show an event. -/
def own (writes : List Write) : List Write := writes.filter (!·.isNote)

/-! ## Parts -/

@[simp] theorem bytesTo_nil (target : Target) : bytesTo target [] = [] := rfl

@[simp] theorem bytesTo_append (target : Target) (first second : List (Target × List Byte)) :
    bytesTo target (first ++ second) = bytesTo target first ++ bytesTo target second := by
  simp [bytesTo]

theorem bytesTo_cutAfter_zero (target : Target) (parts : List (Target × List Byte)) :
    bytesTo target (cutAfter 0 parts) = [] := by
  induction parts with
  | nil => rfl
  | cons part rest ih =>
    obtain ⟨own, bytes⟩ := part
    rw [cutAfter, List.take_zero, Nat.zero_sub, ← List.singleton_append, bytesTo_append, ih]
    by_cases same : own = target <;> simp [bytesTo, same]

theorem bytesTo_cutAfter (target : Target) (count : Nat) (parts : List (Target × List Byte)) :
    bytesTo target (cutAfter count parts) <+: bytesTo target parts := by
  induction parts generalizing count with
  | nil => exact List.prefix_rfl
  | cons part rest ih =>
    obtain ⟨own, bytes⟩ := part
    rw [cutAfter, ← List.singleton_append, ← @List.singleton_append _ _ rest, bytesTo_append, bytesTo_append]
    by_cases same : own = target
    · have whole (some : List Byte) : bytesTo target [(own, some)] = some := by simp [bytesTo, same]
      rw [whole, whole]
      by_cases enough : bytes.length ≤ count
      · rw [List.take_of_length_le enough]
        exact List.prefix_append_right_inj bytes |>.mpr (ih _)
      · rw [Nat.sub_eq_zero_of_le (by omega), bytesTo_cutAfter_zero, List.append_nil]
        exact (List.take_prefix count bytes).trans (List.prefix_append _ _)
    · have nothing (some : List Byte) : bytesTo target [(own, some)] = [] := by simp [bytesTo, same]
      rw [nothing, nothing]
      exact ih _

theorem bytesTo_partsUntil (target : Target) (fails : Option Nat) (parts : List (Target × List Byte)) :
    bytesTo target (partsUntil fails parts) <+: bytesTo target parts := by
  cases fails with
  | none => exact List.prefix_rfl
  | some count => exact bytesTo_cutAfter target count parts

/-! ## Streams -/

namespace AutoStream

theorem pass_prefix (stream : AutoStream) (first rest : List Byte) :
    stream.pass first <+: stream.pass (first ++ rest) := by
  unfold pass
  split
  · exact stream.grows first rest
  · exact List.prefix_append first rest

theorem pass_nil (stream : AutoStream) : stream.pass [] = [] := by
  unfold pass
  split
  · exact stream.nothing
  · rfl

theorem pass_adds (stream : AutoStream) (before bytes : List Byte) :
    stream.pass before ++ stream.adds before bytes = stream.pass (before ++ bytes) :=
  (List.prefix_iff_eq_append.mp (stream.pass_prefix before bytes))

/-- A longer text is written to no shorter one. -/
theorem pass_mono (stream : AutoStream) {first whole : List Byte} (h : first <+: whole) :
    stream.pass first <+: stream.pass whole := by
  obtain ⟨rest, rfl⟩ := h
  exact stream.pass_prefix first rest

/-- Takes out what lies between an escape byte and the next `m`. -/
def dropColors : Bool → List Byte → List Byte
  | _, [] => []
  | true, byte :: rest => dropColors (byte != 0x6D) rest
  | false, byte :: rest =>
    if byte = 0x1B then dropColors true rest else byte :: dropColors false rest

theorem dropColors_prefix (inside : Bool) (first rest : List Byte) :
    dropColors inside first <+: dropColors inside (first ++ rest) := by
  induction first generalizing inside with
  | nil => exact List.nil_prefix
  | cons byte first ih =>
    cases inside with
    | true => exact ih _
    | false =>
      rw [List.cons_append]
      unfold dropColors
      split
      · exact ih true
      · exact (List.cons_prefix_cons).mpr ⟨rfl, ih false⟩

/-- A stream without colours, for the sequences that choose them. -/
def bare : AutoStream := ⟨true, dropColors false, rfl, dropColors_prefix false⟩

end AutoStream

/-- Whatever was handed before, the streams write what they make of all of it. -/
theorem bytesTo_passes (screen : Screen) (target : Target) (before : Target → List Byte)
    (parts : List (Target × List Byte)) :
    (screen.streams target).pass (before target) ++ bytesTo target (screen.passes before parts) =
      (screen.streams target).pass (before target ++ bytesTo target parts) := by
  induction parts generalizing before with
  | nil => simp [Screen.passes]
  | cons part rest ih =>
    obtain ⟨own, bytes⟩ := part
    have ih := ih fun other => before other ++ if other = own then bytes else []
    rw [Screen.passes, ← List.singleton_append, ← @List.singleton_append _ _ rest, bytesTo_append,
      bytesTo_append]
    by_cases same : target = own
    · subst same
      have whole (some : List Byte) : bytesTo target [(target, some)] = some := by simp [bytesTo]
      rw [if_pos rfl] at ih
      rw [whole, whole, ← List.append_assoc, AutoStream.pass_adds, ih, List.append_assoc]
    · have nothing (some : List Byte) : bytesTo target [(own, some)] = [] := by
        simp [bytesTo, Ne.symm same]
      rw [if_neg same, List.append_nil] at ih
      rw [nothing, nothing, List.nil_append, List.nil_append, ih]

theorem bytesTo_passes_nil {screen : Screen} {target : Target} {parts : List (Target × List Byte)}
    (nothing : bytesTo target parts = []) (before : Target → List Byte) :
    bytesTo target (screen.passes before parts) = [] := by
  have whole := bytesTo_passes screen target before parts
  rw [nothing, List.append_nil] at whole
  exact List.append_right_eq_self.mp whole

theorem parts_note {screen : Screen} {write : Write} (note : write.isNote = true) :
    bytesTo .out (screen.parts write) = [] := by
  cases write with
  | status stamp style verb message => rfl
  | _ => cases note

@[simp] theorem own_append (first second : List Write) : own (first ++ second) = own first ++ own second :=
  List.filter_append _ _

theorem own_of_notes {writes : List Write} (notes : ∀ write ∈ writes, write.isNote = true) :
    own writes = [] := by
  unfold own
  rw [List.filter_eq_nil_iff]
  intro write hmem
  simp [notes write hmem]

theorem own_note {write : Write} (note : write.isNote = true) : own [write] = [] :=
  own_of_notes (by simpa using note)

theorem status_verb (words : Words) (outcome : TaskOutcome) (label : Text) :
    (outcome.status words label).1 ∉ noteVerbs := by
  unfold TaskOutcome.status
  cases outcome with
  | finished exitStatus elapsed =>
    dsimp only
    split <;> decide
  | _ =>
    dsimp only
    decide

theorem showOutcome_own (screen : Screen) (event : RunEvent) (clock : Clock) :
    own (Reporter.showOutcome screen event clock) = Reporter.showOutcome screen event clock := by
  unfold Reporter.showOutcome own
  cases TaskOutcome.of event with
  | none => rfl
  | some outcome =>
    have verb := status_verb screen.words outcome (screen.labels.get event.position)
    dsimp only [Option.map_some]
    rw [List.filter_eq_self]
    intro write hmem
    unfold Reporter.showStatus at hmem
    split at hmem
    · cases hmem
    · rw [List.mem_singleton] at hmem
      simp [hmem, Write.isNote, verb]

theorem narrates_own (screen : Screen) (told : List Told) (entry : Told) :
    own (narrates screen told entry) = narrates screen told entry := by
  unfold narrates
  cases screen.layout with
  | plain => cases entry.event <;> rfl
  | stream =>
    cases entry.event with
    | output task stream line => rfl
    | started task => rfl
    | _ => exact showOutcome_own _ _ _
  | grouped =>
    cases entry.event with
    | finished task output elapsed =>
      dsimp only
      rw [← List.singleton_append, own_append, showOutcome_own]
      rfl
    | _ => exact showOutcome_own _ _ _

/-! ## Orderly events -/

/-- Of every task that is known, the start comes first and the end last. -/
structure Orderly (tasks : Nat) (events : List RunEvent) : Prop where
  known : ∀ event ∈ events, event.position < tasks
  first : ∀ before task after, events = before ++ .started task :: after →
    ∀ other ∈ before, other.position ≠ positionOf task
  last : ∀ before event after, events = before ++ event :: after → closes event = true →
    ∀ other ∈ after, other.position ≠ event.position

theorem Orderly.of_part {tasks : Nat} {first events : List RunEvent} (orderly : Orderly tasks events)
    (h : first <+: events) : Orderly tasks first := by
  obtain ⟨rest, rfl⟩ := h
  refine ⟨fun event hmem => orderly.known event (List.mem_append_left _ hmem), ?_, ?_⟩
  · intro before task after split
    exact orderly.first before task (after ++ rest) (by simp [split])
  · intro before event after split ends other hmem
    exact orderly.last before event (after ++ rest) (by simp [split]) ends other
      (List.mem_append_left _ hmem)

def eventsIn (told : List Told) : List RunEvent := told.map (·.event)

theorem eventsIn_append (told : List Told) (entry : Told) :
    eventsIn (told ++ [entry]) = eventsIn told ++ [entry.event] := by
  simp [eventsIn]

theorem Orderly.earlier {tasks : Nat} {told : List Told} {entry : Told}
    (orderly : Orderly tasks (eventsIn (told ++ [entry]))) : Orderly tasks (eventsIn told) :=
  orderly.of_part ⟨[entry.event], by simp [eventsIn]⟩

/-- No task is told of after its end. -/
theorem Orderly.open {tasks : Nat} {told : List Told} {entry earlier : Told}
    (orderly : Orderly tasks (eventsIn (told ++ [entry]))) (hmem : earlier ∈ told)
    (ends : closes earlier.event = true) : entry.event.position ≠ earlier.event.position := by
  obtain ⟨before, after, rfl⟩ := List.append_of_mem hmem
  exact orderly.last (eventsIn before) earlier.event (eventsIn after ++ [entry.event])
    (by simp [eventsIn]) ends _ (by simp)

/-! ### One event more -/

theorem blockOf_append (screen : Screen) (index : Nat) (told more : List Told) :
    blockOf screen index (told ++ more) = blockOf screen index told ++ blockOf screen index more :=
  List.flatMap_append

theorem blockOf_other {screen : Screen} {index : Nat} {entry : Told}
    (other : entry.event.position ≠ index) : blockOf screen index [entry] = [] := by
  unfold blockOf
  rw [List.flatMap_singleton]
  cases hevent : entry.event with
  | output task stream line =>
    rw [hevent] at other
    exact if_neg other
  | _ => rfl

theorem narrates_append {tasks : Nat} {screen : Screen} {told : List Told} {entry earlier : Told}
    (orderly : Orderly tasks (eventsIn (told ++ [entry]))) (hmem : earlier ∈ told) :
    narrates screen (told ++ [entry]) earlier = narrates screen told earlier := by
  unfold narrates
  cases screen.layout with
  | plain | stream => rfl
  | grouped =>
    cases hevent : earlier.event with
    | finished task output elapsed =>
      have other := orderly.open hmem (by rw [hevent]; rfl)
      rw [hevent] at other
      have kept : blockOf screen (positionOf task) (told ++ [entry]) = blockOf screen (positionOf task) told := by
        rw [blockOf_append]
        exact (congrArg _ (blockOf_other other)).trans (List.append_nil _)
      dsimp only
      rw [kept]
    | _ => rfl

theorem narration_append {tasks : Nat} {screen : Screen} {told : List Told} {entry : Told}
    (orderly : Orderly tasks (eventsIn (told ++ [entry]))) :
    narration screen (told ++ [entry]) =
      narration screen told ++ narrates screen (told ++ [entry]) entry := by
  unfold narration
  rw [List.flatMap_append, List.flatMap_singleton]
  congr 1
  exact congrArg List.flatten (List.map_congr_left fun earlier hmem => narrates_append orderly hmem)

/-! ### The buffers -/

@[simp] theorem startSpinner_buffers (reporter : Reporter) (index : Nat) :
    (reporter.startSpinner index).buffers = reporter.buffers := by
  unfold Reporter.startSpinner
  split <;> rfl

@[simp] theorem stopSpinner_buffers (reporter : Reporter) (index : Nat) :
    (reporter.stopSpinner index).buffers = reporter.buffers := by
  unfold Reporter.stopSpinner
  split <;> rfl

/-- The buffer of every task holds its block. -/
def Buffered (screen : Screen) (reporter : Reporter) (told : List Told) : Prop :=
  ∀ i < screen.labels.labels.length, reporter.buffers[i]? = some (blockOf screen i told)

theorem Buffered.event {screen : Screen} {reporter : Reporter} {told : List Told}
    (buffered : Buffered screen reporter told) (grouped : screen.layout = .grouped) (entry : Told) :
    Buffered screen (reporter.event screen entry.event entry.shown).1 (told ++ [entry]) := by
  intro i hi
  have here := buffered i hi
  rw [blockOf_append]
  unfold Reporter.event
  cases hevent : entry.event with
  | output task stream line =>
    have added : blockOf screen i [entry] =
        if positionOf task = i then Text.toUtf8 (screen.groupedLine line entry.shown) else [] := by
      unfold blockOf
      rw [List.flatMap_singleton, hevent]
    unfold Reporter.output
    rw [grouped, added]
    dsimp only
    rw [List.getElem?_modify, here]
    by_cases same : positionOf task = i
    · simp [RunEvent.position, RunEvent.task, same]
    · simp [RunEvent.position, RunEvent.task, same]
  | _ =>
    have nothing : blockOf screen i [entry] = [] := by
      unfold blockOf
      rw [List.flatMap_singleton, hevent]
    rw [nothing, List.append_nil]
    simp [grouped, here]

/-- An event writes what it has to. -/
theorem event_writes {screen : Screen} {reporter : Reporter} {told : List Told} {entry : Told}
    (known : entry.event.position < screen.labels.labels.length)
    (buffered : screen.layout = .grouped → Buffered screen reporter told) :
    (reporter.event screen entry.event entry.shown).2 = narrates screen (told ++ [entry]) entry := by
  unfold Reporter.event narrates
  cases hevent : entry.event with
  | output task stream line =>
    unfold Reporter.output
    cases hlayout : screen.layout with
    | stream => rfl
    | plain => rfl
    | grouped => rfl
  | finished task output elapsed =>
    cases hlayout : screen.layout with
    | plain => rfl
    | stream => rfl
    | grouped =>
      have nothing : blockOf screen (positionOf task) [entry] = [] := by
        unfold blockOf
        rw [List.flatMap_singleton, hevent]
      rw [hevent] at known
      have here := buffered hlayout _ known
      dsimp only
      rw [blockOf_append, nothing, List.append_nil, stopSpinner_buffers, here]
      rfl
  | started task =>
    cases hlayout : screen.layout with
    | plain => simp [Reporter.showOutcome, Reporter.showStatus, TaskOutcome.of, hlayout]
    | stream => rfl
    | grouped => rfl
  | _ =>
    cases hlayout : screen.layout with
    | plain => simp [Reporter.showOutcome, Reporter.showStatus, TaskOutcome.of, hlayout]
    | stream => rfl
    | grouped => rfl

/-! ## Sessions -/

/-- What the terminal shows is what the reporter was told, but for what is still to be written. After
a failure nothing of the events is written any more. -/
structure Shows (screen : Screen) (session : Session) : Prop where
  buffered : screen.layout = .grouped → Buffered screen session.reporter session.told
  notes : ∀ write ∈ session.notes, write.isNote = true
  asked : session.stopped = none →
    own session.asked ++ own session.pending = narration screen session.told
  before : own session.asked <+: narration screen session.told
  silent : session.stopped ≠ none → ∀ write ∈ session.pending, write.isNote = true
  whole : session.stopped = none →
    session.written .out = (screen.streams .out).pass (session.handed screen .out)
  part : session.written .out <+: (screen.streams .out).pass (session.handed screen .out)

variable {screen : Screen} {session : Session}

theorem start_shows (opening : Opening) (clock : Clock) : Shows screen (.start screen opening clock) := by
  refine ⟨fun _ i hi => ?_, ?_, fun _ => rfl, List.prefix_rfl, fun h => absurd rfl h, fun _ => ?_,
    List.nil_prefix⟩
  · simp [Session.start, Reporter.new, blockOf, hi]
  rotate_left
  · exact (AutoStream.pass_nil _).symm
  · intro write hmem
    unfold Session.start at hmem
    dsimp only at hmem
    split at hmem
    · cases hmem
    · split at hmem
      · cases hmem
      · rw [List.mem_singleton.mp hmem]
        rfl
      · rw [List.mem_singleton.mp hmem]
        rfl

theorem log_cases (session : Session) (refused : Option Text) (clock : Clock) :
    session.log screen refused clock = session ∨ ∃ error, session.logOpen = true ∧
      session.log screen refused clock = { session with
        logOpen := false, notes := session.notes ++ [Session.warning screen error clock] } := by
  unfold Session.log
  split
  · next isOpen =>
    cases refused with
    | none => exact .inl rfl
    | some error => exact .inr ⟨error, isOpen, rfl⟩
  · exact .inl rfl

theorem Shows.noted (shows : Shows screen session) {write : Write} (note : write.isNote = true) (logOpen : Bool) :
    Shows screen { session with logOpen, notes := session.notes ++ [write] } := by
  obtain ⟨buffered, notes, asked, before, silent, whole, part⟩ := shows
  refine ⟨buffered, fun other hmem => ?_, asked, before, silent, whole, part⟩
  rcases List.mem_append.mp hmem with old | new
  · exact notes other old
  · rw [List.mem_singleton.mp new]
    exact note

theorem Shows.log (shows : Shows screen session) (refused : Option Text) (clock : Clock) :
    Shows screen (session.log screen refused clock) := by
  rcases @log_cases screen session refused clock with same | ⟨error, -, warned⟩
  · rw [same]
    exact shows
  · rw [warned]
    exact shows.noted rfl false

theorem log_fields (session : Session) (refused : Option Text) (clock : Clock) :
    (session.log screen refused clock).told = session.told ∧
      (session.log screen refused clock).pending = session.pending ∧
      (session.log screen refused clock).stopped = session.stopped ∧
      (session.log screen refused clock).reporter = session.reporter := by
  rcases @log_cases screen session refused clock with same | ⟨error, -, warned⟩
  · rw [same]
    exact ⟨rfl, rfl, rfl, rfl⟩
  · rw [warned]
    exact ⟨rfl, rfl, rfl, rfl⟩

theorem put_handed (session : Session) (write : Write) (fails : Option Nat) (target : Target) :
    (session.put screen write fails).handed screen target =
      session.handed screen target ++ bytesTo target (screen.parts write) := by
  unfold Session.handed Session.put
  rw [List.flatMap_append, List.flatMap_singleton, bytesTo_append]

/-- A write that hands nothing to a stream leaves it as it is. -/
theorem put_nothing {write : Write} {target : Target} (nothing : bytesTo target (screen.parts write) = [])
    (session : Session) (fails : Option Nat) :
    (session.put screen write fails).written target = session.written target ∧
      (session.put screen write fails).handed screen target = session.handed screen target := by
  constructor
  · have part := bytesTo_partsUntil target fails
      (screen.passes (session.handed screen) (screen.parts write))
    rw [bytesTo_passes_nil nothing, List.prefix_nil] at part
    exact (congrArg _ part).trans (List.append_nil _)
  · rw [put_handed, nothing, List.append_nil]

/-- A note on the error stream changes nothing of what is relayed. -/
theorem Shows.put_note (shows : Shows screen session) {write : Write} (note : write.isNote = true)
    (fails : Option Nat) : Shows screen (session.put screen write fails) := by
  obtain ⟨buffered, notes, asked, before, silent, whole, part⟩ := shows
  have unasked : own (session.asked ++ [write]) = own session.asked := by
    rw [own_append, own_note note, List.append_nil]
  obtain ⟨unwritten, same⟩ := put_nothing (parts_note note) session fails
  refine ⟨buffered, notes, fun going => ?_, ?_, silent, fun going => ?_, ?_⟩
  · exact (congrArg (· ++ own session.pending) unasked).trans (asked going)
  · exact unasked ▸ before
  · rw [unwritten, same]
    exact whole going
  · rw [unwritten, same]
    exact part

theorem event_told (session : Session) (told : Told) :
    (session.event screen told).told = session.told ++ [told] := by
  unfold Session.event
  exact congrArg (· ++ [told]) (log_fields session _ _).1

theorem Shows.event {tasks : Nat} (shows : Shows screen session) {told : Told}
    (ready : session.pending = []) (going : session.stopped = none)
    (count : tasks = screen.labels.labels.length)
    (orderly : Orderly tasks (eventsIn (session.told ++ [told]))) :
    Shows screen (session.event screen told) := by
  have logged := shows.log told.refused told.warned
  obtain ⟨sameTold, samePending, sameStopped, sameReporter⟩ :=
    @log_fields screen session told.refused told.warned
  unfold Session.event
  generalize session.log screen told.refused told.warned = session' at *
  obtain ⟨buffered, notes, asked, before, -, whole, part⟩ := logged
  rw [sameStopped, samePending, sameTold, ready] at asked
  rw [sameTold] at before
  rw [sameTold, sameReporter] at buffered
  have known : told.event.position < screen.labels.labels.length := by
    rw [← count]
    exact orderly.known _ (by simp [eventsIn])
  have writes := event_writes known buffered
  have extended := @narration_append _ screen _ _ orderly
  have asked := asked going
  rw [show own [] = [] from rfl, List.append_nil] at asked
  dsimp only
  rw [sameReporter, sameTold]
  refine ⟨fun grouped => (buffered grouped).event grouped told, notes, fun _ => ?_, ?_, ?_, whole, part⟩
  · dsimp only
    rw [writes, narrates_own, extended, asked]
  · dsimp only
    rw [extended]
    exact before.trans (List.prefix_append _ _)
  · intro stopped
    exact absurd (sameStopped.trans going) stopped

theorem Shows.put_before (shows : Shows screen session) {write : Write} {rest : List Write}
    (next : session.pending = write :: rest) :
    own (session.asked ++ [write]) <+: narration screen session.told := by
  rcases Option.eq_none_or_eq_some session.stopped with going | ⟨error, stopped⟩
  · have asked := shows.asked going
    rw [next, ← List.singleton_append, own_append, ← List.append_assoc, ← own_append] at asked
    exact ⟨own rest, asked⟩
  · have note := shows.silent (by simp [stopped]) write (by simp [next])
    rw [own_append, own_note note, List.append_nil]
    exact shows.before

/-- A write that succeeds leaves what the stream makes of everything it was handed. -/
theorem Shows.put_whole (shows : Shows screen session) (going : session.stopped = none) (write : Write) :
    (session.put screen write none).written .out =
      (screen.streams .out).pass ((session.put screen write none).handed screen .out) := by
  have passes := bytesTo_passes screen .out (session.handed screen) (screen.parts write)
  rw [put_handed, ← passes, ← shows.whole going]
  rfl

theorem Shows.put_part (shows : Shows screen session) {write : Write} {rest : List Write}
    (next : session.pending = write :: rest) (fails : Option Nat) :
    (session.put screen write fails).written .out <+:
      (screen.streams .out).pass ((session.put screen write fails).handed screen .out) := by
  rcases Option.eq_none_or_eq_some session.stopped with going | ⟨error, stopped⟩
  · have taken := bytesTo_partsUntil .out fails
      (screen.passes (session.handed screen) (screen.parts write))
    have passes := bytesTo_passes screen .out (session.handed screen) (screen.parts write)
    rw [put_handed, ← passes, ← shows.whole going]
    exact (List.prefix_append_right_inj _).mpr taken
  · have note := shows.silent (by simp [stopped]) write (by simp [next])
    obtain ⟨unwritten, same⟩ := put_nothing (parts_note note) session fails
    rw [unwritten, same]
    exact shows.part

theorem Shows.write (shows : Shows screen session) (fails : Option (Nat × IoError)) :
    Shows screen (session.take screen (.write fails)) := by
  unfold Session.take
  dsimp only
  cases next : session.pending with
  | nil => exact shows
  | cons write rest =>
    have before := shows.put_before next
    have part := shows.put_part next (fails.map (·.1))
    dsimp only
    cases fails with
    | none =>
      refine ⟨shows.buffered, shows.notes, fun going => ?_, before, fun stopped other hmem => ?_,
        fun going => ?_, part⟩
      · have asked := shows.asked going
        rw [next, ← List.singleton_append, own_append, ← List.append_assoc, ← own_append] at asked
        exact asked
      · exact shows.silent stopped other (by simp [next, hmem])
      · exact shows.put_whole going write
    | some failure =>
      exact ⟨shows.buffered, shows.notes, nofun, before, fun _ => nofun, nofun, part⟩

theorem Shows.finish (shows : Shows screen session) (ready : session.pending = [])
    (refused : Option Text) (warned shown : Clock) :
    Shows screen (session.finish screen refused warned shown) := by
  have logged := shows.log refused warned
  obtain ⟨-, samePending, -⟩ := @log_fields screen session refused warned
  obtain ⟨buffered, notes, asked, before, silent, whole, part⟩ := logged
  rw [samePending, ready] at asked
  unfold Session.finish
  dsimp only
  generalize hsummary : Reporter.showStatus screen _ "Summary" _ shown = summary
  have note : ∀ write ∈ summary, write.isNote = true := by
    intro write hmem
    rw [← hsummary] at hmem
    unfold Reporter.showStatus at hmem
    split at hmem
    · cases hmem
    · rw [List.mem_singleton.mp hmem]
      rfl
  refine ⟨buffered, notes, fun going => ?_, before, fun _ => note, whole, part⟩
  dsimp only
  rw [own_of_notes note]
  exact asked going

theorem Shows.take {tasks : Nat} (count : tasks = screen.labels.labels.length) (shows : Shows screen session)
    (act : SessionAct) (orderly : Orderly tasks (eventsIn (session.take screen act).told)) :
    Shows screen (session.take screen act) := by
  cases act with
  | event told =>
    unfold Session.take at orderly ⊢
    dsimp only at orderly ⊢
    split
    · next ready =>
      rw [if_pos ready, event_told] at orderly
      exact shows.event ready.1 ready.2.1 count orderly
    · exact shows
  | write fails => exact shows.write fails
  | diagnostic message refused warned shown =>
    exact (shows.log refused warned).noted rfl _
  | note index fails =>
    unfold Session.take
    dsimp only
    cases found : session.notes[index]? with
    | none => exact shows
    | some write =>
      have note := shows.notes write (List.mem_of_getElem? found)
      obtain ⟨buffered, notes, asked, before, silent, whole, part⟩ := shows.put_note note fails
      refine ⟨buffered, fun other hmem => ?_, asked, before, silent, whole, part⟩
      exact notes other (List.mem_of_mem_eraseIdx hmem)
  | tick => exact ⟨shows.buffered, shows.notes, shows.asked, shows.before, shows.silent, shows.whole, shows.part⟩
  | finish refused warned shown =>
    unfold Session.take
    dsimp only
    split
    · next ready => exact shows.finish ready.1 refused warned shown
    · exact shows

/-- Only an event changes what the reporter knows. -/
theorem take_cases (session : Session) (act : SessionAct) :
    ((session.take screen act).told = session.told ∧
        (session.take screen act).reporter = session.reporter) ∨
      ∃ told, act = .event told ∧ session.take screen act = session.event screen told := by
  unfold Session.take
  cases act with
  | event told =>
    dsimp only
    split
    · exact .inr ⟨told, rfl, rfl⟩
    · exact .inl ⟨rfl, rfl⟩
  | write fails =>
    dsimp only
    split
    · exact .inl ⟨rfl, rfl⟩
    · cases fails <;> exact .inl ⟨rfl, rfl⟩
  | diagnostic message refused warned shown =>
    obtain ⟨told, -, -, reporter⟩ := @log_fields screen session refused warned
    exact .inl ⟨told, reporter⟩
  | note index fails =>
    dsimp only
    split <;> exact .inl ⟨rfl, rfl⟩
  | tick => exact .inl ⟨rfl, rfl⟩
  | finish refused warned shown =>
    dsimp only
    split
    · obtain ⟨told, -, -, reporter⟩ := @log_fields screen session refused warned
      exact .inl ⟨told, reporter⟩
    · exact .inl ⟨rfl, rfl⟩

theorem take_told (session : Session) (act : SessionAct) :
    session.told <+: (session.take screen act).told := by
  rcases @take_cases screen session act with ⟨told, -⟩ | ⟨told, -, event⟩
  · exact told ▸ List.prefix_rfl
  · rw [event, event_told]
    exact List.prefix_append _ _

theorem runAll_told (session : Session) (acts : List SessionAct) :
    session.told <+: (runAll (Session.take screen) session acts).told := by
  induction acts generalizing session with
  | nil => exact List.prefix_rfl
  | cons act rest ih => exact (take_told session act).trans (ih _)

theorem eventsIn_within {told more : List Told} (h : told <+: more) : eventsIn told <+: eventsIn more := by
  obtain ⟨rest, rfl⟩ := h
  exact ⟨eventsIn rest, by simp [eventsIn]⟩

theorem Shows.run {tasks : Nat} (count : tasks = screen.labels.labels.length) (shows : Shows screen session)
    (acts : List SessionAct)
    (orderly : Orderly tasks (eventsIn (runAll (Session.take screen) session acts).told)) :
    Shows screen (runAll (Session.take screen) session acts) := by
  induction acts generalizing session with
  | nil => exact shows
  | cons act rest ih =>
    rw [runAll_cons] at orderly ⊢
    have told := @runAll_told screen (session.take screen act) rest
    exact ih (shows.take count act (orderly.of_part (eventsIn_within told))) orderly

/-! ## What is relayed -/

theorem bytesTo_flatMap {α : Type} (target : Target) (f : α → List (Target × List Byte)) (l : List α) :
    bytesTo target (l.flatMap f) = l.flatMap fun a => bytesTo target (f a) := by
  induction l with
  | nil => rfl
  | cons a rest ih => rw [List.flatMap_cons, List.flatMap_cons, bytesTo_append, ih]

theorem bytesTo_showOutcome (screen : Screen) (event : RunEvent) (clock : Clock) :
    bytesTo .out ((Reporter.showOutcome screen event clock).flatMap screen.parts) = [] := by
  unfold Reporter.showOutcome Reporter.showStatus
  split
  · split <;> rfl
  · rfl

theorem relayed_eq (screen : Screen) (told : List Told) :
    bytesTo .out ((narration screen told).flatMap screen.parts) = relayed screen told := by
  unfold narration
  rw [List.flatMap_assoc, bytesTo_flatMap]
  unfold relayed narrates
  cases screen.layout with
  | plain =>
    refine congrArg List.flatten (List.map_congr_left fun entry _ => ?_)
    cases entry.event with
    | finished task output elapsed => simp [Screen.parts, bytesTo]
    | _ => rfl
  | stream =>
    refine congrArg List.flatten (List.map_congr_left fun entry _ => ?_)
    cases entry.event with
    | output task stream line => simp [Screen.parts, bytesTo]
    | started task => rfl
    | _ => exact bytesTo_showOutcome _ _ _
  | grouped =>
    refine congrArg List.flatten (List.map_congr_left fun entry _ => ?_)
    cases entry.event with
    | finished task output elapsed =>
      dsimp only
      rw [List.flatMap_cons, bytesTo_append, bytesTo_showOutcome, List.append_nil]
      simp [Screen.parts, bytesTo]
    | _ => exact bytesTo_showOutcome _ _ _

/-- The standard output holds what the stream makes of what is to be relayed of the events so far, up
to what is still to be written, or up to the write that failed. -/
theorem Shows.relays (shows : Shows screen session) :
    session.written .out <+: (screen.streams .out).pass (relayed screen session.told) ∧
      (session.pending = [] → session.stopped = none →
        session.written .out = (screen.streams .out).pass (relayed screen session.told)) := by
  have notes (writes : List Write) :
      bytesTo .out (writes.flatMap screen.parts) = bytesTo .out ((own writes).flatMap screen.parts) := by
    induction writes with
    | nil => rfl
    | cons write rest ih =>
      rw [List.flatMap_cons, bytesTo_append, ih, ← List.singleton_append, own_append, List.flatMap_append,
        bytesTo_append]
      cases note : write.isNote
      · simp [own, note]
      · rw [own_note note, parts_note note]
        rfl
  have handed : session.handed screen .out = bytesTo .out ((own session.asked).flatMap screen.parts) :=
    notes session.asked
  constructor
  · refine shows.part.trans ((screen.streams .out).pass_mono ?_)
    rw [handed, ← relayed_eq]
    obtain ⟨rest, hrest⟩ := shows.before
    rw [← hrest, List.flatMap_append, bytesTo_append]
    exact List.prefix_append _ _
  · intro settled going
    have asked := shows.asked going
    rw [settled, show own [] = [] from rfl, List.append_nil] at asked
    rw [shows.whole going, handed, asked, relayed_eq]

end Beez.Cli
