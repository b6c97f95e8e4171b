import Beez.Lib.Machine
import Beez.Record.Format
import Beez.Record.Log

/-! # What a person sees of a run

The reporter renders the events of a run. The sandbox threads write their diagnostics through the
same terminal while it does.
-/

open Beez.Core Beez.Lib Beez.Record Beez.Runner

namespace Beez.Cli

/-! ## How it is drawn -/

inductive OutputMode where
  | stream
  | grouped
deriving DecidableEq

inductive Timestamps where
  | dateTime
  | elapsed
deriving DecidableEq

/-- What the reporter does with each line. -/
inductive Layout where
  | stream
  | grouped
  /-- Relays both streams with no change, for a run of one task. -/
  | plain
deriving DecidableEq

def resolveLayout (mode : OutputMode) (tasks : Nat) : Layout :=
  -- One task needs no label, so its streams pass through untouched.
  if tasks < 2 then .plain
  else
    match mode with
    | .stream => .stream
    | .grouped => .grouped

inductive AnsiColor where
  | cyan | magenta | green | yellow | blue | brightMagenta | red
deriving DecidableEq

structure Style where
  color : Option AnsiColor
  bold : Bool
  dimmed : Bool
deriving DecidableEq

namespace Style

def cyan : Style := ⟨some .cyan, true, false⟩
def green : Style := ⟨some .green, true, false⟩
def red : Style := ⟨some .red, true, false⟩
def yellow : Style := ⟨some .yellow, true, false⟩
def dim : Style := ⟨none, false, true⟩

/-- The colour of one status word an event carries. -/
def ofVerb (verb : String) : Style :=
  if verb = "Finished" then green
  else if verb = "Failed" then red
  else if verb = "Blocked" then yellow
  else cyan

end Style

/-- Colours for task prefixes. Red stays free for failures. -/
def palette : List AnsiColor := [.cyan, .magenta, .green, .yellow, .blue, .brightMagenta]

/-- The escape sequences that `anstyle` writes. -/
structure Escapes where
  on : Style → Text
  off : Style → Text
  reset : Text

/-- A reading of the clock, and the time since the run started. -/
structure Clock where
  now : Int
  elapsed : Nat

/-- Which stream a write belongs on. -/
inductive Target where
  /-- Relayed task output. -/
  | out
  /-- Beez's own lines. -/
  | err
deriving DecidableEq

/-- A stream of the `anstream` crate, which takes the escape sequences out where colours are off. -/
structure AutoStream where
  strips : Bool
  strip : List Byte → List Byte
  nothing : strip [] = []
  /-- What is written is not taken back by what comes later. -/
  grows : ∀ first rest, strip first <+: strip (first ++ rest)

namespace AutoStream

/-- What the stream writes of all bytes that it is handed. -/
def pass (stream : AutoStream) (bytes : List Byte) : List Byte :=
  if stream.strips then stream.strip bytes else bytes

/-- What it writes of some bytes after those before. -/
def adds (stream : AutoStream) (before bytes : List Byte) : List Byte :=
  (stream.pass (before ++ bytes)).drop (stream.pass before).length

/-- A stream with colours. -/
def colored : AutoStream := ⟨false, id, rfl, fun first rest => List.prefix_append first rest⟩

end AutoStream

/-- What stays the same while one run is drawn. -/
structure Screen where
  target : RunTarget
  output : OutputMode
  timestamps : Option Timestamps
  streams : Target → AutoStream
  escapes : Escapes
  words : Words

namespace Screen

variable (screen : Screen)

def labels : Labels := ⟨screen.target.ids⟩

def layout : Layout := resolveLayout screen.output screen.labels.labels.length

def paint (style : Style) (text : Text) : Text :=
  screen.escapes.on style ++ (text ++ screen.escapes.off style)

/-- What goes in front of one line, empty when timestamps are off. -/
def stamp (clock : Clock) : Text :=
  match screen.timestamps with
  | none => []
  | some .dateTime => screen.paint .dim (utc clock.now) ++ [' ']
  | some .elapsed => screen.paint .dim ((screen.words.seconds clock.elapsed).leftpad 8 ' ') ++ [' ']

/-- Formats one of Beez's own lines, with the status word in its own column. -/
def styledStatus (style : Style) (verb : String) (message : Text) : Text :=
  -- A task can leave its own styling on, so start from a known state.
  screen.escapes.reset ++
    (screen.paint style (column verbWidth verb.toList) ++ ("  ".toList ++ message))

def prefixOf (index : Nat) : Text :=
  screen.paint ⟨some (palette[index % palette.length]?.getD .cyan), true, false⟩
    (column screen.labels.width (screen.labels.get index))

def isBlank (line : List Byte) : Bool :=
  line.all fun byte => byte == 10 || byte == 13 || byte == 32 || byte == 9

/-- Renders one line for its task's block, with its own newline. A blank line stays blank. -/
def groupedLine (line : List Byte) (clock : Clock) : Text :=
  if isBlank line then ['\n']
  else screen.stamp clock ++ ("    ".toList ++ (Text.fromUtf8Lossy (trimNewline line) ++ ['\n']))

/-- A line behind its task and its stream. Unstyled, so a task keeps the colours it chose. -/
def streamLine (index : Nat) (stream : OutputStream) (line : List Byte) : Text :=
  screen.prefixOf index ++ (' ' :: (screen.paint .dim (streamMark stream) ++
    (' ' :: Text.fromUtf8Lossy (trimNewline line))))

end Screen

/-! ## Writes -/

/-- One write to the terminal, which nothing comes between. -/
inductive Write where
  /-- One of Beez's own lines, on the standard error. -/
  | status (stamp : Text) (style : Style) (verb : String) (message : Text)
  /-- A line of a task, on the standard output. -/
  | line (stamp text : Text)
  | bytes (bytes : List Byte)
  /-- Both captured streams unchanged. -/
  | captured (output : ProcessOutput)

/-- What a write hands to each stream, in turn. -/
def Screen.parts (screen : Screen) : Write → List (Target × List Byte)
  | .status stamp style verb message =>
    [(.err, Text.toUtf8 (stamp ++ (screen.styledStatus style verb message ++ ['\n'])))]
  | .line stamp text => [(.out, Text.toUtf8 (stamp ++ (text ++ ['\n'])))]
  | .bytes bytes => [(.out, bytes)]
  | .captured output => [(.out, output.stdout), (.err, output.stderr)]

/-- The bytes of some parts that go to one stream. -/
def bytesTo (target : Target) (parts : List (Target × List Byte)) : List Byte :=
  (parts.filter (·.1 = target)).flatMap (·.2)

/-- What the streams write of some parts, after what they were handed before. -/
def Screen.passes (screen : Screen) :
    (Target → List Byte) → List (Target × List Byte) → List (Target × List Byte)
  | _, [] => []
  | before, (target, bytes) :: rest =>
    (target, (screen.streams target).adds (before target) bytes) ::
      screen.passes (fun other => before other ++ if other = target then bytes else []) rest

/-- What is written of some parts before a failure: their first bytes. -/
def cutAfter : Nat → List (Target × List Byte) → List (Target × List Byte)
  | _, [] => []
  | count, (target, bytes) :: rest =>
    (target, bytes.take count) :: cutAfter (count - bytes.length) rest

/-- The parts that are written. A write that fails stops after some bytes. -/
def partsUntil (fails : Option Nat) (parts : List (Target × List Byte)) : List (Target × List Byte) :=
  match fails with
  | none => parts
  | some count => cutAfter count parts

/-! ## The reporter -/

/-- The state that the reporter keeps. `bars` holds the spinners in the order of their rows, by task. -/
structure Reporter where
  spinners : List Bool
  bars : List Nat
  buffers : List (List Byte)
  tally : RunTally

namespace Reporter

def new (screen : Screen) : Reporter where
  spinners := screen.labels.labels.map fun _ => false
  bars := []
  buffers := screen.labels.labels.map fun _ => []
  tally := .zero

/-- Shows one running task as a spinner row of its own. -/
def startSpinner (reporter : Reporter) (index : Nat) : Reporter :=
  if index < reporter.spinners.length then
    { reporter with
      spinners := reporter.spinners.set index true
      bars := reporter.bars ++ [index] }
  else reporter

def stopSpinner (reporter : Reporter) (index : Nat) : Reporter :=
  if reporter.spinners[index]? = some true then
    { reporter with
      spinners := reporter.spinners.set index false
      bars := reporter.bars.erase index }
  else reporter

def output (screen : Screen) (reporter : Reporter) (index : Nat) (stream : OutputStream)
    (line : List Byte) (clock : Clock) : Reporter × List Write :=
  match screen.layout with
  -- Plain relays the captured streams once the task ends.
  | .plain => (reporter, [])
  | .grouped =>
    let rendered := screen.groupedLine line clock
    ({ reporter with
      buffers := reporter.buffers.modify index (· ++ Text.toUtf8 rendered) }, [])
  | .stream => (reporter, [.line (screen.stamp clock) (screen.streamLine index stream line)])

/-- Shows one status line on the terminal. A plain run keeps its terminal free of Beez's lines. -/
def showStatus (screen : Screen) (style : Style) (verb : String) (message : Text) (clock : Clock) :
    List Write :=
  if screen.layout = .plain then [] else [.status (screen.stamp clock) style verb message]

/-- The status line of an event that has one. -/
def showOutcome (screen : Screen) (event : RunEvent) (clock : Clock) : List Write :=
  match (TaskOutcome.of event).map (·.status screen.words (screen.labels.get event.position)) with
  | some (verb, message) => showStatus screen (.ofVerb verb) verb message clock
  | none => []

/-- What an event changes, and what it writes once it is in the run log. -/
def event (screen : Screen) (reporter : Reporter) (event : RunEvent) (clock : Clock) :
    Reporter × List Write :=
  let index := event.position
  let reporter := { reporter with tally := reporter.tally.record event }
  match event with
  | .output _ stream line => reporter.output screen index stream line clock
  | .finished _ output _ =>
    if screen.layout = .plain then (reporter, [.captured output])
    else
      let reporter := reporter.stopSpinner index
      -- The status line closes the task, so its collected output comes first.
      let buffer := if screen.layout = .grouped then [.bytes (reporter.buffers[index]?.getD [])] else []
      (reporter, buffer ++ showOutcome screen event clock)
  | .started _ =>
    -- A stream layout shows a running task as a spinner row, not a line.
    if screen.layout = .stream then (reporter.startSpinner index, [])
    else (reporter, showOutcome screen event clock)
  | .failed .. | .blocked _ => (reporter.stopSpinner index, showOutcome screen event clock)

end Reporter

/-! ## The terminal -/

/-- What the reporter is told, and what the run log and the clock say to it. -/
structure Told where
  event : RunEvent
  /-- Why the run log cannot be written, when it cannot. -/
  refused : Option Text
  warned : Clock
  shown : Clock

/-- What became of the artifacts of the run. -/
inductive Opening where
  | disabled
  | opened (directory : Text)
  | failed (error : Text)

/-- A run that is reported. `pending` is what the last event still has to write, and `notes` what
is written beside the events, which nobody waits for. `asked` is every write so far, and `written`
what is on the streams of them. `cleared` says that `bars.clear()` took the rows away. -/
structure Session where
  reporter : Reporter
  logOpen : Bool
  told : List Told
  pending : List Write
  notes : List Write
  asked : List Write
  written : Target → List Byte
  stopped : Option IoError
  cleared : Bool
  closed : Bool

inductive SessionAct where
  | event (told : Told)
  /-- The next write of the event. A failure ends the run. -/
  | write (fails : Option (Nat × IoError))
  /-- A diagnostic of a sandbox thread. -/
  | diagnostic (message : Text) (refused : Option Text) (warned shown : Clock)
  /-- A note is written, or the first bytes of it. -/
  | note (index : Nat) (fails : Option Nat)
  /-- A spinner draws itself again, and with it all rows. -/
  | tick
  | finish (refused : Option Text) (warned shown : Clock)

namespace Session

def warning (screen : Screen) (error : Text) (clock : Clock) : Write :=
  .status (screen.stamp clock) .yellow "Warning" ("run log: ".toList ++ error)

/-- What a run starts with. A plain run relays the bytes of its task, so Beez keeps quiet there. -/
def start (screen : Screen) (opening : Opening) (clock : Clock) : Session where
  reporter := .new screen
  logOpen :=
    match opening with
    | .opened _ => true
    | _ => false
  told := []
  pending := []
  notes :=
    if screen.layout = .plain then []
    else
      match opening with
      | .disabled => []
      | .opened directory => [.status (screen.stamp clock) .cyan "Logging" directory]
      | .failed error => [warning screen error clock]
  asked := []
  written := fun _ => []
  stopped := none
  cleared := false
  closed := false

/-- Writes to the run log, and warns once when the log closes. -/
def log (screen : Screen) (session : Session) (refused : Option Text) (clock : Clock) : Session :=
  if session.logOpen then
    match refused with
    | none => session
    | some error =>
      { session with logOpen := false, notes := session.notes ++ [warning screen error clock] }
  else session

/-- The reporter takes one event. -/
def event (screen : Screen) (session : Session) (told : Told) : Session :=
  let session := session.log screen told.refused told.warned
  let (reporter, writes) := session.reporter.event screen told.event told.shown
  { session with reporter, told := session.told ++ [told], pending := writes }

/-- Closes the report with its summary. -/
def finish (screen : Screen) (session : Session) (refused : Option Text) (warned shown : Clock) :
    Session :=
  let tally := session.reporter.tally
  let style := if 0 < tally.failed then .red else .green
  let message := tally.summary (screen.words.seconds shown.elapsed)
  { session.log screen refused warned with
    cleared := true
    pending := Reporter.showStatus screen style "Summary" message shown
    closed := true }

/-- The rows on the terminal. -/
def rows (session : Session) : List Nat := if session.cleared then [] else session.reporter.bars

/-- What a stream was handed so far. -/
def handed (screen : Screen) (session : Session) (target : Target) : List Byte :=
  bytesTo target (session.asked.flatMap screen.parts)

/-- The streams take a write. A write that fails leaves the first bytes of what they make of it. -/
def put (screen : Screen) (session : Session) (write : Write) (fails : Option Nat) : Session :=
  let parts := screen.passes (session.handed screen) (screen.parts write)
  { session with
    asked := session.asked ++ [write]
    written := fun target => session.written target ++ bytesTo target (partsUntil fails parts) }

def take (screen : Screen) (session : Session) : SessionAct → Session
  | .event told =>
    if session.pending = [] ∧ session.stopped = none ∧ session.closed = false then
      session.event screen told
    else session
  | .write fails =>
    match session.pending with
    | [] => session
    | write :: rest =>
      match fails with
      | none => { session.put screen write none with pending := rest }
      | some (count, error) =>
        { session.put screen write (some count) with pending := [], stopped := some error }
  | .diagnostic message refused warned shown =>
    let session := session.log screen refused warned
    { session with
      notes := session.notes ++ [.status (screen.stamp shown) .yellow "Sandbox" message] }
  | .note index fails =>
    match session.notes[index]? with
    | none => session
    | some write =>
      { session.put screen write fails with notes := session.notes.eraseIdx index }
  | .tick => { session with cleared := false }
  | .finish refused warned shown =>
    if session.pending = [] ∧ session.closed = false then session.finish screen refused warned shown
    else session

end Session

end Beez.Cli
