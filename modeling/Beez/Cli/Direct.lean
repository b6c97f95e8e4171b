import Beez.Cli.Relayed
import Beez.Runner.Streams

/-! # A direct request

One process runs behind its task thread, the two threads that read its streams, the channel and the
terminal, and a person sees what it would have shown by itself.
-/

open Beez.Core Beez.Lib Beez.Record Beez.Runner

namespace Beez.Cli

/-! ## The request and its report -/

/-- A direct request that is reported. -/
structure Direct where
  exchange : Exchange
  session : Session

inductive DirectAct where
  | thread (act : ThreadAct)
  /-- The loop takes one message, and reports it. -/
  | receives (refused : Option Text) (warned shown : Clock)
  /-- Anything that happens on the terminal, but for an event. -/
  | write (fails : Option (Nat × IoError))
  | diagnostic (message : Text) (refused : Option Text) (warned shown : Clock)
  | note (index : Nat) (fails : Option Nat)
  | finish (refused : Option Text) (warned shown : Clock)

/-- `run_request_in` after its requests ran. -/
def requestResult (outcomes : List (Option Nat × Outcome)) : Except IoError Int :=
  match outcomes.getLast? with
  | none => .error (IoError.ofText "request produced no result")
  | some (_, outcome) => outcome.map fun _ => taskStatus outcome

namespace Direct

/-- `run_request_in` reports the start before it runs the request. -/
def start (screen : Screen) (opening : Opening) (clock : Clock) (refused : Option Text) : Direct where
  exchange := .start
  session := (Session.start screen opening clock).event screen ⟨.started none, refused, clock, clock⟩

def take (screen : Screen) (direct : Direct) : DirectAct → Direct
  | .thread act => { direct with exchange := direct.exchange.take .request (.thread none act) }
  | .receives refused warned shown =>
    -- The callback returns once everything is written, and a failure ends the loop.
    if direct.session.pending = [] ∧ direct.session.stopped = none ∧ direct.session.closed = false then
      match direct.exchange.next (.receives none) with
      | none => direct
      | some message =>
        { exchange := direct.exchange.take .request (.receives none)
          session := direct.session.event screen ⟨message.event, refused, warned, shown⟩ }
    else direct
  | .write fails => { direct with session := direct.session.take screen (.write fails) }
  | .diagnostic message refused warned shown =>
    { direct with session := direct.session.take screen (.diagnostic message refused warned shown) }
  | .note index fails => { direct with session := direct.session.take screen (.note index fails) }
  | .finish refused warned shown =>
    { direct with session := direct.session.take screen (.finish refused warned shown) }

/-- What `run_request_in` returns, once the loop is over. -/
def result (direct : Direct) : Except IoError Int :=
  requestResult (direct.exchange.delivered.filterMap Message.outcome)

end Direct

/-! ## The events of a request -/

section

variable {exchange : Exchange}

theorem delivered_sent (carries : exchange.Carries .request) :
    exchange.delivered <+: exchange.sent none := by
  have all : Exchange.messagesOf none exchange.delivered = exchange.delivered := by
    refine List.filter_eq_self.mpr fun message hmem => ?_
    have known := carries.known_task hmem
    simpa [Batch.keys] using known
  exact all ▸ carries.delivered none

/-- The result of a request comes last, after lines only. -/
theorem delivered_last (carries : exchange.Carries .request) {before after : List Message}
    {message : Message} (split : exchange.delivered = before ++ message :: after)
    (ends : message.isLine = false) :
    after = [] ∧ ∀ line ∈ before, line.isLine = true := by
  have within := delivered_sent carries
  rw [split] at within
  have sends := carries.sends none
  obtain ⟨result, stage⟩ : ∃ result, (exchange.threads none).stage = .done result := by
    by_contra going
    have line := sends.going (fun result h => going ⟨result, h⟩) message (within.subset (by simp))
    rw [ends] at line
    cases line
  obtain ⟨lines, elapsed, sent, all⟩ := sends.done result stage
  rw [sent] at within
  obtain ⟨rfl, -, none⟩ := Exchange.cut_at_last all ends within
  exact ⟨none, all⟩

theorem event_closes {message : Message} : closes message.event = !message.isLine := by
  cases message with
  | line task stream bytes => rfl
  | done task result elapsed => cases result <;> rfl

theorem request_orderly (carries : exchange.Carries .request) :
    Orderly 1 (.started none :: exchange.events) := by
  have alone : ∀ event ∈ RunEvent.started none :: exchange.events, event.position = 0 := by
    intro event hmem
    rcases List.mem_cons.mp hmem with rfl | hmem
    · rfl
    · obtain ⟨message, hmessage, rfl⟩ := List.mem_map.mp hmem
      have known := carries.known_task hmessage
      rw [RunEvent.position, message.event_task, List.mem_singleton.mp known]
      rfl
  refine ⟨fun event hmem => by rw [alone event hmem]; exact Nat.one_pos, ?_, ?_⟩
  · intro before task after split other hmem
    cases before with
    | nil => cases hmem
    | cons first rest =>
      have member : RunEvent.started task ∈ exchange.events := by
        rw [(List.cons.inj split).2]
        simp
      obtain ⟨message, -, same⟩ := List.mem_map.mp member
      exact absurd same (message.event_ne_started task)
  · intro before event after split ends other hmem
    cases before with
    | nil =>
      rw [← (List.cons.inj split).1] at ends
      cases ends
    | cons first rest =>
      obtain ⟨front, back, hdelivered, -, hback⟩ := List.map_eq_append_iff.mp (List.cons.inj split).2
      obtain ⟨message, last, rfl, rfl, rfl⟩ := List.map_eq_cons_iff.mp hback
      rw [event_closes] at ends
      obtain ⟨rfl, -⟩ := delivered_last carries hdelivered (by simpa using ends)
      cases hmem

end

/-! ## Requests that are reported -/

/-- A screen of a direct request. -/
def Screen.ofRequest (screen : Screen) (name : Text) : Screen := { screen with target := .request name }

theorem ofRequest_plain (screen : Screen) (name : Text) : (screen.ofRequest name).layout = .plain := rfl

/-- The reporter is told of the start and of what the loop took from the channel. -/
structure Tells (screen : Screen) (direct : Direct) : Prop where
  carries : direct.exchange.Carries .request
  told : eventsIn direct.session.told = .started none :: direct.exchange.events
  shows : Shows screen direct.session

section

variable {screen : Screen} {direct : Direct}

theorem start_tells (one : 1 = screen.labels.labels.length) (opening : Opening) (clock : Clock)
    (refused : Option Text) : Tells screen (.start screen opening clock refused) := by
  refine ⟨Exchange.start_carries _, ?_, ?_⟩
  · unfold Direct.start
    dsimp only
    rw [event_told]
    rfl
  · have orderly : Orderly 1 (eventsIn
        ((Session.start screen opening clock).told ++ [⟨.started none, refused, clock, clock⟩])) :=
      request_orderly (Exchange.start_carries _)
    exact (start_shows opening clock).event rfl rfl one orderly

theorem Tells.terminal (one : 1 = screen.labels.labels.length) (tells : Tells screen direct)
    {act : SessionAct} (other : ∀ told, act ≠ .event told) :
    Tells screen { direct with session := direct.session.take screen act } := by
  have told : (direct.session.take screen act).told = direct.session.told := by
    rcases @take_cases screen direct.session act with ⟨same, -⟩ | ⟨told, event, -⟩
    · exact same
    · exact absurd event (other told)
  have orderly := request_orderly tells.carries
  rw [← tells.told, ← told] at orderly
  exact ⟨tells.carries, (congrArg eventsIn told).trans tells.told, tells.shows.take one act orderly⟩

theorem Tells.take (one : 1 = screen.labels.labels.length) (tells : Tells screen direct)
    (act : DirectAct) : Tells screen (direct.take screen act) := by
  unfold Direct.take
  cases act with
  | thread act =>
    have delivered := direct.exchange.take_delivered .request (.thread none act)
    have events : (direct.exchange.take .request (.thread none act)).events = direct.exchange.events := by
      unfold Exchange.events
      rw [delivered]
      simp [Exchange.next]
    exact ⟨tells.carries.take (.thread none act), events ▸ tells.told, tells.shows⟩
  | receives refused warned shown =>
    dsimp only
    split
    · next ready =>
      cases next : direct.exchange.next (.receives none) with
      | none => exact tells
      | some message =>
        have carries := tells.carries.take (.receives none)
        have delivered := direct.exchange.take_delivered .request (.receives none)
        rw [next] at delivered
        have told : eventsIn (direct.session.told ++ [⟨message.event, refused, warned, shown⟩]) =
            .started none :: (direct.exchange.take .request (.receives none)).events := by
          unfold Exchange.events
          rw [eventsIn_append, tells.told, delivered]
          simp [Exchange.events]
        have orderly := request_orderly carries
        rw [← told] at orderly
        refine ⟨carries, ?_, tells.shows.event ready.1 ready.2.1 one orderly⟩
        exact (congrArg eventsIn (event_told _ _)).trans told
    · exact tells
  | write fails => exact tells.terminal one (by simp)
  | diagnostic message refused warned shown => exact tells.terminal one (by simp)
  | note index fails => exact tells.terminal one (by simp)
  | finish refused warned shown => exact tells.terminal one (by simp)

theorem run_tells (one : 1 = screen.labels.labels.length) (tells : Tells screen direct)
    (acts : List DirectAct) : Tells screen (runAll (Direct.take screen) direct acts) :=
  @runAll_invariant _ _ _ (fun _ _ => True) (Tells screen) (fun _ act tells _ => tells.take one act) _ _
    tells (Along.of_forall (fun _ _ => trivial) _ acts)

end

/-! ## What a person sees -/

/-- What a request captured, once it finished. -/
def captured : RunEvent → List ProcessOutput
  | .finished _ output _ => [output]
  | _ => []

theorem captured_started (task : Option Nat) (events : List RunEvent) :
    (.started task :: events).flatMap captured = events.flatMap captured := rfl

theorem narration_request {screen : Screen} (plain : screen.layout = .plain) (told : List Told) :
    narration screen told = ((eventsIn told).flatMap captured).map .captured := by
  unfold narration eventsIn
  rw [List.flatMap_map, List.map_flatMap]
  refine congrArg List.flatten (List.map_congr_left fun entry _ => ?_)
  unfold narrates
  cases hevent : entry.event <;> simp [plain, captured]

theorem relayed_request {screen : Screen} (plain : screen.layout = .plain) (told : List Told) :
    relayed screen told = ((eventsIn told).flatMap captured).flatMap (·.stdout) := by
  unfold relayed eventsIn
  rw [List.flatMap_map, List.flatMap_assoc]
  simp only [plain]
  refine congrArg List.flatten (List.map_congr_left fun entry _ => ?_)
  cases hevent : entry.event <;> simp [captured]

/-- The ways in which a request stands: it goes on, it could not be executed, or it finished. -/
inductive Stands (exchange : Exchange) : Prop where
  | going (lines : ∀ message ∈ exchange.delivered, message.isLine = true)
  | failed {lines : List Message} {error : IoError} {elapsed : Nat}
    (all : ∀ message ∈ lines, message.isLine = true)
    (delivered : exchange.delivered = lines ++ [.done none (.error error) elapsed])
  | finished {lines : List Message} {output : ProcessOutput} {elapsed : Nat}
    (all : ∀ message ∈ lines, message.isLine = true)
    (delivered : exchange.delivered = lines ++ [.done none (.ok output) elapsed])

theorem stands {exchange : Exchange} (carries : exchange.Carries .request) : Stands exchange := by
  by_cases going : ∀ message ∈ exchange.delivered, message.isLine = true
  · exact .going going
  · simp only [not_forall] at going
    obtain ⟨message, hmem, ends⟩ := going
    obtain ⟨before, after, split⟩ := List.append_of_mem hmem
    obtain ⟨rfl, all⟩ := delivered_last carries split (by simpa using ends)
    have known := List.mem_singleton.mp (carries.known_task hmem)
    cases message with
    | line => exact absurd rfl ends
    | done task result elapsed =>
      obtain rfl : task = none := known
      cases result with
      | error error => exact .failed all split
      | ok output => exact .finished all split

theorem lines_captured {lines : List Message} (all : ∀ message ∈ lines, message.isLine = true) :
    (lines.map Message.event).flatMap captured = [] := by
  rw [List.flatMap_map, List.flatMap_eq_nil_iff]
  intro message hmem
  cases message with
  | line => rfl
  | done => cases all _ hmem

theorem lines_outcome {lines : List Message} (all : ∀ message ∈ lines, message.isLine = true) :
    lines.filterMap Message.outcome = [] := by
  rw [List.filterMap_eq_nil_iff]
  intro message hmem
  cases message with
  | line => rfl
  | done => cases all _ hmem

/-- A request shows what its process writes, and nothing else but notes. Its status is that of the
process. -/
structure Transparent (screen : Screen) (direct : Direct) : Prop where
  /-- No byte reaches the standard output that the process did not write there, or before its turn. -/
  relayed : direct.session.written .out <+:
    (screen.streams .out).pass ((direct.exchange.threads none).readers .stdout).written
  finished : ∀ output elapsed, .finished none output elapsed ∈ direct.exchange.events →
    direct.result = .ok (output.statusCode.getD 1) ∧
      own direct.session.asked <+: [.captured output] ∧
      (direct.session.pending = [] → direct.session.stopped = none →
        own direct.session.asked = [.captured output] ∧
          direct.session.written .out = (screen.streams .out).pass output.stdout) ∧
      ∀ stream, ((direct.exchange.threads none).readers stream).broken = false →
        output.bytes stream = ((direct.exchange.threads none).readers stream).written
  failed : ∀ errorKind elapsed, .failed none errorKind elapsed ∈ direct.exchange.events →
    (∃ error, direct.result = .error error ∧ error.kind = errorKind) ∧
      own direct.session.asked = [] ∧ direct.session.written .out = []

/-- What the events say of a request once its result is in. -/
theorem mem_events_last {lines : List Message} {exchange : Exchange} {last : Message} {event : RunEvent}
    (all : ∀ message ∈ lines, message.isLine = true) (delivered : exchange.delivered = lines ++ [last])
    (ends : closes event = true) (hmem : event ∈ exchange.events) : event = last.event := by
  unfold Exchange.events at hmem
  rw [delivered, List.map_append, List.mem_append] at hmem
  rcases hmem with early | late
  · obtain ⟨message, hmessage, rfl⟩ := List.mem_map.mp early
    rw [event_closes, all message hmessage] at ends
    cases ends
  · exact List.mem_singleton.mp late

theorem Tells.transparent {screen : Screen} {direct : Direct} (plain : screen.layout = .plain)
    (tells : Tells screen direct) : Transparent screen direct := by
  obtain ⟨carries, told, shows⟩ := tells
  have relays := shows.relays
  have before := shows.before
  have asked := shows.asked
  rw [relayed_request plain, told, captured_started] at relays
  rw [narration_request plain, told, captured_started] at before asked
  have agrees := carries.agrees
  cases stands carries with
  | going lines =>
    have open' (event : RunEvent) (ends : closes event = true) : event ∉ direct.exchange.events := by
      intro hmem
      obtain ⟨message, hmessage, rfl⟩ := List.mem_map.mp hmem
      rw [event_closes, lines message hmessage] at ends
      cases ends
    unfold Exchange.events at relays
    rw [lines_captured lines, List.flatMap_nil, AutoStream.pass_nil, List.prefix_nil] at relays
    refine ⟨?_, fun output elapsed hmem => absurd hmem (open' _ rfl),
      fun errorKind elapsed hmem => absurd hmem (open' _ rfl)⟩
    rw [relays.1]
    exact List.nil_prefix
  | @failed lines error elapsed all delivered =>
    unfold Exchange.events at relays before
    rw [delivered, List.map_append, List.flatMap_append, lines_captured all] at relays before
    have silent : direct.session.written .out = [] :=
      List.prefix_nil.mp (AutoStream.pass_nil (screen.streams .out) ▸ relays.1)
    refine ⟨?_, fun output time hmem => ?_, fun errorKind time hmem => ⟨⟨error, ?_, ?_⟩, ?_, silent⟩⟩
    · rw [silent]
      exact List.nil_prefix
    · cases mem_events_last all delivered rfl hmem
    · unfold Direct.result requestResult
      rw [delivered, List.filterMap_append, lines_outcome all]
      rfl
    · cases mem_events_last all delivered rfl hmem
      rfl
    · exact List.prefix_nil.mp before
  | @finished lines output elapsed all delivered =>
    have split : direct.exchange.events =
        lines.map Message.event ++ .finished none output elapsed :: [] := by
      unfold Exchange.events
      rw [delivered, List.map_append]
      rfl
    have alone : (lines.map Message.event ++ [RunEvent.finished none output elapsed]).flatMap captured =
        [output] := by
      rw [List.flatMap_append, lines_captured all]
      rfl
    rw [split, alone] at relays before asked
    obtain ⟨-, streams⟩ := agrees.finished _ _ _ _ _ split
    refine ⟨?_, fun output' time hmem => ?_, fun errorKind time hmem => ?_⟩
    · obtain ⟨bytes, read, -⟩ := streams .stdout
      have whole := agrees.read none .stdout
      dsimp only at whole
      rw [← read, bytes] at whole
      refine relays.1.trans ((screen.streams .out).pass_mono ?_)
      rw [List.flatMap_singleton]
      exact ⟨_, whole⟩
    · cases mem_events_last all delivered rfl hmem
      refine ⟨?_, ?_, fun settled going => ⟨?_, ?_⟩, fun stream => (streams stream).2.2⟩
      · unfold Direct.result requestResult
        rw [delivered, List.filterMap_append, lines_outcome all]
        rfl
      · exact before
      · have asked := asked going
        rw [settled, show own [] = [] from rfl, List.append_nil] at asked
        exact asked
      · rw [relays.2 settled going, List.flatMap_singleton]
    · cases mem_events_last all delivered rfl hmem

/-- A command that writes a red line and exits with status 3, where no colours are shown. -/
example : let stdout (act : ReaderAct) := DirectAct.thread (.stream .stdout act)
    let stderr (act : ReaderAct) := DirectAct.thread (.stream .stderr act)
    let screen : Screen := ⟨.request "command".toList, .stream, none, fun _ => .bare,
      ⟨fun _ => [], fun _ => [], []⟩, ⟨fun _ => [], fun _ => []⟩⟩
    let direct := runAll (Direct.take screen) (.start screen .disabled ⟨0, 0⟩ none)
      [.thread .spawns, stdout (.writes (Text.toUtf8 "\x1b[31ma\x1b[0m".toList)), stdout (.writes [0x0A]),
        stdout .closes, stderr .closes, stdout .reads, stdout .collects, stdout .sends, stdout .reads,
        stderr .reads, .diagnostic "denied".toList none ⟨0, 0⟩ ⟨0, 0⟩, .thread (.ends (.ok (some 3)) 0),
        .note 0 none, .receives none ⟨0, 0⟩ ⟨0, 0⟩, .receives none ⟨0, 0⟩ ⟨0, 0⟩, .write none]
    direct.session.written .out = [0x61, 0x0A] ∧ direct.result.toOption = some 3 := by
  decide +kernel

end Beez.Cli
