import Beez.Lib.Machine
import Beez.Runner.Settled
import Mathlib.Logic.Function.Basic

/-! # From the pipes of a task to its events

A task runs on a thread of its own, and two more threads read the streams of its process. They
collect every line they read and send it down one channel, which all tasks share.
-/

open Beez.Core Beez.Lib

namespace Beez.Runner

/-! ## Lines -/

/-- `read_until(b'\n')`: the bytes up to the first newline, it included, and the rest. -/
def cutLine : List Byte → List Byte × List Byte
  | [] => ([], [])
  | byte :: rest =>
    if byte = 10 then ([byte], rest) else (byte :: (cutLine rest).1, (cutLine rest).2)

theorem cutLine_append (bytes : List Byte) : (cutLine bytes).1 ++ (cutLine bytes).2 = bytes := by
  induction bytes with
  | nil => rfl
  | cons byte rest ih =>
    rw [cutLine]
    split
    · rfl
    · rw [List.cons_append, ih]

/-! ## One stream -/

/-- What a reader thread does next. -/
inductive Phase where
  | reading
  /-- It read a line and takes the lock on what is collected. -/
  | collecting (line : List Byte)
  /-- It collected the line and takes the lock on the sender. -/
  | sending (line : List Byte)
  | ended
deriving DecidableEq

/-- One stream of a process, and the thread that reads it. `written` is what the process wrote,
`lines` what the thread has read, and `collected` its part of what the threads collect. -/
structure Reader where
  written : List Byte
  closed : Bool
  unread : List Byte
  lines : List (List Byte)
  collected : List Byte
  phase : Phase
  broken : Bool

inductive ReaderAct where
  | writes (bytes : List Byte)
  | closes
  | reads
  | fails
  | collects
  | sends

/-- The line that the thread read and did not collect yet. -/
def Phase.uncollected : Phase → List (List Byte)
  | .collecting line => [line]
  | _ => []

/-- The line that the thread read and did not send yet. -/
def Phase.unsent : Phase → List (List Byte)
  | .collecting line | .sending line => [line]
  | _ => []

namespace Reader

def new : Reader := ⟨[], false, [], [], [], .reading, false⟩

/-- One turn of the loop of `forward`, up to the line that it hands over. It blocks until there is
a whole line or the end. -/
def read (reader : Reader) : Reader :=
  if reader.unread.contains 10 ∨ reader.closed = true ∧ reader.unread ≠ [] then
    let (line, rest) := cutLine reader.unread
    { reader with unread := rest, lines := reader.lines ++ [line], phase := .collecting line }
  else if reader.closed then { reader with phase := .ended }
  else reader

/-- What the process or the reader thread does, and the line that is sent. -/
def take (reader : Reader) (act : ReaderAct) : Reader × Option (List Byte) :=
  match act, reader.phase with
  | .writes bytes, _ =>
    if reader.closed then (reader, none)
    else ({ reader with written := reader.written ++ bytes, unread := reader.unread ++ bytes }, none)
  | .closes, _ => ({ reader with closed := true }, none)
  | .reads, .reading => (reader.read, none)
  | .fails, .reading => ({ reader with phase := .ended, broken := true }, none)
  | .collects, .collecting line =>
    ({ reader with collected := reader.collected ++ line, phase := .sending line }, none)
  | .sends, .sending line => ({ reader with phase := .reading }, some line)
  | _, _ => (reader, none)

/-- What was sent and what was collected are the lines that were read, but for the one in hand. -/
structure Relays (reader : Reader) (sent : List (List Byte)) : Prop where
  sent : sent ++ reader.phase.unsent = reader.lines
  collected : reader.collected ++ reader.phase.uncollected.flatten = reader.lines.flatten
  written : reader.lines.flatten ++ reader.unread = reader.written
  ended : reader.phase = .ended → reader.broken = true ∨ reader.closed = true ∧ reader.unread = []

theorem new_relays : new.Relays [] := ⟨rfl, rfl, rfl, nofun⟩

theorem Relays.read {reader : Reader} {sent : List (List Byte)} (relays : reader.Relays sent)
    (reading : reader.phase = .reading) : reader.read.Relays sent := by
  obtain ⟨hsent, hcollected, hread, -⟩ := relays
  rw [reading] at hsent hcollected
  simp only [Phase.unsent, Phase.uncollected, List.flatten_nil, List.append_nil] at hsent hcollected
  unfold Reader.read
  split
  · refine ⟨?_, ?_, ?_, nofun⟩
    · simp only [Phase.unsent, hsent]
    · simp [Phase.uncollected, hcollected]
    · rw [← hread, List.flatten_append, List.append_assoc]
      simp [cutLine_append]
  · next blank =>
    split
    · next closed =>
      refine ⟨?_, ?_, hread, fun _ => .inr ⟨closed, ?_⟩⟩
      · simp [Phase.unsent, hsent]
      · simp [Phase.uncollected, hcollected]
      · by_contra more
        exact blank (.inr ⟨closed, more⟩)
    · refine ⟨?_, ?_, hread, ?_⟩
      · simp [reading, Phase.unsent, hsent]
      · simp [reading, Phase.uncollected, hcollected]
      · simp [reading]

theorem Relays.take {reader : Reader} {sent : List (List Byte)} (relays : reader.Relays sent)
    (act : ReaderAct) : (reader.take act).1.Relays (sent ++ (reader.take act).2.toList) := by
  have none_sent : sent ++ (none : Option (List Byte)).toList = sent := List.append_nil _
  obtain ⟨hsent, hcollected, hwritten, hended⟩ := relays
  unfold Reader.take
  split
  · next bytes _ =>
    split
    · rw [none_sent]
      exact ⟨hsent, hcollected, hwritten, hended⟩
    · next going =>
      rw [none_sent]
      refine ⟨hsent, hcollected, ?_, fun h => ?_⟩
      · rw [← List.append_assoc, hwritten]
      · exact .inl ((hended h).resolve_right fun h => going h.1)
  · rw [none_sent]
    refine ⟨hsent, hcollected, hwritten, fun h => (hended h).imp_right fun h => ⟨rfl, h.2⟩⟩
  · next reading =>
    rw [none_sent]
    exact Relays.read ⟨hsent, hcollected, hwritten, hended⟩ reading
  · next reading =>
    rw [none_sent]
    simp only [reading, Phase.unsent, Phase.uncollected] at hsent hcollected
    exact ⟨hsent, hcollected, hwritten, fun _ => .inl rfl⟩
  · next line collecting =>
    rw [none_sent]
    simp only [collecting, Phase.unsent, Phase.uncollected] at hsent hcollected
    refine ⟨hsent, ?_, hwritten, nofun⟩
    simpa [Phase.uncollected] using hcollected
  · next line sending =>
    simp only [sending, Phase.unsent, Phase.uncollected] at hsent hcollected
    refine ⟨?_, hcollected, hwritten, nofun⟩
    simpa [Phase.unsent] using hsent
  · rw [none_sent]
    exact ⟨hsent, hcollected, hwritten, hended⟩

end Reader

/-! ## One task -/

def ProcessOutput.bytes (output : ProcessOutput) : OutputStream → List Byte
  | .stdout => output.stdout
  | .stderr => output.stderr

inductive Stage where
  | starting
  | relaying
  | done (result : Outcome)

/-- The thread of one task, with the two that read its streams. -/
structure TaskThread where
  stage : Stage
  readers : OutputStream → Reader

/-- What a task thread, its process or its readers do. -/
inductive ThreadAct where
  /-- The process cannot be started. -/
  | refuses (error : IoError) (elapsed : Nat)
  | spawns
  | stream (stream : OutputStream) (act : ReaderAct)
  /-- Both reader threads have ended, and the process is waited for. -/
  | ends (status : Except IoError (Option Int)) (elapsed : Nat)

namespace TaskThread

def new : TaskThread := ⟨.starting, fun _ => .new⟩

/-- The end of `relay`. -/
def result (thread : TaskThread) (status : Except IoError (Option Int)) : Outcome :=
  status.map fun code =>
    ⟨code, (thread.readers .stdout).collected, (thread.readers .stderr).collected⟩

/-- One step of the thread or of those it started, and what it sends. -/
def take (task : Option Nat) (thread : TaskThread) (act : ThreadAct) : TaskThread × List Message :=
  match thread.stage, act with
  | .starting, .refuses error elapsed =>
    ({ thread with stage := .done (.error error) }, [.done task (.error error) elapsed])
  | .starting, .spawns => ({ thread with stage := .relaying }, [])
  | .relaying, .stream stream act =>
    let (reader, line) := (thread.readers stream).take act
    ({ thread with readers := Function.update thread.readers stream reader },
      line.toList.map (.line task stream))
  | .relaying, .ends status elapsed =>
    if (thread.readers .stdout).phase = .ended ∧ (thread.readers .stderr).phase = .ended then
      ({ thread with stage := .done (thread.result status) },
        [.done task (thread.result status) elapsed])
    else (thread, [])
  | _, _ => (thread, [])

end TaskThread

/-! ### What one task sends -/

def Message.lineOf (stream : OutputStream) : Message → Option (List Byte)
  | .line _ own bytes => if own = stream then some bytes else none
  | .done .. => none

def linesOf (stream : OutputStream) (messages : List Message) : List (List Byte) :=
  messages.filterMap (·.lineOf stream)

theorem linesOf_append (stream : OutputStream) (before after : List Message) :
    linesOf stream (before ++ after) = linesOf stream before ++ linesOf stream after :=
  List.filterMap_append

@[simp] theorem linesOf_done (stream : OutputStream) (task : Option Nat) (result : Outcome)
    (elapsed : Nat) : linesOf stream [.done task result elapsed] = [] := rfl

theorem linesOf_line (stream own : OutputStream) (task : Option Nat) (line : Option (List Byte)) :
    linesOf stream (line.toList.map (.line task own)) =
      if own = stream then line.toList else [] := by
  cases line with
  | none => simp [linesOf]
  | some bytes => by_cases same : own = stream <;> simp [linesOf, Message.lineOf, same]

namespace TaskThread

/-- What the thread has sent are the lines of its readers, and its result once there is one. -/
structure Sends (task : Option Nat) (thread : TaskThread) (sent : List Message) : Prop where
  known : ∀ message ∈ sent, message.task = task
  relays : ∀ stream, (thread.readers stream).Relays (linesOf stream sent)
  going : (∀ result, thread.stage ≠ .done result) → ∀ message ∈ sent, message.isLine = true
  done : ∀ result, thread.stage = .done result → ∃ lines elapsed,
    sent = lines ++ [.done task result elapsed] ∧ ∀ line ∈ lines, line.isLine = true
  result : ∀ output, thread.stage = .done (.ok output) → ∀ stream,
    (thread.readers stream).phase = .ended ∧
      output.bytes stream = (thread.readers stream).collected

theorem new_sends (task : Option Nat) : new.Sends task [] :=
  ⟨nofun, fun _ => Reader.new_relays, fun _ => nofun, nofun, nofun⟩

variable {task : Option Nat} {thread : TaskThread} {sent : List Message}

/-- A result is the last thing that a thread sends. -/
theorem Sends.finish (sends : thread.Sends task sent) (going : ∀ result, thread.stage ≠ .done result)
    {result : Outcome} (elapsed : Nat) (told : ∀ output, result = .ok output → ∀ stream,
      (thread.readers stream).phase = .ended ∧
        output.bytes stream = (thread.readers stream).collected) :
    Sends task { thread with stage := .done result } (sent ++ [.done task result elapsed]) := by
  refine ⟨?_, fun stream => ?_, fun h => absurd rfl (h result), ?_, ?_⟩
  · intro message hmessage
    rcases List.mem_append.mp hmessage with h | h
    · exact sends.known message h
    · rw [List.mem_singleton.mp h]
      rfl
  · rw [linesOf_append, linesOf_done, List.append_nil]
    exact sends.relays stream
  · intro other same
    cases same
    exact ⟨sent, elapsed, rfl, sends.going going⟩
  · intro output same
    cases same
    exact told output rfl

theorem Sends.stream (sends : thread.Sends task sent) (relaying : thread.stage = .relaying)
    (stream : OutputStream) (act : ReaderAct) :
    Sends task { thread with
        readers := Function.update thread.readers stream ((thread.readers stream).take act).1 }
      (sent ++ ((thread.readers stream).take act).2.toList.map (.line task stream)) := by
  have going : ∀ result, thread.stage ≠ .done result := by simp [relaying]
  refine ⟨?_, fun other => ?_, fun _ => ?_, fun result h => absurd h (going result),
    fun output h => absurd h (going _)⟩
  · intro message hmessage
    rcases List.mem_append.mp hmessage with h | h
    · exact sends.known message h
    · obtain ⟨line, -, rfl⟩ := List.mem_map.mp h
      rfl
  · dsimp only
    rw [linesOf_append, linesOf_line]
    by_cases same : stream = other
    · subst same
      rw [if_pos rfl, Function.update_self]
      exact (sends.relays stream).take act
    · rw [if_neg same, List.append_nil, Function.update_of_ne (Ne.symm same)]
      exact sends.relays other
  · intro message hmessage
    rcases List.mem_append.mp hmessage with h | h
    · exact sends.going going message h
    · obtain ⟨line, -, rfl⟩ := List.mem_map.mp h
      rfl

theorem Sends.take (sends : thread.Sends task sent) (act : ThreadAct) :
    (thread.take task act).1.Sends task (sent ++ (thread.take task act).2) := by
  unfold TaskThread.take
  split
  · next error elapsed starting =>
    exact sends.finish (by simp [starting]) elapsed nofun
  · next starting =>
    rw [List.append_nil]
    have going : ∀ result, thread.stage ≠ .done result := by simp [starting]
    exact ⟨sends.known, sends.relays, fun _ => sends.going going, nofun, nofun⟩
  · next stream act relaying => exact sends.stream relaying stream act
  · next status elapsed relaying =>
    split
    · next ended =>
      refine sends.finish (by simp [relaying]) elapsed fun output told stream => ?_
      cases status with
      | error error => cases told
      | ok code =>
        cases told
        cases stream with
        | stdout => exact ⟨ended.1, rfl⟩
        | stderr => exact ⟨ended.2, rfl⟩
    · rw [List.append_nil]
      exact sends
  · rw [List.append_nil]
    exact sends

end TaskThread

/-! ## The channel -/

/-- What runs at the same time: one direct request, or tasks of a workflow. -/
inductive Batch where
  | request
  | tasks (indices : List Nat)

def Batch.keys : Batch → List (Option Nat)
  | request => [none]
  | tasks indices => indices.map some

theorem Batch.position_inj {batch : Batch} {a b : Option Nat} (ha : a ∈ batch.keys)
    (hb : b ∈ batch.keys) (same : positionOf a = positionOf b) : a = b := by
  cases batch with
  | request => rw [List.mem_singleton.mp ha, List.mem_singleton.mp hb]
  | tasks indices =>
    obtain ⟨i, -, rfl⟩ := List.mem_map.mp ha
    obtain ⟨j, -, rfl⟩ := List.mem_map.mp hb
    exact congrArg some same

/-- The threads of a batch, the channel that they share, and the loop that receives. `sent` is
what each task has sent, whether or not anything receives it. -/
structure Exchange where
  threads : Option Nat → TaskThread
  sent : Option Nat → List Message
  channel : List Message
  receiving : Bool
  delivered : List Message

inductive Act where
  | thread (task : Option Nat) (act : ThreadAct)
  /-- The loop takes one message, and stops when the callback fails. -/
  | receives (refused : Option IoError)

namespace Exchange

def start : Exchange := ⟨fun _ => .new, fun _ => [], [], true, []⟩

def events (exchange : Exchange) : List RunEvent := exchange.delivered.map Message.event

def take (batch : Batch) (exchange : Exchange) : Act → Exchange
  | .thread task act =>
    if task ∈ batch.keys then
      let (thread, sent) := (exchange.threads task).take task act
      { exchange with
        threads := Function.update exchange.threads task thread
        sent := Function.update exchange.sent task (exchange.sent task ++ sent)
        channel := if exchange.receiving then exchange.channel ++ sent else exchange.channel }
    else exchange
  | .receives refused =>
    match exchange.receiving, exchange.channel with
    | true, message :: rest => { exchange with
        delivered := exchange.delivered ++ [message]
        -- A loop that stops drops its end of the channel.
        channel := if refused.isSome then [] else rest
        receiving := refused.isNone }
    | _, _ => exchange

/-- What the loop takes from the channel. -/
def next (exchange : Exchange) : Act → Option Message
  | .thread .. => none
  | .receives _ => if exchange.receiving then exchange.channel.head? else none

theorem take_delivered (batch : Batch) (exchange : Exchange) (act : Act) :
    (exchange.take batch act).delivered = exchange.delivered ++ (exchange.next act).toList := by
  cases act with
  | thread task act =>
    unfold Exchange.take
    dsimp only
    split <;> simp [next]
  | receives refused =>
    unfold Exchange.take
    dsimp only
    split
    · next on queued => simp [next, on, queued]
    · next blocked =>
      cases on : exchange.receiving with
      | false => simp [next, on]
      | true =>
        cases queued : exchange.channel with
        | nil => simp [next, queued]
        | cons message rest => exact absurd queued (blocked message rest on)

def messagesOf (task : Option Nat) (messages : List Message) : List Message :=
  messages.filter (·.task = task)

theorem messagesOf_append (task : Option Nat) (before after : List Message) :
    messagesOf task (before ++ after) = messagesOf task before ++ messagesOf task after :=
  List.filter_append _ _

/-- Nothing is lost on the way: every task has its messages delivered in the order it sent them. -/
structure Carries (batch : Batch) (exchange : Exchange) : Prop where
  sends : ∀ task, (exchange.threads task).Sends task (exchange.sent task)
  delivered : ∀ task, messagesOf task exchange.delivered <+: exchange.sent task
  held : exchange.receiving = true → ∀ task,
    messagesOf task (exchange.delivered ++ exchange.channel) = exchange.sent task
  known : ∀ task, task ∉ batch.keys → exchange.sent task = []

theorem start_carries (batch : Batch) : start.Carries batch :=
  ⟨fun task => TaskThread.new_sends task, fun _ => List.prefix_rfl, fun _ _ => rfl, fun _ _ => rfl⟩

variable {batch : Batch} {exchange : Exchange}

theorem messagesOf_sent {task other : Option Nat} {thread : TaskThread} {sent : List Message}
    (sends : thread.Sends task sent) (act : ThreadAct) :
    messagesOf other (thread.take task act).2 =
      if other = task then (thread.take task act).2 else [] := by
  have known : ∀ message ∈ (thread.take task act).2, message.task = task := fun message h =>
    (sends.take act).known message (List.mem_append_right _ h)
  unfold messagesOf
  split
  · next same =>
    refine List.filter_eq_self.mpr fun message h => ?_
    simp [known message h, same]
  · next ne =>
    refine List.filter_eq_nil_iff.mpr fun message h => ?_
    simp [known message h, Ne.symm ne]

theorem Carries.thread (carries : exchange.Carries batch) {task : Option Nat}
    (member : task ∈ batch.keys) (act : ThreadAct) :
    (exchange.take batch (.thread task act)).Carries batch := by
  unfold Exchange.take
  dsimp only
  rw [if_pos member]
  refine ⟨fun other => ?_, fun other => ?_, fun on other => ?_, fun other absent => ?_⟩
  · by_cases same : other = task
    · subst same
      simpa only [Function.update_self] using (carries.sends other).take act
    · simpa only [Function.update_of_ne same] using carries.sends other
  · by_cases same : other = task
    · subst same
      simpa only [Function.update_self] using (carries.delivered other).trans (List.prefix_append _ _)
    · simpa only [Function.update_of_ne same] using carries.delivered other
  · have on : exchange.receiving = true := on
    have held := carries.held on other
    simp only [on, if_true]
    rw [← List.append_assoc, messagesOf_append, held, messagesOf_sent (carries.sends task)]
    by_cases same : other = task
    · subst same
      rw [if_pos rfl, Function.update_self]
    · rw [if_neg same, Function.update_of_ne same, List.append_nil]
  · have ne : other ≠ task := fun h => absent (h ▸ member)
    simpa only [Function.update_of_ne ne] using carries.known other absent

theorem Carries.take (carries : exchange.Carries batch) (act : Act) :
    (exchange.take batch act).Carries batch := by
  cases act with
  | thread task act =>
    by_cases member : task ∈ batch.keys
    · exact carries.thread member act
    · unfold Exchange.take
      dsimp only
      rwa [if_neg member]
  | receives refused =>
    unfold Exchange.take
    dsimp only
    split
    · next message rest on queued =>
      have whole : ∀ task, messagesOf task ((exchange.delivered ++ [message]) ++ rest) =
          exchange.sent task := by
        intro task
        have held := carries.held on task
        rw [queued] at held
        rwa [List.append_assoc]
      refine ⟨carries.sends, fun task => ?_, fun goesOn task => ?_, carries.known⟩
      · rw [← whole task, messagesOf_append _ (exchange.delivered ++ [message]) rest]
        exact List.prefix_append _ _
      · cases refused with
        | none => exact whole task
        | some error => cases goesOn
    · exact carries

/-! ## What the events say -/

/-- The lines of one stream of one task, in the order of their events. -/
def outputLines (task : Option Nat) (stream : OutputStream) (events : List RunEvent) :
    List (List Byte) :=
  events.filterMap fun event => match event with
    | .output own ownStream line => if own = task ∧ ownStream = stream then some line else none
    | _ => none

theorem outputLines_append (task : Option Nat) (stream : OutputStream)
    (before after : List RunEvent) : outputLines task stream (before ++ after) =
      outputLines task stream before ++ outputLines task stream after :=
  List.filterMap_append

theorem outputLines_of_others {task : Option Nat} {stream : OutputStream} {events : List RunEvent}
    (others : ∀ event ∈ events, event.task ≠ task) : outputLines task stream events = [] := by
  refine List.filterMap_eq_nil_iff.mpr fun event h => ?_
  have ne := others event h
  cases event with
  | output own ownStream line => exact if_neg fun same => ne same.1
  | started | finished | failed | blocked => rfl

/-- An event shows the line of its message, if that is of the task. -/
theorem outputLines_single (task : Option Nat) (stream : OutputStream) (message : Message) :
    outputLines task stream [message.event] = linesOf stream (messagesOf task [message]) := by
  by_cases own : message.task = task
  · subst own
    rw [messagesOf, List.filter_cons_of_pos (by simp), List.filter_nil]
    cases message with
    | line task ownStream bytes =>
      by_cases same : ownStream = stream <;>
        simp [outputLines, linesOf, Message.event, Message.task, Message.lineOf, same]
    | done task result elapsed => cases result <;> rfl
  · rw [messagesOf, List.filter_cons_of_neg (by simpa using own), List.filter_nil]
    refine outputLines_of_others fun event h => ?_
    rwa [List.mem_singleton.mp h, message.event_task]

theorem outputLines_event (task : Option Nat) (stream : OutputStream) (messages : List Message) :
    outputLines task stream (messages.map Message.event) =
      linesOf stream (messagesOf task messages) := by
  induction messages with
  | nil => rfl
  | cons message rest ih =>
    have split : messagesOf task (message :: rest) =
        messagesOf task [message] ++ messagesOf task rest := messagesOf_append task [message] rest
    rw [split, linesOf_append, ← ih, ← outputLines_single]
    exact outputLines_append task stream [message.event] _

/-- A message that is no line can only be the last one. -/
theorem cut_at_last {lines before after : List Message} {message last : Message}
    (all : ∀ line ∈ lines, line.isLine = true) (ends : message.isLine = false)
    (within : before ++ message :: after <+: lines ++ [last]) :
    before = lines ∧ message = last ∧ after = [] := by
  induction lines generalizing before with
  | nil =>
    cases before with
    | nil =>
      obtain ⟨rest, h⟩ := within
      simp only [List.nil_append, List.cons_append, List.cons.injEq, List.append_eq_nil_iff] at h
      exact ⟨rfl, h.1, h.2.1⟩
    | cons first rest =>
      obtain ⟨more, h⟩ := within
      simp at h
  | cons line lines ih =>
    cases before with
    | nil =>
      obtain ⟨rest, h⟩ := within
      simp only [List.nil_append, List.cons_append, List.cons.injEq] at h
      rw [h.1, all line (by simp)] at ends
      cases ends
    | cons first rest =>
      rw [List.cons_append, List.cons_append, List.cons_prefix_cons] at within
      obtain ⟨rfl, within⟩ := within
      obtain ⟨rfl, same, none⟩ := ih (fun line h => all line (List.mem_cons_of_mem _ h)) within
      exact ⟨rfl, same, none⟩

/-- Every line is reported once, in the order it was read and as its own task and stream, and the
result of a task comes after all of them and holds the same bytes. -/
structure Agrees (batch : Batch) (exchange : Exchange) : Prop where
  known : ∀ event ∈ exchange.events, ∃ task ∈ batch.keys, event.task = task
  reported : ∀ task stream,
    outputLines task stream exchange.events <+: ((exchange.threads task).readers stream).lines
  read : ∀ task stream, let reader := (exchange.threads task).readers stream
    reader.lines.flatten ++ reader.unread = reader.written
  finished : ∀ before task output elapsed after,
    exchange.events = before ++ .finished task output elapsed :: after →
      (∀ event ∈ after, event.task ≠ task) ∧ ∀ stream,
        (outputLines task stream before).flatten = output.bytes stream ∧
        outputLines task stream before = ((exchange.threads task).readers stream).lines ∧
        (((exchange.threads task).readers stream).broken = false →
          output.bytes stream = ((exchange.threads task).readers stream).written)

/-- The thread that sent a result has no more to send, and its readers have ended. -/
theorem sent_of_done {task : Option Nat} {thread : TaskThread} {sent before after : List Message}
    {output : ProcessOutput} {elapsed : Nat} (sends : thread.Sends task sent)
    (within : before ++ .done task (.ok output) elapsed :: after <+: sent) :
    after = [] ∧ ∀ stream, linesOf stream before = (thread.readers stream).lines ∧
      (thread.readers stream).phase = .ended ∧
      output.bytes stream = (thread.readers stream).collected := by
  have mem : .done task (.ok output) elapsed ∈ sent := within.subset (by simp)
  obtain ⟨result, stage⟩ : ∃ result, thread.stage = .done result := by
    by_contra going
    have line := sends.going (fun result h => going ⟨result, h⟩) _ mem
    cases line
  obtain ⟨lines, told, hsent, all⟩ := sends.done result stage
  rw [hsent] at within
  obtain ⟨rfl, same, none⟩ := cut_at_last all rfl within
  cases same
  refine ⟨none, fun stream => ?_⟩
  obtain ⟨ended, bytes⟩ := sends.result output stage stream
  have relays := (sends.relays stream).sent
  rw [hsent, linesOf_append, linesOf_done, List.append_nil, ended] at relays
  exact ⟨(List.append_nil _).symm.trans relays, ended, bytes⟩

theorem event_eq_finished {message : Message} {task : Option Nat} {output : ProcessOutput}
    {elapsed : Nat} (h : message.event = .finished task output elapsed) :
    message = .done task (.ok output) elapsed := by
  cases message with
  | line => cases h
  | done own result time =>
    cases result with
    | error => cases h
    | ok => cases h; rfl

theorem Carries.known_task (carries : exchange.Carries batch) {message : Message}
    (mem : message ∈ exchange.delivered) : message.task ∈ batch.keys := by
  by_contra absent
  have own : message ∈ messagesOf message.task exchange.delivered :=
    List.mem_filter.mpr ⟨mem, by simp⟩
  have sent := (carries.delivered message.task).subset own
  rw [carries.known _ absent] at sent
  cases sent

theorem Carries.agrees (carries : exchange.Carries batch) : exchange.Agrees batch := by
  refine ⟨fun event hevent => ?_, fun task stream => ?_, fun task stream => ?_, ?_⟩
  · obtain ⟨message, hmessage, rfl⟩ := List.mem_map.mp hevent
    exact ⟨message.task, carries.known_task hmessage, message.event_task⟩
  · rw [events, outputLines_event]
    refine ((carries.delivered task).filterMap _).trans ?_
    rw [← ((carries.sends task).relays stream).sent]
    exact List.prefix_append _ _
  · exact ((carries.sends task).relays stream).written
  · intro before task output elapsed after split
    obtain ⟨first, rest, hdelivered, rfl, hrest⟩ := List.map_eq_append_iff.mp split
    obtain ⟨message, last, rfl, hmessage, rfl⟩ := List.map_eq_cons_iff.mp hrest
    obtain rfl := event_eq_finished hmessage
    have within := carries.delivered task
    have own : messagesOf task (.done task (.ok output) elapsed :: last) =
        .done task (.ok output) elapsed :: messagesOf task last := List.filter_cons_of_pos (by
          simp [Message.task])
    rw [hdelivered, messagesOf_append, own] at within
    obtain ⟨none, streams⟩ := sent_of_done (carries.sends task) within
    refine ⟨fun event hevent same => ?_, fun stream => ?_⟩
    · obtain ⟨later, hlater, rfl⟩ := List.mem_map.mp hevent
      rw [Message.event_task] at same
      have found : later ∈ messagesOf task last := List.mem_filter.mpr ⟨hlater, by simpa using same⟩
      rw [none] at found
      cases found
    · obtain ⟨lines, ended, bytes⟩ := streams stream
      obtain ⟨-, collected, written, whole⟩ := (carries.sends task).relays stream
      rw [ended] at collected
      simp only [Phase.uncollected, List.flatten_nil, List.append_nil] at collected
      rw [outputLines_event]
      refine ⟨?_, lines, fun sound => ?_⟩
      · rw [lines, ← collected, bytes]
      · obtain ⟨-, all⟩ := (whole ended).resolve_left (by simp [sound])
        rw [bytes, collected, ← written, all, List.append_nil]

/-- Once every thread is done and the channel is empty, the loop has got what `Interleaves` asks. -/
theorem Carries.interleaves {jobs : List Job} (carries : exchange.Carries batch)
    (same : batch.keys = jobs.map (·.task)) (going : exchange.receiving = true)
    (drained : exchange.channel = [])
    (done : ∀ task ∈ batch.keys, ∃ result, (exchange.threads task).stage = .done result) :
    Interleaves jobs exchange.delivered := by
  constructor
  · intro message hmessage
    have member := carries.known_task hmessage
    rw [same] at member
    exact List.mem_map.mp member
  · intro job hjob
    obtain ⟨result, stage⟩ := done job.task (same ▸ List.mem_map_of_mem hjob)
    obtain ⟨lines, elapsed, sent, all⟩ := (carries.sends job.task).done result stage
    have held := carries.held going job.task
    rw [drained, List.append_nil, sent] at held
    exact ⟨lines, result, elapsed, all, held⟩

/-- In every order of the threads and of the loop that receives, the events report the streams as
they were read, and each result as the lines before it. -/
theorem exchange_agrees (batch : Batch) (acts : List Act) :
    (runAll (take batch) start acts).Agrees batch :=
  (@runAll_invariant _ _ _ (fun _ _ => True) (fun reached : Exchange => reached.Carries batch)
    (fun _ act carries _ => carries.take act) _ _ (start_carries batch)
    (Along.of_forall (fun _ _ => trivial) _ acts)).agrees

end Exchange

end Beez.Runner
