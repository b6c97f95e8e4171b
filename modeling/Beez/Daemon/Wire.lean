import Beez.Daemon.Daemon

/-! # Commands over the socket

One thread takes connections off the socket, reads one line from each and sends the request down a
channel. The timer thread handles the requests and answers each on its own connection.
-/

open Beez.Lib

namespace Beez.Daemon

/-- `read_line`: everything up to the first newline, or up to the end. It blocks without either. -/
def readLine (sent : List Byte) (ended : Bool) : Option (List Byte) :=
  if sent.contains 10 then some (sent.takeWhile (· ≠ 10) ++ [10])
  else if ended then some sent
  else none

/-- `read_request` of a line, which `serde_json` parses. -/
def readRequest (parse : List Byte → Except Text Request) (line : List Byte) :
    Except Text Request :=
  if line = [] then .error "no command arrived".toList else parse line

/-- One connection: what its client sent, and the lines that were written back. -/
structure Connection where
  sent : List Byte
  ended : Bool
  answers : List Response

namespace Connection

def line (connection : Connection) : Option (List Byte) := readLine connection.sent connection.ended

def sends (connection : Connection) (bytes : List Byte) : Connection :=
  if connection.ended then connection else { connection with sent := connection.sent ++ bytes }

def ends (connection : Connection) : Connection := { connection with ended := true }

def answer (response : Response) (connection : Connection) : Connection :=
  { connection with answers := connection.answers ++ [response] }

end Connection

/-- A request that the daemon handled, with what it found outside itself then. -/
structure Served where
  connection : Nat
  request : Request
  host : Host
  response : Response

/-- `connections` are in the order in which they came, and the thread has read the first `read` of
them. `history` records what the daemon was given, and `served` the requests among it. -/
structure Wire where
  daemon : Daemon
  connections : List Connection
  read : Nat
  channel : List (Nat × Request)
  history : List Input
  served : List Served

inductive WireMove where
  | connects
  | sends (i : Nat) (bytes : List Byte)
  | ends (i : Nat)
  /-- The listener thread takes its next step, which blocks until there is a line. -/
  | listens
  /-- Its read fails. -/
  | breaks (error : Text)
  /-- The timer thread takes the next request off the channel. -/
  | serves (host : Host)
  /-- Anything else happens to the daemon. -/
  | happens (input : Input)

def Input.isCommand : Input → Bool
  | .command _ _ => true
  | _ => false

namespace Wire

def new (daemon : Daemon) : Wire := ⟨daemon, [], 0, [], [], []⟩

/-- The listener thread with what it read from the connection it is at. -/
def received (wire : Wire) : Except Text Request → Wire
  | .ok request =>
    { wire with channel := wire.channel ++ [(wire.read, request)], read := wire.read + 1 }
  | .error error =>
    { wire with
      connections := wire.connections.modify wire.read (Connection.answer (.error error))
      read := wire.read + 1 }

def listen (parse : List Byte → Except Text Request) (wire : Wire) : Wire :=
  match wire.connections[wire.read]? with
  | none => wire
  | some connection =>
    match connection.line with
    | none => wire
    | some line => wire.received (readRequest parse line)

section

variable [CronCrate]

/-- The daemon takes an input. -/
def give (wire : Wire) (input : Input) : Wire :=
  { wire with daemon := wire.daemon.step input, history := wire.history ++ [input] }

/-- `handle` of a command: the daemon runs it and the answer goes down its connection. -/
def serve (wire : Wire) (host : Host) : Wire :=
  match wire.channel with
  | [] => wire
  | (i, request) :: rest =>
    if wire.daemon.takes (.command host request) then
      let response := (wire.daemon.command host request).1
      { wire.give (.command host request) with
        channel := rest
        connections := wire.connections.modify i (Connection.answer response)
        served := wire.served ++ [⟨i, request, host, response⟩] }
    else wire

def step (parse : List Byte → Except Text Request) (wire : Wire) : WireMove → Wire
  | .connects => { wire with connections := wire.connections ++ [⟨[], false, []⟩] }
  | .sends i bytes =>
    { wire with connections := wire.connections.modify i fun connection => connection.sends bytes }
  | .ends i => { wire with connections := wire.connections.modify i Connection.ends }
  | .listens => wire.listen parse
  | .breaks error =>
    if wire.read < wire.connections.length then wire.received (.error error) else wire
  | .serves host => wire.serve host
  | .happens input => if input.isCommand then wire else wire.give input

end

end Wire

/-! ## Lines -/

theorem readLine_append {sent : List Byte} {line : List Byte} (more : List Byte)
    (h : readLine sent false = some line) : readLine (sent ++ more) false = some line := by
  unfold readLine at h ⊢
  split at h
  · next newline =>
    have : (sent ++ more).contains 10 = true := by
      simp only [List.contains_iff_mem, List.mem_append] at newline ⊢
      exact .inl newline
    rw [if_pos this, List.takeWhile_append]
    have short : (sent.takeWhile (· ≠ 10)).length ≠ sent.length := by
      intro whole
      have := List.takeWhile_eq_self_iff.mp ((List.takeWhile_prefix _).eq_of_length whole)
      have := this 10 (by simpa using newline)
      simp at this
    rw [if_neg short]
    exact h
  · simp at h

/-- A line that is there stays the first one, whatever the client sends after it. -/
theorem Connection.line_sends {connection : Connection} {line : List Byte} (bytes : List Byte)
    (h : connection.line = some line) : (connection.sends bytes).line = some line := by
  unfold Connection.sends
  split
  · exact h
  · next going =>
    have going : connection.ended = false := by simpa using going
    unfold Connection.line at h ⊢
    rw [going] at h
    dsimp only
    rw [going]
    exact readLine_append bytes h

theorem Connection.line_ends {connection : Connection} {line : List Byte}
    (h : connection.line = some line) : connection.ends.line = some line := by
  unfold Connection.line readLine Connection.ends at *
  split at h
  · next newline =>
    dsimp only
    rw [if_pos newline]
    exact h
  · next newline =>
    split at h
    · dsimp only
      rw [if_neg newline]
      exact h
    · cases h

/-- Bytes without a newline finish no line. -/
theorem Connection.line_unfinished {connection : Connection} {bytes : List Byte} (plain : (10 : Byte) ∉ bytes)
    (h : connection.line = none) : (connection.sends bytes).line = none := by
  unfold Connection.sends
  split
  · exact h
  · next going =>
    unfold Connection.line readLine at h ⊢
    have unfinished : connection.sent.contains 10 = false := by
      by_contra newline
      rw [if_pos (by simpa using newline)] at h
      cases h
    have whole : (connection.sent ++ bytes).contains 10 = false := by
      simp only [List.contains_eq_mem, decide_eq_false_iff_not, List.mem_append, not_or] at unfinished ⊢
      exact ⟨unfinished, plain⟩
    dsimp only
    rw [whole]
    simp [going]

/-- A request that was written as one line is the line that is read. -/
theorem readLine_of_line {text : List Byte} (plain : (10 : Byte) ∉ text) (more : List Byte)
    (ended : Bool) : readLine (text ++ 10 :: more) ended = some (text ++ [10]) := by
  unfold readLine
  rw [if_pos (by simp), List.takeWhile_append_of_pos]
  · simp
  · intro byte hmem
    simp only [ne_eq, decide_eq_true_eq]
    rintro rfl
    exact plain hmem

/-! ## Every request once and in order -/

def Input.request? : Input → Option Request
  | .command _ request => some request
  | _ => none

def Served.pair (served : Served) : Nat × Request := (served.connection, served.request)

namespace Wire

/-- The requests that came, handled or not. -/
def taken (wire : Wire) : List (Nat × Request) := wire.served.map Served.pair ++ wire.channel

/-- How a connection can stand. `Broke` are the errors of reads that failed. -/
inductive Standing (parse : List Byte → Except Text Request) (Broke : Text → Prop) (wire : Wire)
    (i : Nat) (connection : Connection) : Prop where
  | unread (later : wire.read ≤ i) (silent : connection.answers = [])
  | waiting (request : Request) (sent : (i, request) ∈ wire.channel) (silent : connection.answers = [])
  | served (served : Served) (among : served ∈ wire.served) (own : served.connection = i)
      (answer : connection.answers = [served.response])
  | refused (earlier : i < wire.read) (apart : ∀ pair ∈ wire.taken, pair.1 ≠ i) (error : Text)
      (answer : connection.answers = [.error error])
      (why : Broke error ∨ ∃ line, connection.line = some line ∧ readRequest parse line = .error error)

section

variable {parse : List Byte → Except Text Request} {Broke : Text → Prop} {wire : Wire}

/-- A connection that a step is not about stands as it did. -/
theorem Standing.carry {i : Nat} {connection : Connection} {after : Wire}
    (stands : Standing parse Broke wire i connection) (unread : wire.read ≤ i → after.read ≤ i)
    (forward : wire.read ≤ after.read)
    (channel : ∀ request, (i, request) ∈ wire.channel → (i, request) ∈ after.channel)
    (served : ∀ served ∈ wire.served, served ∈ after.served)
    (taken : ∀ pair ∈ after.taken, pair.1 = i → pair ∈ wire.taken) :
    Standing parse Broke after i connection := by
  cases stands with
  | unread later silent => exact .unread (unread later) silent
  | waiting request sent silent => exact .waiting request (channel request sent) silent
  | served given among own answer => exact .served given (served given among) own answer
  | refused earlier apart error answer why =>
    refine .refused (earlier.trans_le forward) (fun pair hmem own => ?_) error answer why
    exact apart pair (taken pair hmem own) own

/-- A connection that was neither served nor refused has no answer. -/
theorem Standing.silent {i : Nat} {connection : Connection}
    (stands : Standing parse Broke wire i connection)
    (unserved : ∀ served ∈ wire.served, served.connection ≠ i)
    (unrefused : wire.read ≤ i ∨ ∃ pair ∈ wire.taken, pair.1 = i) : connection.answers = [] := by
  cases stands with
  | unread later silent => exact silent
  | waiting request sent silent => exact silent
  | served served among own answer => exact absurd own (unserved served among)
  | refused earlier apart =>
    rcases unrefused with later | ⟨pair, hmem, own⟩
    · exact absurd earlier (Nat.not_lt.mpr later)
    · exact absurd own (apart pair hmem)

end

section

variable [CronCrate]

/-- The daemon behind the socket is one that was given the requests one by one. Each has the answer
that the daemon gave to it, and each connection has one answer at most. -/
structure Orderly (parse : List Byte → Except Text Request) (Broke : Text → Prop) (start : Daemon)
    (wire : Wire) : Prop where
  daemon : wire.daemon = runAll Daemon.step start wire.history
  commands : wire.history.filterMap Input.request? = wire.served.map (·.request)
  answered : ∀ served ∈ wire.served, ∃ before after,
    wire.history = before ++ .command served.host served.request :: after ∧
    (runAll Daemon.step start before).takes (.command served.host served.request) = true ∧
    served.response = ((runAll Daemon.step start before).command served.host served.request).1
  read : wire.read ≤ wire.connections.length
  order : (wire.taken.map Prod.fst).Pairwise (· < ·)
  below : ∀ pair ∈ wire.taken, pair.1 < wire.read
  asked : ∀ pair ∈ wire.taken, ∃ connection line, wire.connections[pair.1]? = some connection ∧
    connection.line = some line ∧ readRequest parse line = .ok pair.2
  standing : ∀ i connection, wire.connections[i]? = some connection →
    Standing parse Broke wire i connection

variable {parse : List Byte → Except Text Request} {Broke : Text → Prop} {start : Daemon} {wire : Wire}

theorem new_orderly : Orderly parse Broke start (new start) :=
  ⟨rfl, rfl, by simp [new], by simp [new], List.Pairwise.nil, by simp [new, taken],
    by simp [new, taken], by simp [new]⟩

/-- What a client does to its connection. -/
theorem Orderly.client (orderly : Orderly parse Broke start wire) (i : Nat)
    (act : Connection → Connection) (answers : ∀ connection, (act connection).answers = connection.answers)
    (line : ∀ connection line, connection.line = some line → (act connection).line = some line) :
    Orderly parse Broke start { wire with connections := wire.connections.modify i act } := by
  obtain ⟨daemon, commands, answered, read, order, below, asked, standing⟩ := orderly
  refine ⟨daemon, commands, answered, by simpa using read, order, below, ?_, ?_⟩
  · intro pair hmem
    obtain ⟨connection, first, hget, hline, hread⟩ := asked pair hmem
    refine ⟨if i = pair.1 then act connection else connection, first, ?_, ?_, hread⟩
    · simp [List.getElem?_modify, hget]
    · split
      · exact line _ _ hline
      · exact hline
  · intro j changed hget
    dsimp only at hget
    rw [List.getElem?_modify] at hget
    obtain ⟨connection, hconnection, rfl⟩ := Option.map_eq_some_iff.mp hget
    have same : (if i = j then act connection else connection).answers = connection.answers := by
      split
      · exact answers connection
      · rfl
    cases standing j connection hconnection with
    | unread later silent => exact .unread later (same.trans silent)
    | waiting request sent silent => exact .waiting request sent (same.trans silent)
    | served served among own answer => exact .served served among own (same.trans answer)
    | refused earlier apart error answer why =>
      refine .refused earlier apart error (same.trans answer) (why.imp_right ?_)
      rintro ⟨first, hline, hread⟩
      refine ⟨first, ?_, hread⟩
      split
      · exact line _ _ hline
      · exact hline

theorem Orderly.connects (orderly : Orderly parse Broke start wire) :
    Orderly parse Broke start (wire.step parse .connects) := by
  obtain ⟨daemon, commands, answered, read, order, below, asked, standing⟩ := orderly
  refine ⟨daemon, commands, answered, ?_, order, below, ?_, ?_⟩
  · simp only [step, List.length_append]
    omega
  · intro pair hmem
    obtain ⟨connection, line, hget, hline, hread⟩ := asked pair hmem
    refine ⟨connection, line, ?_, hline, hread⟩
    obtain ⟨hlt, -⟩ := List.getElem?_eq_some_iff.mp hget
    rw [← hget]
    exact List.getElem?_append_left hlt
  · intro i connection hget
    have hget : (wire.connections ++ [⟨[], false, []⟩])[i]? = some connection := hget
    rw [List.getElem?_append] at hget
    split at hget
    · exact (standing i connection hget).carry id le_rfl (fun _ sent => sent)
        (fun _ among => among) fun _ hmem _ => hmem
    · next beyond =>
      have hmem := List.mem_of_getElem? hget
      obtain rfl := List.mem_singleton.mp hmem
      exact .unread (Nat.le_trans read (Nat.not_lt.mp beyond)) rfl

/-- The listener passes on what it read. -/
theorem Orderly.received_ok (orderly : Orderly parse Broke start wire) {connection : Connection}
    (hget : wire.connections[wire.read]? = some connection) {request : Request} {line : List Byte}
    (hline : connection.line = some line) (hread : readRequest parse line = .ok request) :
    Orderly parse Broke start (wire.received (.ok request)) := by
  obtain ⟨daemon, commands, answered, read, order, below, asked, standing⟩ := orderly
  have taken : (wire.received (.ok request)).taken = wire.taken ++ [(wire.read, request)] := by
    simp [Wire.taken, Wire.received]
  refine ⟨daemon, commands, answered, (List.getElem?_eq_some_iff.mp hget).1, ?_, ?_, ?_, ?_⟩
  · rw [taken, List.map_append, List.pairwise_append]
    refine ⟨order, List.pairwise_singleton _ _, ?_⟩
    intro i hi j hj
    obtain rfl := List.mem_singleton.mp hj
    obtain ⟨pair, hmem, rfl⟩ := List.mem_map.mp hi
    exact below pair hmem
  · rw [taken, List.forall_mem_append]
    refine ⟨fun pair hmem => Nat.lt_succ_of_lt (below pair hmem), ?_⟩
    simp [Wire.received]
  · rw [taken, List.forall_mem_append]
    refine ⟨asked, ?_⟩
    rw [List.forall_mem_singleton]
    exact ⟨connection, line, hget, hline, hread⟩
  · intro i other hother
    by_cases own : wire.read = i
    · subst own
      refine .waiting request (by simp [Wire.received]) ((standing _ _ hother).silent ?_ (.inl le_rfl))
      intro served among
      exact Nat.ne_of_lt (below served.pair (List.mem_append_left _ (List.mem_map_of_mem among)))
    · refine (standing i other hother).carry (fun later => Nat.lt_of_le_of_ne later own)
        (Nat.le_succ _) (fun _ sent => List.mem_append_left _ sent) (fun _ among => among) ?_
      rw [taken]
      intro pair hmem mine
      refine (List.mem_append.mp hmem).resolve_right fun last => own ?_
      rw [← mine, List.mem_singleton.mp last]

/-- The listener answers a line that is no request. -/
theorem Orderly.received_error (orderly : Orderly parse Broke start wire) {connection : Connection}
    (hget : wire.connections[wire.read]? = some connection) {error : Text}
    (why : Broke error ∨
      ∃ line, connection.line = some line ∧ readRequest parse line = .error error) :
    Orderly parse Broke start (wire.received (.error error)) := by
  obtain ⟨daemon, commands, answered, read, order, below, asked, standing⟩ := orderly
  have room := (List.getElem?_eq_some_iff.mp hget).1
  -- No request of the connection at hand was taken.
  have fresh : ∀ pair ∈ wire.taken, pair.1 ≠ wire.read :=
    fun pair hmem => Nat.ne_of_lt (below pair hmem)
  refine ⟨daemon, commands, answered, ?_, order, ?_, ?_, ?_⟩
  · simpa [Wire.received] using Nat.succ_le_of_lt room
  · exact fun pair hmem => Nat.lt_succ_of_lt (below pair hmem)
  · intro pair hmem
    obtain ⟨other, line, hother, hline, hread⟩ := asked pair hmem
    refine ⟨other, line, ?_, hline, hread⟩
    have apart := (fresh pair hmem).symm
    simp [Wire.received, hother, apart]
  · intro i other hother
    have hother : (wire.connections.modify wire.read (Connection.answer (.error error)))[i]? =
        some other := hother
    rw [List.getElem?_modify] at hother
    obtain ⟨before, hbefore, rfl⟩ := Option.map_eq_some_iff.mp hother
    by_cases own : wire.read = i
    · subst own
      obtain rfl := Option.some.inj (hget.symm.trans hbefore)
      rw [if_pos rfl]
      refine .refused (Nat.lt_succ_self _) fresh error ?_ why
      have silent := (standing _ _ hget).silent
        (fun served among => fresh served.pair (List.mem_append_left _ (List.mem_map_of_mem among)))
        (.inl le_rfl)
      simp [Connection.answer, silent]
    · rw [if_neg own]
      exact (standing i before hbefore).carry (fun later => Nat.lt_of_le_of_ne later own)
        (Nat.le_succ _) (fun _ sent => sent) (fun _ among => among) fun _ hmem _ => hmem

theorem Orderly.give (orderly : Orderly parse Broke start wire) {input : Input}
    (other : Input.request? input = none) : Orderly parse Broke start (wire.give input) := by
  obtain ⟨daemon, commands, answered, read, order, below, asked, standing⟩ := orderly
  refine ⟨?_, ?_, ?_, read, order, below, asked, ?_⟩
  · simp [Wire.give, runAll_append, daemon]
  · simp [Wire.give, commands, other]
  · intro served hmem
    obtain ⟨before, after, history, takes, response⟩ := answered served hmem
    exact ⟨before, after ++ [input], by simp [Wire.give, history], takes, response⟩
  · intro i connection hget
    exact (standing i connection hget).carry id le_rfl (fun _ sent => sent) (fun _ among => among)
      fun _ hmem _ => hmem

theorem Orderly.serve (orderly : Orderly parse Broke start wire) (host : Host) :
    Orderly parse Broke start (wire.serve host) := by
  unfold Wire.serve
  split
  · exact orderly
  · next i request rest hchannel =>
    split
    · next takes =>
      obtain ⟨daemon, commands, answered, read, order, below, asked, standing⟩ := orderly
      have taken : wire.taken = wire.served.map Served.pair ++ (i, request) :: rest := by
        rw [Wire.taken, hchannel]
      rw [taken] at order below asked
      have same : (wire.served ++
          ([⟨i, request, host, (wire.daemon.command host request).1⟩] : List Served)).map Served.pair ++
            rest = wire.served.map Served.pair ++ (i, request) :: rest := by
        simp [Served.pair]
      -- The one request of connection `i` is the one at the head.
      have later : ∀ pair ∈ rest, pair.1 ≠ i := by
        rw [List.map_append, List.map_cons, List.pairwise_append, List.pairwise_cons] at order
        intro pair hmem
        exact Nat.ne_of_gt (order.2.1.1 pair.1 (List.mem_map_of_mem hmem))
      have earlier : ∀ served ∈ wire.served, served.connection ≠ i := by
        rw [List.map_append, List.map_cons, List.pairwise_append] at order
        intro served hmem
        exact Nat.ne_of_lt (order.2.2 served.connection
          (List.mem_map.mpr ⟨served.pair, List.mem_map_of_mem hmem, rfl⟩) i (by simp))
      refine ⟨?_, ?_, ?_, by simpa [Wire.give] using read, ?_, ?_, ?_, ?_⟩
      · simp [Wire.give, runAll_append, daemon]
      · simp [Wire.give, commands, Input.request?]
      · rw [List.forall_mem_append, List.forall_mem_singleton]
        refine ⟨?_, ?_⟩
        · intro served hmem
          obtain ⟨before, after, history, takes', response⟩ := answered served hmem
          exact ⟨before, after ++ [.command host request], by simp [Wire.give, history], takes',
            response⟩
        · refine ⟨wire.history, [], rfl, ?_, ?_⟩
          · rw [← daemon]
            exact takes
          · rw [← daemon]
      · simpa only [Wire.taken, same] using order
      · simp only [Wire.taken, same]
        exact below
      · simp only [Wire.taken, same]
        intro pair hmem
        obtain ⟨connection, line, hget, hline, hread⟩ := asked pair hmem
        refine ⟨if i = pair.1 then connection.answer (wire.daemon.command host request).1
          else connection, line, ?_, ?_, hread⟩
        · simp [List.getElem?_modify, hget]
        · split <;> exact hline
      · intro j changed hget
        have hget : (wire.connections.modify i
            (Connection.answer (wire.daemon.command host request).1))[j]? = some changed := hget
        rw [List.getElem?_modify] at hget
        obtain ⟨connection, hconnection, rfl⟩ := Option.map_eq_some_iff.mp hget
        by_cases own : i = j
        · subst own
          rw [if_pos rfl]
          have silent := (standing i connection hconnection).silent earlier
            (.inr ⟨(i, request), by simp [taken], rfl⟩)
          refine .served _ (List.mem_append_right _ (List.mem_singleton_self _)) rfl ?_
          simp [Connection.answer, silent]
        · rw [if_neg own]
          refine (standing j connection hconnection).carry id le_rfl (fun request' sent => ?_)
            (fun _ among => List.mem_append_left _ among) fun pair hmem _ => ?_
          · rw [hchannel, List.mem_cons] at sent
            refine sent.resolve_left ?_
            rintro ⟨⟩
            exact own rfl
          · rw [taken, ← same]
            exact hmem
    · exact orderly

theorem Orderly.step (orderly : Orderly parse Broke start wire) {move : WireMove}
    (broke : ∀ error, move = .breaks error → Broke error) :
    Orderly parse Broke start (wire.step parse move) := by
  cases move with
  | connects => exact orderly.connects
  | sends i bytes =>
    refine orderly.client i _ ?_ fun connection line h => Connection.line_sends bytes h
    intro connection
    unfold Connection.sends
    split <;> rfl
  | ends i => exact orderly.client i _ (fun _ => rfl) fun _ _ h => Connection.line_ends h
  | listens =>
    unfold Wire.step Wire.listen
    dsimp only
    split
    · exact orderly
    · next connection hget =>
      split
      · exact orderly
      · next line hline =>
        cases h : readRequest parse line with
        | ok request => exact orderly.received_ok hget hline h
        | error error => exact orderly.received_error hget (.inr ⟨line, hline, h⟩)
  | breaks error =>
    unfold Wire.step
    dsimp only
    split
    · next room =>
      exact orderly.received_error (List.getElem?_eq_getElem room) (.inl (broke error rfl))
    · exact orderly
  | serves host => exact orderly.serve host
  | happens input =>
    unfold Wire.step
    dsimp only
    split
    · exact orderly
    · next other =>
      refine orderly.give ?_
      cases input with
      | command host request => exact absurd rfl other
      | _ => rfl

theorem orderly_of_run (parse : List Byte → Except Text Request) (start : Daemon)
    (moves : List WireMove) (broke : ∀ error, .breaks error ∈ moves → Broke error) :
    Orderly parse Broke start (runAll (Wire.step parse) (new start) moves) :=
  runAll_invariant (fun _ _ orderly (hmem : _ ∈ moves) =>
    orderly.step fun error h => broke error (h ▸ hmem)) new_orderly (Along.of_mem _ fun _ h => h)

/-- In any order of clients, listener and timer, the daemon behind the socket is a daemon that takes
the requests one after another. Each connection has at most one answer: that of its own request, or
the reason why its line is none. One that has no answer has changed nothing, and requests are handled
in the order in which their connections came. -/
theorem wire_orderly (parse : List Byte → Except Text Request) (start : Daemon)
    (moves : List WireMove) :
    Orderly parse (fun error => .breaks error ∈ moves) start
      (runAll (Wire.step parse) (new start) moves) :=
  orderly_of_run parse start moves fun _ h => h

/-! ## What a client finds -/

theorem Orderly.mem_taken (orderly : Orderly parse Broke start wire) {served : Served}
    (among : served ∈ wire.served) : ∃ connection line,
      wire.connections[served.connection]? = some connection ∧ connection.line = some line ∧
        readRequest parse line = .ok served.request :=
  orderly.asked served.pair (List.mem_append_left _ (List.mem_map_of_mem among))

/-- A client that writes a request as one line has no answer, or the answer that the daemon gave to
this very request, or the error of a read that failed. -/
theorem send_answered (parse : List Byte → Except Text Request) (start : Daemon)
    (moves : List WireMove) (i : Nat) (connection : Connection) (request : Request)
    (text more : List Byte) (plain : (10 : Byte) ∉ text) (back : parse (text ++ [10]) = .ok request)
    (hget : (runAll (Wire.step parse) (new start) moves).connections[i]? = some connection)
    (sent : connection.sent = text ++ 10 :: more) :
    connection.answers = [] ∨
      (∃ host before after,
        (runAll (Wire.step parse) (new start) moves).history =
          before ++ .command host request :: after ∧
        connection.answers = [((runAll Daemon.step start before).command host request).1]) ∨
      ∃ error, .breaks error ∈ moves ∧ connection.answers = [.error error] := by
  have orderly := @orderly_of_run _ (fun error => .breaks error ∈ moves) parse start moves
    fun _ h => h
  have line : connection.line = some (text ++ [10]) := by
    unfold Connection.line
    rw [sent]
    exact readLine_of_line plain more connection.ended
  have reads : readRequest parse (text ++ [10]) = .ok request := by
    unfold readRequest
    rw [if_neg (by simp), back]
  cases orderly.standing i connection hget with
  | unread later silent => exact .inl silent
  | waiting other sent silent => exact .inl silent
  | served served among own answer =>
    obtain ⟨connection', line', hget', hline', hread'⟩ := orderly.mem_taken among
    rw [own, hget] at hget'
    obtain rfl := Option.some.inj hget'
    obtain rfl := Option.some.inj (line.symm.trans hline')
    have same : served.request = request := Except.ok.inj (hread'.symm.trans reads)
    obtain ⟨before, after, history, -, response⟩ := orderly.answered served among
    rw [same] at history response
    exact .inr (.inl ⟨served.host, before, after, history, by rw [answer, response]⟩)
  | refused earlier apart error answer why =>
    refine .inr (.inr ⟨error, ?_, answer⟩)
    refine why.resolve_right ?_
    rintro ⟨line', hline', hread'⟩
    obtain rfl := Option.some.inj (line.symm.trans hline')
    cases reads.symm.trans hread'

end

def idleDaemon : Daemon where
  root := []
  registry := ⟨[]⟩
  states := ⟨[]⟩
  manifests := []
  jobs := []
  running := 0
  limit := 1
  started := 0
  stopping := false
  exiting := false
  waiting := true
  files := ⟨.ok ⟨[]⟩, ⟨[]⟩⟩
  threads := []
  trace := []

def stopText : List Byte :=
  "\x7b\"command\":\"stop\"\x7d".toList.map fun c => BitVec.ofNat 8 c.toNat

def parseStop (line : List Byte) : Except Text Request :=
  if line = stopText ++ [10] then .ok .stop else .error "expected value".toList

def stopMoves : List WireMove := [.connects, .sends 0 (stopText ++ [10]), .listens, .serves default]

theorem send_answered_stop :
    let connection : Connection := ⟨stopText ++ [10], false, [.done "stopping".toList]⟩
    connection.answers = [] ∨
      (∃ host before after,
        (runAll (@Wire.step .unused parseStop) (new idleDaemon) stopMoves).history =
          before ++ .command host .stop :: after ∧
        connection.answers =
          [(@Daemon.command .unused
            (runAll (@Daemon.step .unused) idleDaemon before) host .stop).1]) ∨
      ∃ error, .breaks error ∈ stopMoves ∧ connection.answers = [.error error] := by
  let _ : CronCrate := .unused
  exact send_answered parseStop idleDaemon stopMoves 0 _ .stop stopText [] (by decide) (by decide)
    rfl rfl

section

variable [CronCrate] {parse : List Byte → Except Text Request} {Broke : Text → Prop} {start : Daemon}
  {wire : Wire}

/-- The move does not finish the line of connection `k`, nor its read. -/
def Leaves (k : Nat) : WireMove → Prop
  | .sends i bytes => i = k → (10 : Byte) ∉ bytes
  | .ends i => i ≠ k
  | .breaks _ => False
  | _ => True

/-- The thread waits for the line of connection `k`. -/
structure Stuck (k : Nat) (taken : List (Nat × Request)) (wire : Wire) : Prop where
  read : wire.read = k
  taken : wire.taken = taken
  silent : ∀ connection, wire.connections[k]? = some connection → connection.line = none

theorem Stuck.step {k : Nat} {taken : List (Nat × Request)} (stuck : Stuck k taken wire)
    (below : ∀ pair ∈ wire.taken, pair.1 < wire.read) {move : WireMove} (leaves : Leaves k move) :
    Stuck k taken (wire.step parse move) := by
  obtain ⟨read, same, silent⟩ := stuck
  cases move with
  | connects =>
    refine ⟨read, same, ?_⟩
    intro connection hget
    have hget : (wire.connections ++ [⟨[], false, []⟩])[k]? = some connection := hget
    rw [List.getElem?_append] at hget
    split at hget
    · exact silent connection hget
    · obtain rfl := List.mem_singleton.mp (List.mem_of_getElem? hget)
      rfl
  | sends i bytes =>
    refine ⟨read, same, ?_⟩
    intro connection hget
    have leaves : i = k → (10 : Byte) ∉ bytes := leaves
    unfold Wire.step at hget
    dsimp only at hget
    rw [List.getElem?_modify] at hget
    obtain ⟨earlier, hearlier, rfl⟩ := Option.map_eq_some_iff.mp hget
    split
    · next own => exact Connection.line_unfinished (leaves own) (silent earlier hearlier)
    · exact silent earlier hearlier
  | ends i =>
    refine ⟨read, same, ?_⟩
    intro connection hget
    have apart : i ≠ k := leaves
    exact silent connection (by simpa [Wire.step, List.getElem?_modify, apart] using hget)
  | listens =>
    have blocked : wire.step parse .listens = wire := by
      unfold Wire.step Wire.listen
      dsimp only
      rw [read]
      split
      · rfl
      · next connection hget => rw [silent connection hget]
    rw [blocked]
    exact ⟨read, same, silent⟩
  | breaks error => cases leaves
  | serves host =>
    unfold Wire.step Wire.serve
    dsimp only
    split
    · exact ⟨read, same, silent⟩
    · next i request rest hchannel =>
      split
      · refine ⟨read, ?_, ?_⟩
        · rw [← same]
          simp [Wire.taken, hchannel, Served.pair]
        · intro connection hget
          have earlier : i < k := by
            rw [← read]
            exact below (i, request) (by simp [Wire.taken, hchannel])
          have apart : i ≠ k := Nat.ne_of_lt earlier
          exact silent connection (by simpa [Wire.give, List.getElem?_modify, apart] using hget)
      · exact ⟨read, same, silent⟩
  | happens input =>
    unfold Wire.step
    dsimp only
    split <;> exact ⟨read, same, silent⟩

/-- The thread reads one connection after the other, so a client that connects and sends no whole
line keeps every later command from being read, for as long as it stays. -/
theorem silent_client_blocks (parse : List Byte → Except Text Request) (start : Daemon)
    (before after : List WireMove)
    (silent : ∀ connection, (runAll (Wire.step parse) (new start) before).connections[
      (runAll (Wire.step parse) (new start) before).read]? = some connection → connection.line = none)
    (leaves : ∀ move ∈ after, Leaves (runAll (Wire.step parse) (new start) before).read move) :
    ∀ i connection, (runAll (Wire.step parse) (new start) before).read ≤ i →
      (runAll (Wire.step parse) (new start) (before ++ after)).connections[i]? = some connection →
      connection.answers = [] ∧
        ∀ pair ∈ (runAll (Wire.step parse) (new start) (before ++ after)).taken, pair.1 ≠ i := by
  have orderly := @orderly_of_run _ (fun _ => True) parse start before fun _ _ => trivial
  rw [runAll_append]
  generalize runAll (Wire.step parse) (new start) before = wire at *
  obtain ⟨late, stuck⟩ := @runAll_invariant _ _ (Wire.step parse) (fun _ => Leaves wire.read)
    (fun later => Orderly parse (fun _ => True) start later ∧ Stuck wire.read wire.taken later)
    (fun _ _ inv leaves => ⟨inv.1.step fun _ _ => trivial, inv.2.step inv.1.below leaves⟩)
    wire after ⟨orderly, rfl, rfl, silent⟩ (Along.of_mem _ leaves)
  intro i connection later hget
  have below : ∀ pair ∈ (runAll (Wire.step parse) wire after).taken, pair.1 ≠ i := by
    intro pair hmem
    have := late.below pair hmem
    rw [stuck.read] at this
    omega
  refine ⟨?_, below⟩
  cases late.standing i connection hget with
  | unread _ silent => exact silent
  | waiting _ _ silent => exact silent
  | served served among own _ =>
    exact absurd own (below served.pair (List.mem_append_left _ (List.mem_map_of_mem among)))
  | refused earlier _ _ _ _ =>
    rw [stuck.read] at earlier
    omega

end

theorem silent_client_blocks_stop :
    (⟨stopText ++ [10], false, []⟩ : Connection).answers = [] ∧
      ∀ pair ∈ (runAll (@Wire.step .unused parseStop) (new idleDaemon) ([.connects, .connects] ++
        [.sends 0 stopText, .sends 1 (stopText ++ [10]), .listens, .serves default])).taken,
          pair.1 ≠ 1 := by
  let _ : CronCrate := .unused
  refine silent_client_blocks parseStop idleDaemon [.connects, .connects]
    [.sends 0 stopText, .sends 1 (stopText ++ [10]), .listens, .serves default] ?_ ?_ 1 _ (Nat.zero_le 1) rfl
  · rintro connection ⟨⟩
    rfl
  · intro move hmem
    simp only [List.mem_cons, List.not_mem_nil, or_false] at hmem
    rcases hmem with rfl | rfl | rfl | rfl
    · intro own
      decide
    · exact fun own => absurd own Nat.one_ne_zero
    · trivial
    · trivial

end Wire

end Beez.Daemon
