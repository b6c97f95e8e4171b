import Beez.Sandbox.Bubblewrap
import Beez.Sandbox.Domains
import Beez.Sandbox.Executables

/-! # What `sandbox-init` reads back -/

open Beez.Lib

namespace Beez.Sandbox

def invalid (message : String) : Text := message.toList

/-! ## Relays -/

def equals : Byte := 0x3D

/-- The `PORT=SOCKET` argument that asks `sandbox-init` to relay one port. -/
def relayArgument (port : Nat) (socket : OsString) : OsString :=
  Text.toUtf8 (decimal port ++ ['=']) ++ socket

/-- Reads a `PORT=SOCKET` relay argument. -/
def parseRelay (argument : OsString) : Except Text (BitVec 16 × OsString) :=
  match argument.findIdx? (· == equals) with
  | none => .error (invalid "relay must be PORT=SOCKET")
  | some separator =>
    let port := argument.take separator
    let socket := argument.drop (separator + 1)
    match ((Text.fromUtf8 port).bind Text.parseU16).filter (· != 0) with
    | none => .error (invalid "relay port must be a number from 1 to 65535")
    | some port =>
      if socket = [] then .error (invalid "relay must name a socket") else .ok (port, socket)

theorem findIdx?_equals {front : OsString} (clear : equals ∉ front) (rest : OsString) :
    (front ++ equals :: rest).findIdx? (· == equals) = some front.length := by
  have none : front.findIdx? (· == equals) = none := by
    rw [List.findIdx?_eq_none_iff]
    intro b hb
    rw [beq_eq_false_iff_ne]
    rintro rfl
    exact clear hb
  rw [List.findIdx?_append, none, List.findIdx?_cons]
  simp

/-- A byte of a port is a digit. -/
theorem not_mem_port {c : Char} (ascii : c.toNat < 0x80) (other : c.isDigit = false) (port : Nat) :
    BitVec.ofNat 8 c.toNat ∉ Text.toUtf8 (decimal port) := by
  intro mem
  obtain ⟨front, rest, cut⟩ := List.append_of_mem mem
  rw [← List.singleton_append, ← Text.encodeChar_ascii ascii] at cut
  obtain ⟨before, after, number, -, -⟩ := Text.toUtf8_split ascii cut
  refine not_mem_decimal other port ?_
  rw [number]
  exact List.mem_append_right _ List.mem_cons_self

theorem port_ne_nil (port : Nat) : Text.toUtf8 (decimal port) ≠ [] := by
  intro empty
  have some : decimal port ≠ [] := Nat.toDigits_ne_nil
  exact some (Text.toUtf8_eq_nil empty)

/-- A relay argument reads back, whatever bytes the socket has. -/
theorem parseRelay_relayArgument {port : Nat} (range : 0 < port ∧ port < 2 ^ 16) {socket : OsString}
    (some : socket ≠ []) :
    parseRelay (relayArgument port socket) = .ok (BitVec.ofNat 16 port, socket) := by
  have same : (BitVec.ofNat 16 port).toNat = port := Nat.mod_eq_of_lt range.2
  have named : (BitVec.ofNat 16 port != 0) = true := by
    rw [bne_iff_ne]
    intro zero
    rw [zero] at same
    exact range.1.ne same
  have number : ((Text.fromUtf8 (Text.toUtf8 (decimal port))).bind Text.parseU16).filter (· != 0) =
      Option.some (BitVec.ofNat 16 port) := by
    have parsed := DomainRule.parseU16_decimal (BitVec.ofNat 16 port)
    rw [same] at parsed
    rw [Text.fromUtf8_toUtf8, Option.bind_some, parsed, Option.filter_some, if_pos named]
  have cut : relayArgument port socket = Text.toUtf8 (decimal port) ++ equals :: socket := by
    rw [relayArgument, Text.toUtf8_append, List.append_assoc]
    rfl
  unfold parseRelay
  rw [cut, findIdx?_equals (not_mem_port (c := '=') (by decide) (by decide) _)]
  simp only [List.take_left, List.drop_length_add_append, List.drop_succ_cons, List.drop_zero, number,
    if_neg some]

/-! ## The options -/

/-- The options and the arguments of `sandbox-init`. -/
structure SandboxInit where
  relays : List OsString
  /-- Files or directories that may execute. None means unrestricted. -/
  executables : List OsString
  command : List OsString
deriving DecidableEq, Repr

def Flag.bytes (flag : Flag) : OsString := .ofString flag.text

def dash : Byte := 0x2D

/-- An argument that no reader of options takes for an option. -/
def IsValue (value : OsString) : Prop := value ≠ [] ∧ value.head? ≠ some dash

/-- The part of clap that reads the options of `sandbox-init`. It stops the program on a usage
error. -/
class Clap where
  read : List OsString → Option SandboxInit

/-- What clap promises: it collects a repeated option in order, and stops at `--`. -/
class Clap.Lawful (clap : Clap) : Prop where
  relay : ∀ {value rest init}, IsValue value → clap.read rest = some init →
    clap.read (Flag.relay.bytes :: value :: rest) = some { init with relays := value :: init.relays }
  exec : ∀ {value rest init}, IsValue value → clap.read rest = some init →
    clap.read (Flag.exec.bytes :: value :: rest) =
      some { init with executables := value :: init.executables }
  last : ∀ {command}, command ≠ [] →
    clap.read (Flag.separator.bytes :: command) = some ⟨[], [], command⟩

/-- What `sandbox-init` asks of the launcher inside the sandbox. -/
structure InitCall where
  relays : List (BitVec 16 × OsString)
  executables : Option (List OsString)
  program : OsString
  arguments : List OsString
deriving DecidableEq, Repr

def sandboxInit (init : SandboxInit) : Except Text InitCall := do
  let relays ← init.relays.mapM parseRelay
  let executables := if init.executables = [] then none else some init.executables
  match init.command with
  | [] => .error (invalid "sandbox-init needs a program")
  | program :: arguments => return { relays, executables, program, arguments }

theorem mapM_two {first second : OsString} {one other : BitVec 16 × OsString}
    (h : parseRelay first = .ok one) (h' : parseRelay second = .ok other) :
    [first, second].mapM parseRelay = .ok [one, other] := by
  simp [h, h']
  rfl

theorem sandboxInit_ok {relays : List OsString} {parsed : List (BitVec 16 × OsString)}
    (h : relays.mapM parseRelay = .ok parsed) (executables : List OsString) (program : OsString)
    (arguments : List OsString) :
    sandboxInit ⟨relays, executables, program :: arguments⟩ =
      .ok ⟨parsed, if executables = [] then none else some executables, program, arguments⟩ := by
  rw [sandboxInit, h]
  rfl

/-! ## Inside the sandbox -/

inductive InitStep where
  | relay (port : BitVec 16) (socket : OsString)
  | restrictExecution (executables : List OsString)
  | exec (program : OsString) (arguments : List OsString)
deriving DecidableEq, Repr

/-- The steps of `init`. Each is taken only where those before it worked. -/
def InitCall.init (call : InitCall) : List InitStep :=
  call.relays.map (fun relay => .relay relay.1 relay.2) ++
    call.executables.toList.map .restrictExecution ++ [.exec call.program call.arguments]

def InitCall.Unrestricted (call : InitCall) : Prop :=
  ∀ executables, .restrictExecution executables ∉ call.init

theorem InitCall.unrestricted_iff {call : InitCall} :
    call.Unrestricted ↔ call.executables = none := by
  cases hexecutables : call.executables with
  | none => simp [Unrestricted, init, hexecutables]
  | some executables => simp [Unrestricted, init, hexecutables]

/-! ## The arguments written -/

namespace HostSystem

variable (host : HostSystem)

def text (argument : Text) : OsString := host.nameBytes (.ofList argument)

/-- The bytes of an argument of `bwrap`. -/
def argument : Argument → OsString
  | .flag flag => flag.bytes
  | .path path => host.bytes path
  | .relay port socket => relayArgument port (host.bytes socket)
  | .text argument => host.text argument

end HostSystem

/-- The arguments after `sandbox-init`. -/
def afterInit (arguments : List OsString) : List OsString :=
  (arguments.dropWhile (· != Flag.sandboxInit.bytes)).tail

/-- An argument in front of `sandbox-init`: a path, or a flag of `bwrap`. -/
def Argument.Outer : Argument → Prop
  | .flag name => name ≠ .sandboxInit
  | .path _ => True
  | .relay _ _ | .text _ => False

theorem outer_bind {mode : Flag} (other : mode ≠ .sandboxInit) (source target : Path) :
    ∀ argument ∈ bind mode source target, argument.Outer := by
  simp [bind, option, Argument.Outer, other]

theorem outer_option {name : Flag} (other : name ≠ .sandboxInit) (value : Path) :
    ∀ argument ∈ option name value, argument.Outer := by
  simp [option, Argument.Outer, other]

theorem HostSystem.bytes_ne_flag (host : HostSystem) (path : Path) (name : Flag) :
    host.bytes path ≠ name.bytes := by
  intro same
  have head := HostSystem.head_bytes host path
  rw [same] at head
  revert head
  cases name <;> decide

theorem HostSystem.argument_ne (host : HostSystem) {argument : Argument} (outer : argument.Outer) :
    host.argument argument ≠ Flag.sandboxInit.bytes := by
  cases argument with
  | flag name =>
    have apart : ∀ name : Flag, name ≠ .sandboxInit → name.bytes ≠ Flag.sandboxInit.bytes := by
      intro name other
      cases name <;> first | exact absurd rfl other | decide
    exact apart name outer
  | path path => exact host.bytes_ne_flag path _
  | relay port socket => exact outer.elim
  | text text => exact outer.elim

/-- What follows `sandbox-init`, as the arguments are written. -/
def initArguments (resolved : ResolvedSandbox) (bridge : Bridge) (programArguments : List Text) :
    List Argument :=
  [.flag .relay, .relay httpPort bridge.httpSocket, .flag .relay, .relay socksPort bridge.socksSocket] ++
    (resolved.executables.getD []).flatMap (option .exec) ++
    [.flag .separator, .path resolved.program] ++ programArguments.map .text

theorem afterInit_outer (host : HostSystem) {front : List Argument}
    (outer : ∀ argument ∈ front, argument.Outer) (rest : List Argument) :
    afterInit ((front ++ rest).map host.argument) = afterInit (rest.map host.argument) := by
  have other : ∀ word ∈ front.map host.argument, (word != Flag.sandboxInit.bytes) = true := by
    rw [List.forall_mem_map]
    exact fun argument mem => bne_iff_ne.mpr (host.argument_ne (outer argument mem))
  unfold afterInit
  rw [List.map_append, List.dropWhile_append_of_pos other]

theorem afterInit_here (host : HostSystem) (rest : List Argument) :
    afterInit ((.flag .sandboxInit :: rest).map host.argument) = rest.map host.argument := by
  unfold afterInit
  rw [List.map_cons, List.dropWhile_cons_of_neg (by simp [HostSystem.argument]), List.tail_cons]

theorem outer_flatMap {paths : List Path} {written : Path → List Argument}
    (outer : ∀ path, ∀ argument ∈ written path, argument.Outer) :
    ∀ argument ∈ paths.flatMap written, argument.Outer := by
  intro argument mem
  obtain ⟨path, -, mem⟩ := List.mem_flatMap.mp mem
  exact outer path argument mem

theorem outer_nil : ∀ argument ∈ ([] : List Argument), argument.Outer := List.forall_mem_nil _

theorem afterInit_bwrapArguments (host : HostSystem) (tree : Tree) (resolved : ResolvedSandbox)
    (bridge : Bridge) (beez : Path) (programArguments : List Text) (plan : MaskPlan) :
    afterInit ((bwrapArguments tree resolved bridge beez programArguments plan).map host.argument) =
      (initArguments resolved bridge programArguments).map host.argument := by
  have temporary : ∀ argument ∈ (if ["tmp"] ∈ resolved.writeAllow then []
      else option .tmpfs ["tmp"]), argument.Outer := by
    split
    · exact outer_nil
    · exact outer_option (by decide) _
  have writable : ∀ path : Path, ∀ argument ∈ bind .bind path path, argument.Outer :=
    fun path => outer_bind (by decide) path path
  have ancestor : ∀ path, ∀ argument ∈ (if tree.isPresent path then bind .bind path path else []),
      argument.Outer := by
    intro path
    split
    · exact writable path
    · exact outer_nil
  have denied : ∀ path, ∀ argument ∈ (if plan.covers path then bind .roBind bridge.empty path
      else if tree.isPresent path then bind .roBind path path else []), argument.Outer := by
    intro path
    split
    · exact outer_bind (by decide) _ _
    split
    · exact outer_bind (by decide) _ _
    · exact outer_nil
  have hidden : ∀ path, ∀ argument ∈ (if tree.isDir path then option .tmpfs path
      else bind .roBind devNull path), argument.Outer := by
    intro path
    split
    · exact outer_option (by decide) _
    · exact outer_bind (by decide) _ _
  have command : ∀ argument ∈ [Argument.flag .separator, .path beez], argument.Outer := by
    simp [Argument.Outer]
  unfold bwrapArguments
  simp only [List.append_assoc]
  rw [afterInit_outer host (by simp [Argument.Outer]), afterInit_outer host (outer_bind (by decide) _ _),
    afterInit_outer host (outer_option (by decide) _), afterInit_outer host (outer_option (by decide) _),
    afterInit_outer host temporary, afterInit_outer host (outer_flatMap writable),
    afterInit_outer host (outer_flatMap ancestor), afterInit_outer host (outer_flatMap denied),
    afterInit_outer host (outer_flatMap hidden), afterInit_outer host (outer_bind (by decide) _ _),
    afterInit_outer host (outer_option (by decide) _)]
  refine (afterInit_outer host command _).trans ((afterInit_here host _).trans ?_)
  simp [initArguments]

/-! ## Reading them back -/

theorem isValue_bytes (host : HostSystem) (path : Path) : IsValue (host.bytes path) := by
  have head := HostSystem.head_bytes host path
  constructor
  · intro empty
    rw [empty] at head
    cases head
  · rw [head]
    decide

theorem isValue_relay (port : Nat) (socket : OsString) : IsValue (relayArgument port socket) := by
  obtain ⟨digit, rest, number⟩ := List.exists_cons_of_ne_nil (port_ne_nil port)
  have written : relayArgument port socket = digit :: (rest ++ Text.toUtf8 ['='] ++ socket) := by
    rw [relayArgument, Text.toUtf8_append, number, List.cons_append, List.cons_append]
  rw [written]
  refine ⟨List.cons_ne_nil _ _, ?_⟩
  rw [List.head?_cons]
  intro same
  refine not_mem_port (c := '-') (by decide) (by decide) port ?_
  rw [number, Option.some.inj same]
  exact List.mem_cons_self

section

variable [clap : Clap] [clap.Lawful] (host : HostSystem)

theorem read_executables (executables : List Path) {rest : List OsString} {init : SandboxInit}
    (h : clap.read rest = some init) :
    clap.read ((executables.flatMap (option .exec)).map host.argument ++ rest) =
      some { init with executables := executables.map host.bytes ++ init.executables } := by
  induction executables with
  | nil => exact h
  | cons path executables ih => exact Clap.Lawful.exec (isValue_bytes host path) ih

theorem read_initArguments (resolved : ResolvedSandbox) (bridge : Bridge)
    (programArguments : List Text) :
    clap.read ((initArguments resolved bridge programArguments).map host.argument) =
      some {
        relays := [relayArgument httpPort (host.bytes bridge.httpSocket),
          relayArgument socksPort (host.bytes bridge.socksSocket)]
        executables := (resolved.executables.getD []).map host.bytes
        command := host.bytes resolved.program :: programArguments.map host.text } := by
  have command : clap.read _ = _ := Clap.Lawful.last
    (List.cons_ne_nil (host.bytes resolved.program) (programArguments.map host.text))
  have allowed := read_executables host (resolved.executables.getD []) command
  rw [List.append_nil] at allowed
  have socks := Clap.Lawful.relay (isValue_relay socksPort (host.bytes bridge.socksSocket)) allowed
  have http := Clap.Lawful.relay (isValue_relay httpPort (host.bytes bridge.httpSocket)) socks
  refine Eq.trans (congrArg clap.read ?_) http
  simp [initArguments, HostSystem.argument, Function.comp_def]

end

/-- What `sandbox-init` reads is what was written, whatever bytes the paths and the arguments have,
and it leaves execution unrestricted only where the policy does. -/
theorem sandboxInit_bwrapArguments [clap : Clap] [clap.Lawful] {host : HostSystem} {tree : Tree}
    {rules : ResolvedSandbox} {policy : SandboxPolicy} {program workingDirectory home : OsString}
    {resolved : Resolved tree}
    (h : ResolvedSandbox.resolve host tree rules policy program workingDirectory home = .ok resolved)
    (bridge : Bridge) (beez : Path) (programArguments : List Text) (plan : MaskPlan) :
    ∃ init call,
      clap.read (afterInit ((bwrapArguments tree resolved.toResolvedSandbox bridge beez
        programArguments plan).map host.argument)) = some init ∧
      sandboxInit init = .ok call ∧
      call.relays = [(BitVec.ofNat 16 httpPort, host.bytes bridge.httpSocket),
        (BitVec.ofNat 16 socksPort, host.bytes bridge.socksSocket)] ∧
      call.program = host.bytes resolved.program ∧
      call.arguments = programArguments.map host.text ∧
      call.executables = resolved.executables.map (·.map host.bytes) ∧
      (call.Unrestricted ↔ policy.executables = none) := by
  obtain ⟨section_, own⟩ := ResolvedSandbox.resolve_executables h
  have allowed : (if (resolved.executables.getD []).map host.bytes = [] then none
      else some ((resolved.executables.getD []).map host.bytes)) =
      resolved.executables.map (·.map host.bytes) := by
    cases hexecutables : resolved.executables with
    | none => rfl
    | some executables =>
      have some := List.ne_nil_of_mem (own executables hexecutables)
      simp [some]
  have http : parseRelay (relayArgument httpPort (host.bytes bridge.httpSocket)) =
      .ok (BitVec.ofNat 16 httpPort, host.bytes bridge.httpSocket) :=
    parseRelay_relayArgument (by decide) (isValue_bytes host _).1
  have socks : parseRelay (relayArgument socksPort (host.bytes bridge.socksSocket)) =
      .ok (BitVec.ofNat 16 socksPort, host.bytes bridge.socksSocket) :=
    parseRelay_relayArgument (by decide) (isValue_bytes host _).1
  have relays : [relayArgument httpPort (host.bytes bridge.httpSocket),
      relayArgument socksPort (host.bytes bridge.socksSocket)].mapM parseRelay = _ :=
    mapM_two http socks
  rw [afterInit_bwrapArguments, read_initArguments]
  refine ⟨_, _, rfl, sandboxInit_ok relays _ _ _, rfl, rfl, rfl, allowed, ?_⟩
  rw [InitCall.unrestricted_iff, allowed, Option.map_eq_none_iff, section_]

/-! ## A path that is no text -/

def readOptions : List OsString → Option SandboxInit
  | [] | [_] => none
  | word :: value :: rest =>
    if word = Flag.separator.bytes then some ⟨[], [], value :: rest⟩
    else if value = [] ∨ value.head? = some dash then none
    else if word = Flag.relay.bytes then
      (readOptions rest).map fun init => { init with relays := value :: init.relays }
    else if word = Flag.exec.bytes then
      (readOptions rest).map fun init => { init with executables := value :: init.executables }
    else none

abbrev Clap.plain : Clap := ⟨readOptions⟩

instance : Clap.plain.Lawful where
  relay := by
    intro value rest init isValue h
    have free : ¬(value = [] ∨ value.head? = some dash) := not_or.mpr isValue
    change readOptions _ = _
    rw [readOptions, if_neg (by decide), if_neg free, if_pos rfl, show readOptions rest = _ from h]
    rfl
  exec := by
    intro value rest init isValue h
    have free : ¬(value = [] ∨ value.head? = some dash) := not_or.mpr isValue
    change readOptions _ = _
    rw [readOptions, if_neg (by decide), if_neg free, if_neg (by decide), if_pos rfl,
      show readOptions rest = _ from h]
    rfl
  last := by
    intro command some
    obtain ⟨program, arguments, rfl⟩ := List.exists_cons_of_ne_nil some
    change readOptions _ = _
    rw [readOptions, if_pos rfl]

/-- A host whose names have one byte for each character, with a program that is a link. -/
def linked : HostSystem where
  nameBytes name := name.toList.map fun c => BitVec.ofNat 8 c.toNat
  nameBytes_ascii name ascii := by
    refine List.map_eq_flatMap.trans (List.flatMap_congr fun c hc => ?_)
    exact (Text.encodeChar_ascii (ascii c hc)).symm
  searchPath := some (.ofString "/usr/bin:/bin")
  canonicalize path :=
    if path = .ofString "/repo" then some ["repo"]
    else if path = .ofString "/usr/bin/agent" then some ["opt", "agent=ÿ"]
    else none
  metadata path := if path = .ofString "/repo" then none else some ⟨true, false, 0o755⟩
  readHead _ := none
  readDir _ := none

def onlyProgram : SandboxPolicy :=
  { network := ⟨⟨none, [], []⟩, [], none⟩
    filesystem := ⟨none, [], [], []⟩
    executables := some ⟨⟨some false, [], []⟩, []⟩ }

def bareRoot : Tree := ⟨[([], .directory)], rfl, by simp⟩

def noRules : ResolvedSandbox := ⟨false, [], [], [], none, [], []⟩

theorem sandboxInit_bwrapArguments_linked : ∃ resolved init call,
    ResolvedSandbox.resolve linked bareRoot noRules onlyProgram (.ofString "agent")
      (.ofString "/repo") (.ofString "/home") = .ok resolved ∧
    Clap.plain.read (afterInit ((bwrapArguments bareRoot resolved.toResolvedSandbox
      ⟨["tmp", "beez"]⟩ ["bin", "beez"] [['-', '-'], ['ÿ']] []).map linked.argument)) = some init ∧
    sandboxInit init = .ok call ∧
    call.program = OsString.ofString "/opt/agent=" ++ [0xFF] ∧
    call.arguments = [OsString.ofString "--", [0xFF]] ∧
    ¬call.Unrestricted := by
  have directory : linked.canonicalize (.ofString "/repo") = some ["repo"] := by decide
  have found : linked.locateProgram (.ofString "agent") ["repo"] = some ["opt", "agent=ÿ"] := by
    decide +kernel
  have h : ResolvedSandbox.resolve linked bareRoot noRules onlyProgram (.ofString "agent")
      (.ofString "/repo") (.ofString "/home") = _ := ResolvedSandbox.resolve_ok directory found
  let _ : Clap := .plain
  obtain ⟨init, call, hread, hcall, -, program, arguments, -, free⟩ :=
    sandboxInit_bwrapArguments h ⟨["tmp", "beez"]⟩ ["bin", "beez"] [['-', '-'], ['ÿ']] []
  refine ⟨_, init, call, h, hread, hcall, program.trans ?_, arguments.trans ?_, ?_⟩
  · decide +kernel
  · decide +kernel
  · rw [free]
    nofun

end Beez.Sandbox
