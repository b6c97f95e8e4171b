import Beez.Daemon.Offline
import Beez.Lib.Ledger

/-! # Commands at the same time, and a daemon that starts -/

open Beez.Lib

namespace Beez.Daemon.Together

/-! ## What a command asks for -/

/-- A command, once `add` has found its manifest. -/
inductive Order where
  | add (watched : Watched)
  | remove (manifest : Typed)
  | hold (job : Text) (paused : Bool)
deriving DecidableEq, Repr

inductive Change where
  | added (path : Path)
  | removed (path : Path)
  | held (job : Text) (paused : Bool)
  /-- A daemon has dropped the state of every other job. -/
  | pruned (jobs : List Text)
deriving DecidableEq, Repr

def Change.Present (files : Files) : Change → Prop
  | .added path => ∃ registry, files.registry = .ok registry ∧ registry.watches path = true
  | .removed path => ∃ registry, files.registry = .ok registry ∧ registry.watches path = false
  | .held job paused => (files.states.get job).paused = paused
  | .pruned _ => True

def Change.Undoes : Change → Change → Prop
  | .added path, .removed path' | .removed path, .added path' => path = path'
  | .held job paused, .held job' paused' => job = job' ∧ paused ≠ paused'
  | .pruned jobs, .held job paused => paused = true ∧ job ∉ jobs
  | _, _ => False

namespace Order

def prepare (terminal : Terminal) (registry : Registry) (states : States) : Order → Prepared
  | add watched => prepareAdd terminal registry states watched
  | remove manifest => prepareRemove terminal registry manifest
  | hold job paused => prepareHold terminal registry states job paused

/-- What the order changes when it is done without a daemon. -/
def changes (terminal : Terminal) (registry : Registry) : Order → List Change
  | add watched => [.added watched.path]
  | remove manifest =>
    match removedPath terminal registry manifest with
    | .absolute path => [.removed path]
    | .relative _ => []
  | hold job paused => [.held job paused]

def handle [CronCrate] (daemon : Daemon) (host : Host) : Order → Response × Daemon
  | add watched => daemon.add host watched
  | remove manifest => daemon.removeTyped host manifest
  | hold job paused => daemon.hold host job paused

/-- What the order changes when `daemon` has done it. -/
def changesIn (daemon : Daemon) : Order → List Change
  | add watched => [.added watched.path]
  | remove (.absolute path) => [.removed path, .pruned (ids daemon.jobs)]
  | remove (.relative _) => []
  | hold job paused => [.held job paused]

end Order

/-! ## The files, the commands and the daemon -/

inductive Stage where
  | starting (command : Command)
  /-- It asks next whether a daemon listens. -/
  | probing (order : Order)
  /-- Its request waits for the daemon. -/
  | sent (order : Order)
  | loading (order : Order)
  /-- It has the list and reads the state next. -/
  | reading (order : Order) (registry : Registry)
  /-- It has read what it needs and saves next. -/
  | saving (order : Order) (registry : Registry) (states : States)
  | answered (result : Except Text Response)

inductive Service where
  | absent
  | bound
  /-- It has the list and reads the state next. -/
  | listing (registry : Registry)
  | serving (daemon : Daemon)
  | failed

namespace Service

/-- A connection to the socket succeeds. -/
def listens : Service → Bool
  | bound | listing _ | serving _ => true
  | absent | failed => false

/-- The daemon has read the file that is to be written. -/
def hasRead : Service → Write → Bool
  | listing _, .registry _ => true
  | serving _, _ => true
  | _, _ => false

end Service

structure World where
  files : Files
  service : Service
  commands : List Stage
  /-- What was answered as done, in this order. -/
  done : List Change

inductive Event where
  | begin (command : Command)
  /-- A command takes its next step, or the daemon handles its request. -/
  | act (number : Nat) (terminal : Terminal)
  /-- The daemon takes its next step. -/
  | start (host : Host) (root : Path) (limit : Nat)

namespace World

def move (world : World) (number : Nat) (stage : Stage) : World :=
  { world with commands := world.commands.set number stage }

def answer (world : World) (number : Nat) (result : Except Text Response) (changes : List Change) :
    World :=
  { world.move number (.answered result) with
    done := if succeeds result then world.done ++ changes else world.done }

def find (world : World) (number : Nat) (terminal : Terminal) : Command → World
  | .add manifest =>
    match terminal.watched manifest with
    | .error error => world.answer number (.error error) []
    | .ok (.error message) => world.answer number (.ok (.error message)) []
    | .ok (.ok watched) => world.move number (.probing (.add watched))
  | .remove manifest => world.move number (.probing (.remove manifest))
  | .pause job => world.move number (.probing (.hold job true))
  | .resume job => world.move number (.probing (.hold job false))

def load (world : World) (number : Nat) (order : Order) : World :=
  match world.files.registry with
  | .error error => world.answer number (.error error) []
  | .ok registry =>
    match order with
    -- It reads no state.
    | .remove _ => world.move number (.saving order registry ⟨[]⟩)
    | _ => world.move number (.reading order registry)

def read (world : World) (number : Nat) (terminal : Terminal) (order : Order)
    (registry : Registry) : World :=
  match terminal.loadStates world.files with
  | .error error => world.answer number (.error error) []
  | .ok states => world.move number (.saving order registry states)

def save (world : World) (number : Nat) (terminal : Terminal) (order : Order) (registry : Registry)
    (states : States) : World :=
  let (result, files) := world.files.finish terminal (order.prepare terminal registry states)
  { world with files }.answer number result (order.changes terminal registry)

section

variable [CronCrate]

def handle (world : World) (number : Nat) (terminal : Terminal) (order : Order) : World :=
  match world.service with
  | .serving daemon =>
    let (response, daemon) := order.handle { daemon with files := world.files } terminal.toHost
    World.answer { world with files := daemon.files, service := .serving daemon } number
      (.ok response) (order.changesIn daemon)
  | .bound | .listing _ => world
  | .absent | .failed => world.answer number (.error "daemon closed the connection".toList) []

/-- `run` binds the socket, and `Daemon::open` reads the list and then the state. -/
def startNext (world : World) (host : Host) (root : Path) (limit : Nat) : World :=
  match world.service with
  | .absent => { world with service := .bound }
  | .bound =>
    match world.files.registry with
    | .ok registry => { world with service := .listing registry }
    | .error _ => { world with service := .failed }
  | .listing registry =>
    match openDaemon host root limit ⟨.ok registry, world.files.states⟩ with
    | some daemon => { world with service := .serving daemon }
    | none => { world with service := .failed }
  | .serving _ | .failed => world

def step (world : World) : Event → World
  | .begin command => { world with commands := world.commands ++ [.starting command] }
  | .act number terminal =>
    match world.commands[number]? with
    | none | some (.answered _) => world
    | some (.starting command) => world.find number terminal command
    | some (.probing order) =>
      world.move number (if world.service.listens then .sent order else .loading order)
    | some (.sent order) => world.handle number terminal order
    | some (.loading order) => world.load number order
    | some (.reading order registry) => world.read number terminal order registry
    | some (.saving order registry states) => world.save number terminal order registry states
  | .start host root limit => world.startNext host root limit

end

/-- The file is as the command has read it, and no daemon has read it. -/
def Fresh (world : World) (registry : Registry) (states : States) : Prepared → Prop
  | .answer _ => True
  | .save _ (.registry written) _ =>
    world.files.registry = .ok registry ∧ world.service.hasRead (.registry written) = false
  | .save _ (.states written) _ =>
    world.files.states.reread = some states ∧ world.service.hasRead (.states written) = false

instance (world : World) (registry : Registry) (states : States) :
    (prepared : Prepared) → Decidable (world.Fresh registry states prepared)
  | .answer _ => inferInstanceAs (Decidable True)
  | .save _ (.registry _) _ => inferInstanceAs (Decidable (_ ∧ _))
  | .save _ (.states _) _ => inferInstanceAs (Decidable (_ ∧ _))

section

variable [CronCrate]

/-- A daemon that handles the request can write what it changes. -/
def Writable (world : World) (terminal : Terminal) (order : Order) : Service → Prop
  | .serving daemon =>
    terminal.registryWrite = .ok () ∧
      terminal.stateWrite (order.handle { daemon with files := world.files } terminal.toHost).2.states =
        true
  | _ => True

instance (world : World) (terminal : Terminal) (order : Order) :
    (service : Service) → Decidable (world.Writable terminal order service)
  | .serving _ => inferInstanceAs (Decidable (_ ∧ _))
  | .absent | .bound | .listing _ | .failed => inferInstanceAs (Decidable True)

def Ready (world : World) (terminal : Terminal) : Option Stage → Prop
  | some (.saving order registry states) =>
    world.Fresh registry states (order.prepare terminal registry states)
  | some (.sent order) => world.Writable terminal order world.service
  | _ => True

instance (world : World) (terminal : Terminal) :
    (stage : Option Stage) → Decidable (world.Ready terminal stage)
  | some (.saving order registry states) =>
    inferInstanceAs (Decidable (world.Fresh registry states (order.prepare terminal registry states)))
  | some (.sent order) => inferInstanceAs (Decidable (world.Writable terminal order world.service))
  | none | some (.starting _) | some (.probing _) | some (.loading _) | some (.reading ..)
  | some (.answered _) => inferInstanceAs (Decidable True)

/-- Commands save only what they have read, and the writes of the daemon succeed. -/
def Careful (world : World) : Event → Prop
  | .act number terminal => world.Ready terminal world.commands[number]?
  | _ => True

instance (world : World) : (event : Event) → Decidable (world.Careful event)
  | .act number terminal =>
    inferInstanceAs (Decidable (world.Ready terminal world.commands[number]?))
  | .begin _ | .start .. => inferInstanceAs (Decidable True)

end

/-- The change is in the files, and in the memory of the daemon that runs. -/
def Holds (world : World) (change : Change) : Prop :=
  change.Present world.files ∧
    ∀ daemon, world.service = .serving daemon → change.Present ⟨.ok daemon.registry, daemon.states⟩

end World

/-! ## What a write keeps -/

namespace Change

variable {files files' : Files} {change : Change}

theorem present_of_same (hregistry : files'.registry = files.registry)
    (hflags : ∀ job, (files'.states.get job).paused = (files.states.get job).paused)
    (h : change.Present files) : change.Present files' := by
  cases change with
  | added path | removed path =>
    unfold Present at *
    rwa [hregistry]
  | held job paused => exact (hflags job).trans h
  | pruned jobs => trivial

theorem present_add {registry : Registry} {watched : Watched}
    (hregistry : files.registry = .ok registry)
    (hadded : files'.registry = .ok (registry.add watched).2)
    (hflags : ∀ job, (files'.states.get job).paused = (files.states.get job).paused)
    (h : change.Present files) (hkeep : ¬(Change.added watched.path).Undoes change) :
    change.Present files' := by
  cases change with
  | added path =>
    obtain ⟨listed, hlisted, hwatches⟩ := h
    obtain rfl := Except.ok.inj (hregistry.symm.trans hlisted)
    refine ⟨_, hadded, Registry.watches_add.mpr ?_⟩
    by_cases heq : path = watched.path
    · exact .inr heq
    · exact .inl ⟨hwatches, heq⟩
  | removed path =>
    obtain ⟨listed, hlisted, hwatches⟩ := h
    obtain rfl := Except.ok.inj (hregistry.symm.trans hlisted)
    refine ⟨_, hadded, ?_⟩
    rw [Bool.eq_false_iff, ne_eq, Registry.watches_add]
    rintro (⟨hwatched, -⟩ | heq)
    · rw [hwatches] at hwatched
      cases hwatched
    · exact hkeep heq.symm
  | held job paused => exact (hflags job).trans h
  | pruned jobs => trivial

theorem present_remove {registry : Registry} {path : Path}
    (hregistry : files.registry = .ok registry)
    (hremoved : files'.registry = .ok (registry.remove path).2)
    (hflags : ∀ job, (files'.states.get job).paused = (files.states.get job).paused)
    (h : change.Present files) (hkeep : ¬(Change.removed path).Undoes change) :
    change.Present files' := by
  cases change with
  | added other =>
    obtain ⟨listed, hlisted, hwatches⟩ := h
    obtain rfl := Except.ok.inj (hregistry.symm.trans hlisted)
    exact ⟨_, hremoved, Registry.watches_remove.mpr ⟨hwatches, fun heq => hkeep heq.symm⟩⟩
  | removed other =>
    obtain ⟨listed, hlisted, hwatches⟩ := h
    obtain rfl := Except.ok.inj (hregistry.symm.trans hlisted)
    refine ⟨_, hremoved, ?_⟩
    rw [Bool.eq_false_iff, ne_eq, Registry.watches_remove]
    rintro ⟨hwatched, -⟩
    rw [hwatches] at hwatched
    cases hwatched
  | held job paused => exact (hflags job).trans h
  | pruned jobs => trivial

theorem present_hold {id : Text} {paused : Bool} (hregistry : files'.registry = files.registry)
    (hflags : ∀ job, (files'.states.get job).paused =
      if job = id then paused else (files.states.get job).paused)
    (h : change.Present files) (hkeep : ¬(Change.held id paused).Undoes change) :
    change.Present files' := by
  cases change with
  | added path | removed path =>
    unfold Present at *
    rwa [hregistry]
  | held job held =>
    refine (hflags job).trans ?_
    split
    · next heq =>
      by_contra hne
      exact hkeep ⟨heq.symm, hne⟩
    · exact h
  | pruned jobs => trivial

theorem present_prune {jobs : List Text} (hregistry : files'.registry = files.registry)
    (hflags : ∀ job, (files'.states.get job).paused =
      (decide (job ∈ jobs) && (files.states.get job).paused))
    (h : change.Present files) (hkeep : ¬(Change.pruned jobs).Undoes change) :
    change.Present files' := by
  cases change with
  | added path | removed path =>
    unfold Present at *
    rwa [hregistry]
  | held job paused =>
    refine (hflags job).trans ?_
    rw [show (files.states.get job).paused = paused from h]
    cases paused with
    | false => exact Bool.and_false _
    | true =>
      rw [Bool.and_true, decide_eq_true_eq]
      by_contra hgone
      exact hkeep ⟨rfl, hgone⟩
  | pruned jobs => trivial

end Change

/-! ## What a step keeps -/

namespace World

/-- What stands in the ledger is in the files, and what the daemon has read is still there. -/
structure Sound (world : World) : Prop where
  present : ∀ change, Stands Change.Undoes world.done change → change.Present world.files
  listing : ∀ registry, world.service = .listing registry → world.files.registry = .ok registry
  serving : ∀ daemon, world.service = .serving daemon →
    Daemon.InStep { daemon with files := world.files }

variable {world world' : World} {number : Nat} {terminal : Terminal}

theorem Sound.of_same (sound : world.Sound) (hfiles : world'.files = world.files)
    (hservice : world'.service = world.service) (hdone : world'.done = world.done) :
    world'.Sound := by
  refine ⟨?_, ?_, ?_⟩
  · rw [hdone, hfiles]
    exact sound.present
  · rw [hservice, hfiles]
    exact sound.listing
  · rw [hservice, hfiles]
    exact sound.serving

theorem Sound.answer (sound : world.Sound) {result : Except Text Response}
    (hresult : succeeds result = false) (changes : List Change) :
    (world.answer number result changes).Sound := by
  refine sound.of_same rfl rfl ?_
  simp [World.answer, World.move, hresult]

theorem Sound.find (sound : world.Sound) (command : Command) :
    (world.find number terminal command).Sound := by
  unfold World.find
  cases command with
  | add manifest =>
    dsimp only
    split
    · exact sound.answer rfl _
    · exact sound.answer rfl _
    · exact sound.of_same rfl rfl rfl
  | _ => exact sound.of_same rfl rfl rfl

theorem Sound.load (sound : world.Sound) (order : Order) : (world.load number order).Sound := by
  unfold World.load
  split
  · exact sound.answer rfl _
  · split <;> exact sound.of_same rfl rfl rfl

theorem Sound.read (sound : world.Sound) (order : Order) (registry : Registry) :
    (world.read number terminal order registry).Sound := by
  unfold World.read
  split
  · exact sound.answer rfl _
  · exact sound.of_same rfl rfl rfl

theorem Sound.holds (sound : world.Sound) {change : Change}
    (stands : Stands Change.Undoes world.done change) : world.Holds change := by
  refine ⟨sound.present change stands, ?_⟩
  intro daemon hserving
  have inStep := sound.serving daemon hserving
  refine Change.present_of_same inStep.written.symm ?_ (sound.present change stands)
  intro job
  exact (inStep.saved job).symm

theorem finish_cases (files : Files) (terminal : Terminal) (creates : Bool) (write : Write)
    (message : Text) :
    (∃ error, files.finish terminal (.save creates write message) = (.error error, files)) ∨
      files.finish terminal (.save creates write message) =
        (.ok (.done message), files.write write) := by
  unfold Files.finish
  dsimp only
  split
  · exact .inl ⟨_, rfl⟩
  · split
    · exact .inl ⟨_, rfl⟩
    · exact .inr rfl

theorem Sound.saved (sound : world.Sound) {order : Order} {registry : Registry} {states : States}
    {creates : Bool} {write : Write} {message : Text} {new : Change}
    (hprepare : order.prepare terminal registry states = .save creates write message)
    (hchanges : order.changes terminal registry = [new])
    (hread : world.service.hasRead write = false) (start : new.Present (world.files.write write))
    (keep : ∀ change : Change, change.Present world.files → ¬new.Undoes change →
      change.Present (world.files.write write)) :
    (world.save number terminal order registry states).Sound := by
  unfold World.save
  rw [hprepare, hchanges]
  rcases finish_cases world.files terminal creates write message with ⟨error, hfinish⟩ | hfinish
  · rw [hfinish]
    exact sound.answer rfl _
  · rw [hfinish]
    refine ⟨stands_keep sound.present start keep, ?_, ?_⟩
    · intro listed hlisted
      have hservice : world.service = .listing listed := hlisted
      rw [hservice] at hread
      cases write with
      | registry written => cases hread
      | states written => exact sound.listing listed hservice
    · intro daemon hserving
      have hservice : world.service = .serving daemon := hserving
      rw [hservice] at hread
      cases write <;> cases hread

theorem Sound.refused (sound : world.Sound) {order : Order} {registry : Registry} {states : States}
    {message : Text} (hprepare : order.prepare terminal registry states = .answer (.error message)) :
    (world.save number terminal order registry states).Sound := by
  unfold World.save
  rw [hprepare]
  exact sound.answer rfl _

theorem Sound.save (sound : world.Sound) {order : Order} {registry : Registry} {states : States}
    (fresh : world.Fresh registry states (order.prepare terminal registry states)) :
    (world.save number terminal order registry states).Sound := by
  cases order with
  | add watched =>
    rcases prepareAdd_cases terminal registry states watched with
      ⟨-, message, hprepare⟩ | ⟨-, message, hprepare⟩
    · rw [Order.prepare, hprepare] at fresh
      refine sound.saved hprepare rfl fresh.2 ?_ ?_
      · exact ⟨_, rfl, Registry.watches_add.mpr (.inr rfl)⟩
      · intro change h hkeep
        exact Change.present_add fresh.1 rfl (fun _ => rfl) h hkeep
    · exact sound.refused hprepare
  | remove manifest =>
    rcases prepareRemove_cases terminal registry manifest with
      ⟨path, message, hpath, -, hprepare⟩ | ⟨-, message, hprepare⟩
    · rw [Order.prepare, hprepare] at fresh
      have hchanges : Order.changes terminal registry (.remove manifest) = [.removed path] := by
        rw [Order.changes, hpath]
      refine sound.saved hprepare hchanges fresh.2 ?_ ?_
      · exact ⟨_, rfl, Registry.not_watches_remove⟩
      · intro change h hkeep
        exact Change.present_remove fresh.1 rfl (fun _ => rfl) h hkeep
    · exact sound.refused hprepare
  | hold id paused =>
    rcases prepareHold_cases terminal registry states id paused with
      ⟨-, message, hprepare⟩ | ⟨-, message, hprepare⟩
    · rw [Order.prepare, hprepare] at fresh
      have hflags : ∀ job, ((states.set id { states.get id with paused }).get job).paused =
          if job = id then paused else (world.files.states.get job).paused := by
        intro job
        rw [States.get_set]
        split
        · rfl
        · exact JobState.reread_paused (States.get_reread fresh.1 job)
      refine sound.saved hprepare rfl fresh.2 ?_ ?_
      · exact (hflags id).trans (if_pos rfl)
      · intro change h hkeep
        exact @Change.present_hold world.files _ change id paused rfl hflags h hkeep
    · exact sound.refused hprepare

/-- First the list is written, and then the states of the jobs that are gone are dropped. -/
theorem present_removed {daemon : Daemon} {host : Host} {path : Path} {done : List Change}
    (present : ∀ change, Stands Change.Undoes done change → change.Present daemon.files)
    (inStep : daemon.InStep) (removed : (daemon.removed host path).InStep) (change : Change)
    (stands : Stands Change.Undoes
      ((done ++ [.removed path]) ++ [.pruned (ids (daemon.removed host path).jobs)]) change) :
    change.Present (daemon.removed host path).files := by
  have written : ∀ change, Stands Change.Undoes (done ++ [.removed path]) change →
      change.Present ⟨.ok (daemon.registry.remove path).2, daemon.files.states⟩ := by
    refine stands_keep present ?_ ?_
    · exact ⟨_, rfl, Registry.not_watches_remove⟩
    · intro change h hkeep
      exact Change.present_remove inStep.written rfl (fun _ => rfl) h hkeep
  refine stands_keep written trivial ?_ change stands
  intro change h hkeep
  refine @Change.present_prune ⟨.ok (daemon.registry.remove path).2, daemon.files.states⟩ _ change
    (ids (daemon.removed host path).jobs) rfl ?_ h hkeep
  intro job
  calc ((daemon.removed host path).files.states.get job).paused
      = ((daemon.removed host path).states.get job).paused := removed.saved job
    _ = (decide (job ∈ ids (daemon.removed host path).jobs) && (daemon.states.get job).paused) :=
      States.keepOnly_paused _ _ job
    _ = (decide (job ∈ ids (daemon.removed host path).jobs) &&
        (daemon.files.states.get job).paused) := by rw [inStep.saved]

section

variable [CronCrate]

theorem sound_of_handled {daemon after : Daemon} {order : Order} {message : Text}
    (hserving : world.service = .serving daemon)
    (hhandle : order.handle { daemon with files := world.files } terminal.toHost =
      (.done message, after)) (inStep : after.InStep)
    (present : ∀ change, Stands Change.Undoes (world.done ++ order.changesIn after) change →
      change.Present after.files) : (world.handle number terminal order).Sound := by
  unfold World.handle
  simp only [hserving, hhandle]
  refine ⟨present, ?_, ?_⟩
  · intro listed hlisted
    cases hlisted
  · intro served hserved
    cases hserved
    exact ⟨inStep.written, inStep.saved⟩

theorem Sound.unhandled (sound : world.Sound) {daemon : Daemon} {order : Order} {message : Text}
    (hserving : world.service = .serving daemon)
    (hhandle : order.handle { daemon with files := world.files } terminal.toHost =
      (.error message, { daemon with files := world.files })) :
    (world.handle number terminal order).Sound := by
  unfold World.handle
  simp only [hserving, hhandle]
  refine ⟨sound.present, ?_, ?_⟩
  · intro listed hlisted
    cases hlisted
  · intro served hserved
    cases hserved
    exact sound.serving daemon hserving

/-! ### One order -/

theorem Sound.add (sound : world.Sound) {daemon : Daemon} (hserving : world.service = .serving daemon)
    {watched : Watched} (writable : world.Writable terminal (.add watched) (.serving daemon)) :
    (world.handle number terminal (.add watched)).Sound := by
  have inStep := sound.serving daemon hserving
  rcases add_cases writable.1 watched with ⟨names, message, -, hadd⟩ | ⟨error, -, hadd⟩
  · refine sound_of_handled hserving hadd (inStep.added watched) ?_
    refine stands_keep sound.present ?_ ?_
    · exact ⟨_, rfl, Registry.watches_add.mpr (.inr rfl)⟩
    · intro change h hkeep
      exact Change.present_add inStep.written rfl (fun _ => rfl) h hkeep
  · exact sound.unhandled hserving hadd

theorem Sound.remove (sound : world.Sound) {daemon : Daemon}
    (hserving : world.service = .serving daemon) {manifest : Typed}
    (writable : world.Writable terminal (.remove manifest) (.serving daemon)) :
    (world.handle number terminal (.remove manifest)).Sound := by
  obtain ⟨writes, saves⟩ := writable
  cases manifest with
  | relative names => exact sound.unhandled hserving rfl
  | absolute path =>
    rcases remove_cases writes path with ⟨-, message, hremove⟩ | ⟨-, message, hremove⟩
    · rw [Order.handle, removeTyped, hremove] at saves
      have removed := InStep.removed saves
      refine sound_of_handled hserving hremove removed ?_
      have hchanges : ∀ after, world.done ++ Order.changesIn after (.remove (.absolute path)) =
          (world.done ++ [.removed path]) ++ [.pruned (ids after.jobs)] := by
        simp [Order.changesIn]
      rw [hchanges]
      exact present_removed sound.present (sound.serving daemon hserving) removed
    · exact sound.unhandled hserving hremove

theorem Sound.hold (sound : world.Sound) {daemon : Daemon}
    (hserving : world.service = .serving daemon) {id : Text} {paused : Bool}
    (writable : world.Writable terminal (.hold id paused) (.serving daemon)) :
    (world.handle number terminal (.hold id paused)).Sound := by
  have inStep := sound.serving daemon hserving
  obtain ⟨-, saves⟩ := writable
  rcases hold_cases id paused with ⟨index, job, -, rfl, hhold⟩ | ⟨-, hhold⟩
  · rw [Order.handle, hhold] at saves
    have held := inStep.heldAt saves
    refine sound_of_handled hserving hhold held ?_
    have hflags : ∀ other, ((Daemon.heldAt { daemon with files := world.files }
        terminal.toHost index job paused).files.states.get other).paused =
          if other = job.id then paused else (world.files.states.get other).paused := by
      intro other
      rw [held.saved, heldAt_paused, ← inStep.saved]
    refine stands_keep sound.present ?_ ?_
    · exact (hflags job.id).trans (if_pos rfl)
    · intro change h hkeep
      exact @Change.present_hold world.files _ change job.id paused rfl hflags h hkeep
  · exact sound.unhandled hserving hhold

theorem Sound.handle (sound : world.Sound) {order : Order}
    (writable : world.Writable terminal order world.service) :
    (world.handle number terminal order).Sound := by
  cases hserving : world.service with
  | absent | failed =>
    unfold World.handle
    simp only [hserving]
    exact sound.answer rfl _
  | bound | listing listed =>
    unfold World.handle
    simp only [hserving]
    exact sound
  | serving daemon =>
    rw [hserving] at writable
    cases order with
    | add watched => exact sound.add hserving writable
    | remove manifest => exact sound.remove hserving writable
    | hold id paused => exact sound.hold hserving writable

theorem Sound.startNext (sound : world.Sound) (host : Host) (root : Path) (limit : Nat) :
    (world.startNext host root limit).Sound := by
  unfold World.startNext
  split
  · exact ⟨sound.present, by simp, by simp⟩
  · split
    · next registry hregistry =>
      refine ⟨sound.present, ?_, by simp⟩
      intro listed hlisted
      cases hlisted
      exact hregistry
    · exact ⟨sound.present, by simp, by simp⟩
  · next registry hservice =>
    have hregistry := sound.listing registry hservice
    split
    · next daemon opened =>
      obtain ⟨inStep, hfiles⟩ := openDaemon_inStep opened
      refine ⟨sound.present, by simp, ?_⟩
      intro served hserved
      cases hserved
      refine ⟨?_, fun job => ?_⟩
      · have := inStep.written
        rw [hfiles] at this
        exact hregistry.trans this
      · have := inStep.saved job
        rwa [hfiles] at this
    · exact ⟨sound.present, by simp, by simp⟩
  · exact sound
  · exact sound

theorem Sound.step (sound : world.Sound) {event : Event} (careful : world.Careful event) :
    (world.step event).Sound := by
  cases event with
  | begin command => exact sound.of_same rfl rfl rfl
  | start host root limit => exact sound.startNext host root limit
  | act number terminal =>
    unfold World.step
    unfold Careful at careful
    dsimp only at careful ⊢
    cases hstage : world.commands[number]? with
    | none => exact sound
    | some stage =>
      rw [hstage] at careful
      cases stage with
      | starting command => exact sound.find command
      | probing order => exact sound.of_same rfl rfl rfl
      | sent order => exact sound.handle careful
      | loading order => exact sound.load order
      | reading order registry => exact sound.read order registry
      | saving order registry states => exact sound.save careful
      | answered result => exact sound

/-- A change that was answered as done stays until a later one undoes it. -/
theorem changes_stay (files : Files) (events : List Event)
    (careful : Along step Careful ⟨files, .absent, [], []⟩ events) (change : Change)
    (stands : Stands Change.Undoes (runAll step ⟨files, .absent, [], []⟩ events).done change) :
    (runAll step ⟨files, .absent, [], []⟩ events).Holds change := by
  have start : Sound ⟨files, .absent, [], []⟩ := by
    refine ⟨?_, by simp, by simp⟩
    intro change h
    exact absurd h not_stands_nil
  have sound : (runAll step ⟨files, .absent, [], []⟩ events).Sound :=
    runAll_invariant (fun _ _ sound careful => sound.step careful) start careful
  exact sound.holds stands

end

def empty : World := ⟨⟨.ok ⟨[]⟩, ⟨[]⟩⟩, .absent, [], []⟩

def addIn (name : String) : Command := .add (.relative [name])

def inTurn (first second : Command) (steps : Nat) : List Event :=
  .begin first :: .begin second ::
    (List.replicate steps [.act 0 Pair.terminalA, .act 1 Pair.terminalA]).flatten

/-- One command adds a manifest while another one pauses the job of a manifest that is there, and
then a daemon starts. -/
def addAndPause : List Event :=
  inTurn (addIn "weekly.yaml") (.pause "nightly".toList) 5 ++
    List.replicate 3 (.start Pair.terminalA.toHost ["root"] 2)

theorem changes_stay_apart :
    (runAll (@step .unused) ⟨⟨.ok twoNightly, ⟨[]⟩⟩, .absent, [], []⟩ addAndPause).Holds
      (.held "nightly".toList true) := by
  refine @changes_stay .unused ⟨.ok twoNightly, ⟨[]⟩⟩ addAndPause ?_ _ ?_
  · decide +kernel
  · refine ⟨[.added ["a", "weekly.yaml"]], [], ?_, by simp⟩
    decide +kernel

/-- Two commands add a manifest at the same time, and the first one's is lost. -/
theorem add_lost :
    Stands Change.Undoes
      (runAll (@step .unused) empty (inTurn (addIn "nightly.yaml") (addIn "weekly.yaml") 5)).done
      (.added ["a", "nightly.yaml"]) ∧
    ¬(runAll (@step .unused) empty
      (inTurn (addIn "nightly.yaml") (addIn "weekly.yaml") 5)).Holds (.added ["a", "nightly.yaml"]) := by
  constructor
  · refine ⟨[], [.added ["a", "weekly.yaml"]], ?_, ?_⟩
    · decide +kernel
    · simp [Change.Undoes]
  · rintro ⟨⟨registry, hregistry, hwatches⟩, -⟩
    have hlast : (runAll (@step .unused) empty
        (inTurn (addIn "nightly.yaml") (addIn "weekly.yaml") 5)).files.registry =
          .ok ⟨[⟨["a", "weekly.yaml"], ["a"]⟩]⟩ := by decide +kernel
    rw [hlast] at hregistry
    cases hregistry
    revert hwatches
    decide

end World

end Beez.Daemon.Together
