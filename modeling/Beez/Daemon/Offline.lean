import Beez.Daemon.Listed

/-! # The same commands, with an idle daemon and without -/

open Beez.Lib

namespace Beez.Daemon

/-! ## Commands on the files -/

structure Terminal.Writes (terminal : Terminal) : Prop where
  create : terminal.create = .ok ()
  registry : terminal.registryWrite = .ok ()
  states : ∀ states, terminal.stateWrite states = true

section

variable (terminal : Terminal) (registry : Registry) (states : States)

theorem prepareAdd_cases (watched : Watched) :
    (registry.Admits terminal.load watched ∧ ∃ message,
      prepareAdd terminal registry states watched =
        .save true (.registry (registry.add watched).2) message) ∨
    (¬registry.Admits terminal.load watched ∧ ∃ message,
      prepareAdd terminal registry states watched = .answer (.error message)) := by
  have hothers : ∀ id, id ∈ (registry.manifests.filter (·.path ≠ watched.path)).flatMap (fun other =>
      ids (jobsOf terminal.load other states)) ↔
        ∃ path, path ≠ watched.path ∧ registry.Gives terminal.load (path, id) := by
    intro id
    simp only [ids_jobsOf_eq, List.mem_flatMap, List.mem_filter, decide_eq_true_eq, Registry.Gives,
      Registry.watches_iff]
    constructor
    · rintro ⟨other, ⟨hmem, hne⟩, hid⟩
      exact ⟨other.path, hne, ⟨other, hmem, rfl⟩, hid⟩
    · rintro ⟨_, hne, ⟨other, hmem, rfl⟩, hid⟩
      exact ⟨other, ⟨hmem, hne⟩, hid⟩
  unfold prepareAdd
  rcases admitJobs_iff states hothers with ⟨admits, hnames⟩ | ⟨refused, error, herror⟩
  · refine .inl ⟨admits, ?_⟩
    simp only [hnames]
    exact ⟨_, rfl⟩
  · refine .inr ⟨refused, error, ?_⟩
    simp only [herror]

theorem prepareHold_cases (id : Text) (paused : Bool) :
    ((∃ path, registry.Gives terminal.load (path, id)) ∧ ∃ message,
      prepareHold terminal registry states id paused =
        .save true (.states (states.set id { states.get id with paused })) message) ∨
    ((¬∃ path, registry.Gives terminal.load (path, id)) ∧ ∃ message,
      prepareHold terminal registry states id paused = .answer (.error message)) := by
  have hfound : (build terminal.load terminal.modified registry states).2.any (·.id = id) = true ↔
      ∃ path, registry.Gives terminal.load (path, id) := by
    simp only [← @mem_places_build terminal.load states _ _ terminal.modified, ← mem_ids_iff]
    simp [ids]
  unfold prepareHold
  by_cases h : (build terminal.load terminal.modified registry states).2.any (·.id = id) = true
  · rw [if_pos h]
    exact .inl ⟨hfound.mp h, _, rfl⟩
  · rw [if_neg h]
    exact .inr ⟨fun hgives => h (hfound.mpr hgives), _, rfl⟩

theorem prepareRemove_cases (manifest : Typed) :
    (∃ path message, removedPath terminal registry manifest = .absolute path ∧
      registry.watches path = true ∧ prepareRemove terminal registry manifest =
        .save false (.registry (registry.remove path).2) message) ∨
    (registry.watchesTyped (removedPath terminal registry manifest) = false ∧ ∃ message,
      prepareRemove terminal registry manifest = .answer (.error message)) := by
  unfold prepareRemove
  generalize removedPath terminal registry manifest = typed
  cases typed with
  | relative names => exact .inr ⟨rfl, _, rfl⟩
  | absolute path =>
    simp only [Registry.removeTyped, Registry.watchesTyped, Typed.absolute.injEq]
    cases hwatches : registry.watches path with
    | false =>
      rw [Registry.remove_of_not_watches hwatches]
      exact .inr ⟨rfl, _, rfl⟩
    | true =>
      refine .inl ⟨path, ?_⟩
      have hremoved := (registry.remove_fst path).trans hwatches
      rw [← Prod.mk.eta (p := registry.remove path), hremoved]
      exact ⟨_, rfl, hwatches, rfl⟩

end

theorem removedPath_eq {terminal : Terminal} {registry : Registry} {manifest : Typed}
    (named : ∀ path, terminal.canonicalize manifest = .ok path → registry.watches path = true →
      manifest = .absolute path) : removedPath terminal registry manifest = manifest := by
  unfold removedPath
  cases hpath : terminal.canonicalize manifest with
  | error error => exact ite_self manifest
  | ok path =>
    by_cases hwatches : registry.watches path = true
    · simp [Registry.watchesTyped, hwatches, named path hpath hwatches]
    · simp [Registry.watchesTyped, hwatches]

theorem removedPath_of_watches {terminal : Terminal} {registry : Registry} {manifest : Typed}
    {path : Path} (hpath : terminal.canonicalize manifest = .ok path)
    (hwatches : registry.watches path = true) :
    removedPath terminal registry manifest = .absolute path := by
  unfold removedPath
  simp [hpath, Registry.watchesTyped, hwatches]

section

variable {terminal : Terminal} {files : Files} {registry : Registry}

theorem command_hold {states : States}
    (hregistry : files.registry = .ok registry) (hstates : files.states.reread = some states)
    (id : Text) (paused : Bool) : files.command terminal (.hold id paused) =
      files.finish terminal (prepareHold terminal registry states id paused) := by
  cases paused <;>
    simp [Files.command, Files.prepare, Command.hold, Terminal.loadStates, hregistry, hstates, bind,
      Except.bind, pure, Except.pure]

theorem Files.finish_save (writes : terminal.Writes) (creates : Bool) (write : Write)
    (message : Text) : files.finish terminal (.save creates write message) =
      (.ok (.done message), files.write write) := by
  have hsaves : terminal.saves write = .ok () := by
    cases write with
    | registry registry => exact writes.registry
    | states states => simp [Terminal.saves, writes.states]
  unfold Files.finish
  simp only [writes.create, hsaves, ite_self]

theorem command_remove (hregistry : files.registry = .ok registry) (manifest : Typed) :
    files.command terminal (.remove manifest) =
      files.finish terminal (prepareRemove terminal registry manifest) := by
  simp [Files.command, Files.prepare, hregistry, bind, Except.bind, pure, Except.pure]

theorem files_remove {manifest : Typed} {path : Path}
    (writes : terminal.Writes) (hregistry : files.registry = .ok registry)
    (hpath : removedPath terminal registry manifest = .absolute path)
    (hwatches : registry.watches path = true) :
    ∃ message, files.command terminal (.remove manifest) =
      (.ok (.done message), files.write (.registry (registry.remove path).2)) := by
  rw [command_remove hregistry]
  rcases prepareRemove_cases terminal registry manifest with
    ⟨path', message, hpath', -, hprepare⟩ | ⟨habsent, -⟩
  · rw [hpath] at hpath'
    cases hpath'
    exact ⟨message, by rw [hprepare, Files.finish_save writes]⟩
  · rw [hpath, Registry.watchesTyped, hwatches] at habsent
    cases habsent

end

/-! ## Both ways side by side -/

/-- A daemon with its own files, and the files of a root with no daemon. -/
structure Pair where
  daemon : Daemon
  files : Files

inductive Turn where
  /-- The timer of the daemon passes over its jobs. -/
  | pass (now : Int)
  | command (now : Int) (command : Command)

def Terminal.onClock (terminal : Terminal) (now : Int) : Terminal := { terminal with now }

namespace Pair

/-- The same list of manifests, and the same paused flag for every job. -/
def Same (pair : Pair) : Prop :=
  pair.daemon.files.registry = pair.files.registry ∧
    ∀ job, (pair.daemon.files.states.get job).paused = (pair.files.states.get job).paused

/-- The list and the flags of the files are those in the memory of the daemon. -/
structure Alike (load : Path → Except Text Manifest) (pair : Pair) : Prop where
  listed : pair.daemon.Listed load
  found : pair.files.registry = .ok pair.daemon.registry
  flags : ∀ job, (pair.files.states.get job).paused = (pair.daemon.states.get job).paused
  readable : ∃ states, pair.files.states.reread = some states

theorem Alike.same {load : Path → Except Text Manifest} {pair : Pair} (alike : pair.Alike load) :
    pair.Same :=
  ⟨alike.listed.written.trans alike.found.symm,
    fun job => (alike.listed.saved job).trans (alike.flags job).symm⟩

section

variable [CronCrate]

def take (terminal : Terminal) (pair : Pair) : Turn → Pair
  | .pass now => { pair with daemon := pair.daemon.take (.pass (terminal.onClock now).toHost) }
  | .command now command =>
    ⟨(pair.daemon.receive (terminal.onClock now) command).2,
      (pair.files.command (terminal.onClock now) command).2⟩

/-- The daemon has nothing to do when its timer passes. -/
def Idle (terminal : Terminal) (pair : Pair) : Turn → Prop
  | .pass now => (pair.daemon.rescan (terminal.onClock now).toHost).due now = []
  | .command .. => True

/-- Both answer success or neither, and leave the same behind. -/
def Agrees (terminal : Terminal) (pair : Pair) (turn : Turn) : Prop :=
  (pair.take terminal turn).Same ∧
    match turn with
    | .pass _ => True
    | .command now command =>
      succeeds (pair.daemon.receive (terminal.onClock now) command).1 =
        succeeds (pair.files.command (terminal.onClock now) command).1

/-- A manifest that `remove` finds is named by the path it is watched under, and every paused job
is a job of another one. -/
def Settled (terminal : Terminal) (pair : Pair) : Turn → Prop
  | .command _ (.remove manifest) =>
    (∀ path, terminal.canonicalize manifest = .ok path →
      pair.daemon.registry.watches path = true → manifest = .absolute path) ∧
    ∀ path, manifest = .absolute path → pair.daemon.registry.watches path = true →
      ∀ job, (pair.daemon.states.get job).paused = true →
        job ∈ ids (pair.daemon.jobs.filter (·.manifest ≠ path))
  | _ => True

variable {terminal : Terminal} {pair : Pair}

theorem Alike.pass (alike : pair.Alike terminal.load) {now : Int}
    (idle : pair.Idle terminal (.pass now)) : (pair.take terminal (.pass now)).Alike terminal.load := by
  have hfire : (pair.daemon.rescan (terminal.onClock now).toHost).fireDue
      (terminal.onClock now).toHost = pair.daemon.rescan (terminal.onClock now).toHost := by
    unfold fireDue
    split
    · rfl
    · have hdue : (pair.daemon.rescan (terminal.onClock now).toHost).due now = [] := idle
      rw [show (terminal.onClock now).now = now from rfl, hdue]
      rfl
  obtain ⟨listed, hregistry, hstates⟩ :=
    Listed.rescanned (terminal.onClock now).toHost alike.listed
  simp only [take, Daemon.take, hfire]
  refine ⟨⟨⟨listed.written, listed.saved⟩, listed.places, listed.watched⟩, ?_, ?_, alike.readable⟩
  · exact alike.found.trans (congrArg Except.ok hregistry.symm)
  · intro job
    rw [alike.flags job]
    exact congrArg (fun states : States => (states.get job).paused) hstates.symm

def Ends (load : Path → Except Text Manifest) (daemon : Except Text Response × Daemon)
    (files : Except Text Response × Files) : Prop :=
  Alike load ⟨daemon.2, files.2⟩ ∧ succeeds daemon.1 = succeeds files.1

theorem Alike.add (alike : pair.Alike terminal.load) (writes : terminal.Writes) (manifest : Typed) :
    Ends terminal.load (pair.daemon.receive terminal (.add manifest))
      (pair.files.command terminal (.add manifest)) := by
  obtain ⟨states, hstates⟩ := alike.readable
  unfold receive Files.command Files.prepare
  cases hwatched : terminal.watched manifest with
  | error error =>
    simp only [hwatched, bind, Except.bind]
    exact ⟨alike, rfl⟩
  | ok found =>
    cases found with
    | error message =>
      simp only [hwatched, bind, Except.bind, pure, Except.pure]
      exact ⟨alike, rfl⟩
    | ok watched =>
      simp only [hwatched, Terminal.loadStates, hstates, alike.found, bind, Except.bind, pure, Except.pure,
        Daemon.command]
      rcases prepareAdd_cases terminal pair.daemon.registry states watched with
        ⟨admits, added, hprepare⟩ | ⟨refused, message, hprepare⟩
      · rcases alike.listed.add writes.registry watched with
          ⟨-, message, after, hadd, listed, hregistry, hsame⟩ | ⟨hrefused, -⟩
        · rw [hprepare, Files.finish_save writes, hadd]
          refine ⟨⟨listed, congrArg Except.ok hregistry.symm, ?_, alike.readable⟩, rfl⟩
          intro job
          rw [hsame]
          exact alike.flags job
        · exact absurd admits hrefused
      · rcases alike.listed.add writes.registry watched with ⟨admits, -⟩ | ⟨-, message', hadd⟩
        · exact absurd admits refused
        · rw [hprepare, hadd]
          exact ⟨alike, rfl⟩

theorem receive_hold (daemon : Daemon) (id : Text) (paused : Bool) :
    daemon.receive terminal (.hold id paused) =
      (.ok (daemon.hold terminal.toHost id paused).1, (daemon.hold terminal.toHost id paused).2) := by
  cases paused <;> rfl

theorem Alike.hold (alike : pair.Alike terminal.load) (writes : terminal.Writes) (id : Text)
    (paused : Bool) : Ends terminal.load (pair.daemon.receive terminal (.hold id paused))
      (pair.files.command terminal (.hold id paused)) := by
  obtain ⟨states, hstates⟩ := alike.readable
  have hwhole := States.whole_of_reread hstates
  rw [receive_hold, command_hold alike.found hstates]
  rcases prepareHold_cases terminal pair.daemon.registry states id paused with
    ⟨given, message, hprepare⟩ | ⟨absent, message, hprepare⟩
  · rcases alike.listed.hold writes.states id paused with
      ⟨-, message', after, hhold, listed, hregistry, hflags⟩ | ⟨absent, -⟩
    · rw [hprepare, Files.finish_save writes, hhold]
      refine ⟨⟨listed, ?_, ?_, ?_⟩, rfl⟩
      · exact alike.found.trans (congrArg Except.ok hregistry.symm)
      · intro job
        rw [hflags]
        simp only [Files.write, States.get_set]
        split
        · rfl
        · rw [← alike.flags job]
          exact JobState.reread_paused (States.get_reread hstates job)
      · exact ⟨_, States.reread_of_whole (hwhole.set (JobState.reread_held (hwhole.get id) paused))⟩
    · exact absurd given absent
  · rcases alike.listed.hold writes.states id paused with ⟨given, -⟩ | ⟨-, message', hhold⟩
    · exact absurd given absent
    · rw [hprepare, hhold]
      exact ⟨alike, rfl⟩

/-! ### Removing a manifest -/

theorem Alike.remove (alike : pair.Alike terminal.load) (writes : terminal.Writes)
    {manifest : Typed} {now : Int}
    (settled : pair.Settled terminal (.command now (.remove manifest))) :
    Ends terminal.load (pair.daemon.receive terminal (.remove manifest))
      (pair.files.command terminal (.remove manifest)) := by
  obtain ⟨named, left⟩ := settled
  rw [command_remove alike.found]
  rcases prepareRemove_cases terminal pair.daemon.registry manifest with
    ⟨path, message, hpath, hwatches, hprepare⟩ | ⟨habsent, message, hprepare⟩
  · rw [removedPath_eq named] at hpath
    subst hpath
    rcases alike.listed.remove writes.registry writes.states path with
      ⟨-, message', after, hremove, listed, hregistry, hstates⟩ | ⟨habsent, -⟩
    · rw [hprepare, Files.finish_save writes, receive, removeTyped, hremove]
      refine ⟨⟨listed, congrArg Except.ok hregistry.symm, ?_, alike.readable⟩, rfl⟩
      intro job
      rw [hstates, States.keepOnly_paused_iff.mpr (left path rfl hwatches)]
      exact alike.flags job
    · rw [hwatches] at habsent
      cases habsent
  · rw [removedPath_eq named] at habsent
    rw [hprepare]
    cases manifest with
    | relative names => exact ⟨alike, rfl⟩
    | absolute path =>
      rcases alike.listed.remove writes.registry writes.states path with
        ⟨hwatches, -⟩ | ⟨-, error, hremove⟩
      · rw [Registry.watchesTyped, hwatches] at habsent
        cases habsent
      · rw [receive, removeTyped, hremove]
        exact ⟨alike, rfl⟩

theorem Alike.settled_of_remove (alike : pair.Alike terminal.load) (writes : terminal.Writes)
    {manifest : Typed} {now : Int}
    (same : Same ⟨(pair.daemon.receive terminal (.remove manifest)).2,
      (pair.files.command terminal (.remove manifest)).2⟩)
    (answers : succeeds (pair.daemon.receive terminal (.remove manifest)).1 =
      succeeds (pair.files.command terminal (.remove manifest)).1) :
    pair.Settled terminal (.command now (.remove manifest)) := by
  have named : ∀ path, terminal.canonicalize manifest = .ok path →
      pair.daemon.registry.watches path = true → manifest = .absolute path := by
    intro path hpath hwatches
    obtain ⟨message, hfiles⟩ := files_remove writes alike.found
      (removedPath_of_watches hpath hwatches) hwatches
    rw [hfiles] at same answers
    cases manifest with
    | relative names => cases answers
    | absolute typed =>
      rcases alike.listed.remove writes.registry writes.states typed with
        ⟨-, message', after, hremove, listed, hregistry, -⟩ | ⟨-, error, hremove⟩
      · by_contra hne
        have hlist : (pair.daemon.registry.remove typed).2 = (pair.daemon.registry.remove path).2 := by
          have := same.1
          rw [receive, removeTyped, hremove] at this
          exact hregistry ▸ Except.ok.inj (listed.written.symm.trans this)
        have hkept : (pair.daemon.registry.remove typed).2.watches path = true :=
          Registry.watches_remove.mpr ⟨hwatches, fun heq => hne (by rw [heq])⟩
        rw [hlist, Registry.not_watches_remove] at hkept
        cases hkept
      · rw [receive, removeTyped, hremove] at answers
        cases answers
  refine ⟨named, ?_⟩
  rintro path rfl hwatches
  obtain ⟨message, hfiles⟩ := files_remove writes alike.found (removedPath_eq named) hwatches
  rw [hfiles] at same
  rcases alike.listed.remove writes.registry writes.states path with
    ⟨-, message', after, hremove, listed, -, hstates⟩ | ⟨habsent, -⟩
  · rw [receive, removeTyped, hremove] at same
    refine States.keepOnly_paused_iff.mp fun job => ?_
    rw [← hstates, ← listed.saved job, ← alike.flags job]
    exact same.2 job
  · rw [hwatches] at habsent
    cases habsent

/-! ### The whole run -/

theorem Ends.agrees {now : Int} {command : Command}
    (ends : Ends terminal.load (pair.daemon.receive (terminal.onClock now) command)
      (pair.files.command (terminal.onClock now) command)) :
    pair.Agrees terminal (.command now command) := ⟨ends.1.same, ends.2⟩

/-- An add, a pause or a resume always ends the same way. -/
theorem Alike.command (alike : pair.Alike terminal.load) (writes : terminal.Writes) {now : Int}
    {command : Command} (settled : pair.Settled terminal (.command now command)) :
    Ends terminal.load (pair.daemon.receive (terminal.onClock now) command)
      (pair.files.command (terminal.onClock now) command) := by
  have hwrites : (terminal.onClock now).Writes := ⟨writes.create, writes.registry, writes.states⟩
  have halike : pair.Alike (terminal.onClock now).load := alike
  cases command with
  | add manifest => exact halike.add hwrites manifest
  | remove manifest =>
    have hsettled : pair.Settled (terminal.onClock now) (.command now (.remove manifest)) := settled
    exact halike.remove hwrites hsettled
  | pause job => exact halike.hold hwrites job true
  | resume job => exact halike.hold hwrites job false

theorem Alike.take (alike : pair.Alike terminal.load) (writes : terminal.Writes) (turn : Turn)
    (idle : pair.Idle terminal turn) (settled : pair.Settled terminal turn) :
    (pair.take terminal turn).Alike terminal.load := by
  cases turn with
  | pass now => exact alike.pass idle
  | command now command => exact (alike.command writes settled).1

theorem Alike.agrees_iff (alike : pair.Alike terminal.load) (writes : terminal.Writes) (turn : Turn)
    (idle : pair.Idle terminal turn) : pair.Agrees terminal turn ↔ pair.Settled terminal turn := by
  constructor
  · intro agrees
    cases turn with
    | pass now => trivial
    | command now command =>
      cases command with
      | remove manifest =>
        have hwrites : (terminal.onClock now).Writes :=
          ⟨writes.create, writes.registry, writes.states⟩
        have halike : pair.Alike (terminal.onClock now).load := alike
        have hsettled : pair.Settled (terminal.onClock now) (.command now (.remove manifest)) :=
          halike.settled_of_remove hwrites agrees.1 agrees.2
        exact hsettled
      | _ => trivial
  · intro settled
    cases turn with
    | pass now => exact ⟨(alike.pass idle).same, trivial⟩
    | command now command => exact (alike.command writes settled).agrees

theorem alike_of_opened {root : Path} {limit : Nat} {files : Files} {daemon : Daemon}
    (opened : openDaemon terminal.toHost root limit files = some daemon) :
    Alike terminal.load ⟨daemon, files⟩ := by
  have listed := listed_of_opened opened
  obtain ⟨-, hfiles⟩ := openDaemon_inStep opened
  obtain ⟨registry, states, -, hstates, -⟩ := openDaemon_built opened
  refine ⟨listed, ?_, ?_, states, hstates⟩
  · rw [← listed.written, hfiles]
  · intro job
    rw [← listed.saved, hfiles]

/-- An idle daemon and the bare files take the same commands in the same way exactly where every
removal is settled. -/
theorem commands_agree_iff (terminal : Terminal) (writes : terminal.Writes) (root : Path)
    (limit : Nat) (files : Files) (daemon : Daemon)
    (opened : openDaemon terminal.toHost root limit files = some daemon) (turns : List Turn)
    (idle : Along (take terminal) (Idle terminal) ⟨daemon, files⟩ turns) :
    Along (take terminal) (Agrees terminal) ⟨daemon, files⟩ turns ↔
      Along (take terminal) (Settled terminal) ⟨daemon, files⟩ turns := by
  refine Along.iff_given ?_ ?_ (alike_of_opened opened) idle
  · intro pair turn alike idle settled
    exact alike.take writes turn idle settled
  · intro pair turn alike idle
    exact alike.agrees_iff writes turn idle

end

/-- Relative paths start in `/a`. -/
def fromA : Typed → Except Text Path
  | .absolute path => .ok path
  | .relative names => .ok ("a" :: names)

def terminalA : Terminal :=
  { early with canonicalize := fromA, create := .ok (), stateError := "invalid".toList }

def twoNightlyPair : Pair := ⟨twoNightlyDaemon, ⟨.ok twoNightly, ⟨[]⟩⟩⟩

theorem commands_agree_named :
    Along (@take .unused terminalA) (@Agrees .unused terminalA) twoNightlyPair
      [.pass 1, .command 2 (.remove (.absolute ["a", "nightly.yaml"])),
        .command 3 (.add (.relative ["weekly.yaml"])), .command 4 (.pause "weekly".toList)] := by
  let _ : CronCrate := .unused
  have writes : terminalA.Writes := ⟨rfl, rfl, fun _ => rfl⟩
  refine (commands_agree_iff terminalA writes ["root"] 2 ⟨.ok twoNightly, ⟨[]⟩⟩ twoNightlyDaemon
    twoNightlyDaemon_opened _ ?_).mpr ?_
  · refine ⟨?_, trivial, trivial, trivial, trivial⟩
    unfold Idle
    decide +kernel
  · refine ⟨trivial, ⟨?_, ?_⟩, trivial, trivial, trivial⟩
    · intro path hpath _
      rw [← Except.ok.inj hpath]
    · intro path _ _ job hpaused
      have hstates : (take terminalA twoNightlyPair (.pass 1)).daemon.states = ⟨[]⟩ := by
        decide +kernel
      have hnone : (States.get ⟨[]⟩ job).paused = true := hstates ▸ hpaused
      cases hnone

/-- A daemon does not find the path as it is typed, and forgets a job that its manifest takes
along. -/
theorem removals_differ :
    (succeeds (@receive .unused twoNightlyDaemon terminalA (.remove (.relative ["nightly.yaml"]))).1 =
        false ∧
      succeeds (twoNightlyPair.files.command terminalA (.remove (.relative ["nightly.yaml"]))).1 =
        true) ∧
    ((runAll (@take .unused terminalA) twoNightlyPair
        [.command 1 (.pause "nightly:early".toList),
          .command 2 (.remove (.absolute ["a", "nightly.yaml"]))]).daemon.files.states.get
            "nightly:early".toList).paused = false ∧
    ((runAll (@take .unused terminalA) twoNightlyPair
        [.command 1 (.pause "nightly:early".toList),
          .command 2 (.remove (.absolute ["a", "nightly.yaml"]))]).files.states.get
            "nightly:early".toList).paused = true := by
  decide +kernel

end Pair

end Beez.Daemon
