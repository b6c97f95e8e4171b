import Beez.Daemon.Store
import Beez.Lib.Disk

/-! # What a daemon reads when it starts again

Each file is written beside its name and renamed over it, so that a stopped daemon never leaves half
a file. One process saves at a time, one file after the other.
-/

open Beez.Lib

namespace Beez

/-- `path.with_extension(extension)`. -/
def Path.withExtension (path : Path) (extension : String) : Path :=
  match path.fileStem with
  | none => path
  | some stem => path.dropLast ++ [stem ++ "." ++ extension]

namespace Daemon

/-- The files that `save_json` writes. -/
inductive DaemonFile where
  | manifests
  | state
  | record
deriving DecidableEq

def DaemonFile.name : DaemonFile → String
  | .manifests => "manifests.json"
  | .state => "state.json"
  | .record => "daemon.json"

def DaemonFile.path (root : Path) (file : DaemonFile) : Path := root ++ ["daemon"] ++ [file.name]

/-- The path of a file, and of the one beside it. -/
def pathOf (root : Path) : FileName DaemonFile → Path
  | .whole file => file.path root
  | .writing file => (file.path root).withExtension "writing"

/-- The last component of a path of `pathOf`. -/
def lastName : FileName DaemonFile → String
  | .whole file => file.name
  | .writing .manifests => "manifests.writing"
  | .writing .state => "state.writing"
  | .writing .record => "daemon.writing"

theorem pathOf_eq (root : Path) (file : FileName DaemonFile) :
    pathOf root file = root ++ ["daemon"] ++ [lastName file] := by
  cases file with
  | whole file => rfl
  | writing file =>
    dsimp only [pathOf, DaemonFile.path, Path.withExtension, Path.fileStem]
    rw [List.getLast?_concat, Option.map_some, List.dropLast_concat]
    cases file <;> rfl

theorem lastName_injective {one other : FileName DaemonFile} (h : lastName one = lastName other) :
    one = other := by
  revert h
  cases one with
  | whole file => cases other with
    | whole file' => cases file <;> cases file' <;> decide
    | writing file' => cases file <;> cases file' <;> decide
  | writing file => cases other with
    | whole file' => cases file <;> cases file' <;> decide
    | writing file' => cases file <;> cases file' <;> decide

/-- No two files of a daemon, whole or being written, have the same path. -/
theorem pathOf_injective (root : Path) {one other : FileName DaemonFile}
    (h : pathOf root one = pathOf root other) : one = other := by
  rw [pathOf_eq, pathOf_eq] at h
  exact lastName_injective (List.singleton_inj.mp (List.append_cancel_left h))

/-! ## Saves and loads -/

/-- How values are written as JSON and read back. -/
structure Json where
  renderRegistry : Registry → List Byte
  renderStates : States → List Byte
  parseRegistry : List Byte → Except Text Registry
  parseStates : List Byte → Except Text States

/-- A call of `save`. -/
inductive Save where
  | registry (saved : Registry)
  | states (saved : States)
  /-- The record of the running daemon, which no daemon reads. -/
  | record (saved : List Byte)

namespace Save

def file : Save → DaemonFile
  | registry _ => .manifests
  | states _ => .state
  | record _ => .record

/-- What `save_json` writes: the value and a newline. -/
def text (json : Json) : Save → List Byte
  | registry saved => json.renderRegistry saved ++ [10]
  | states saved => json.renderStates saved ++ [10]
  | record saved => saved ++ [10]

def registry? : Save → Option Registry
  | registry saved => some saved
  | _ => none

def states? : Save → Option States
  | states saved => some saved
  | _ => none

end Save

inductive SaveMove where
  | saves (save : Save)
  | turn (n : Nat)
  | fails
  | power (k : Nat) (junk : Nat → List Byte)
  | settles (k : Nat)

namespace SaveMove

def disk (json : Json) : SaveMove → DiskMove DaemonFile Byte
  | saves save => .begins save.file (save.text json)
  | turn n => .turn n
  | fails => .fails
  | power k junk => .power k junk
  | settles k => .settles k

def isPower : SaveMove → Bool
  | power _ _ => true
  | _ => false

end SaveMove

/-- The files of a daemon after a history of saves and failures. -/
def filesAfter (json : Json) (moves : List SaveMove) : Disk DaemonFile Byte :=
  runAll Disk.step Disk.empty (moves.map (SaveMove.disk json))

/-- `load_json`: a missing file is an empty one. -/
def loadJson {α : Type} (parse : List Byte → Except Text α) (fallback : α) :
    Option (List Byte) → Except Text α
  | none => .ok fallback
  | some text => parse text

/-- `load_all`, under the names that a view has. -/
def loadAll (json : Json) (disk : Disk DaemonFile Byte) (view : View DaemonFile Byte) :
    Except Text (Registry × States) := do
  let registry ← loadJson json.parseRegistry ⟨[]⟩ (disk.read view .manifests)
  let states ← loadJson json.parseStates ⟨[]⟩ (disk.read view .state)
  return (registry, states)

/-! ## The saves that a daemon finds -/

def lastRegistry (saves : List Save) : Registry := (saves.reverse.findSome? Save.registry?).getD ⟨[]⟩

def lastStates (saves : List Save) : States := (saves.reverse.findSome? Save.states?).getD ⟨[]⟩

def Save.entry (json : Json) (save : Save) : DaemonFile × List Byte := (save.file, save.text json)

theorem lastSaved_manifests (json : Json) (saves : List Save) :
    lastSaved .manifests (saves.map (Save.entry json)) =
      (saves.reverse.findSome? Save.registry?).map fun saved => json.renderRegistry saved ++ [10] := by
  induction saves using List.reverseRecOn with
  | nil => rfl
  | append_singleton saves save ih =>
    rw [List.map_append, List.map_singleton, List.reverse_append, List.reverse_singleton,
      List.singleton_append, List.findSome?_cons, Save.entry, lastSaved_snoc, ih]
    cases save <;> rfl

theorem lastSaved_state (json : Json) (saves : List Save) :
    lastSaved .state (saves.map (Save.entry json)) =
      (saves.reverse.findSome? Save.states?).map fun saved => json.renderStates saved ++ [10] := by
  induction saves using List.reverseRecOn with
  | nil => rfl
  | append_singleton saves save ih =>
    rw [List.map_append, List.map_singleton, List.reverse_append, List.reverse_singleton,
      List.singleton_append, List.findSome?_cons, Save.entry, lastSaved_snoc, ih]
    cases save <;> rfl

/-- JSON that was written in a history is read back: a list of manifests as it is, and an instant to
the second, where it is in range. -/
structure Json.Reads (json : Json) (moves : List SaveMove) : Prop where
  registry : ∀ saved, .saves (.registry saved) ∈ moves →
    json.parseRegistry (json.renderRegistry saved ++ [10]) = .ok saved
  states : ∀ saved read, .saves (.states saved) ∈ moves → saved.reread = some read →
    json.parseStates (json.renderStates saved ++ [10]) = .ok read

/-- The names show whole saves of the history, and a load reads the last one of each file. -/
structure ShowsSaves (json : Json) (moves : List SaveMove) (disk : Disk DaemonFile Byte)
    (view : View DaemonFile Byte) (saves : List Save) : Prop where
  log : saves.map (Save.entry json) = view.log
  saved : ∀ save ∈ saves, .saves save ∈ moves
  loads : ∀ read, (lastStates saves).reread = some read →
    loadAll json disk view = .ok (lastRegistry saves, read)

theorem saves_of_entries {json : Json} {moves : List SaveMove}
    {entries : List (DaemonFile × List Byte)}
    (begun : ∀ entry ∈ entries, .begins entry.1 entry.2 ∈ moves.map (SaveMove.disk json)) :
    ∃ saves : List Save, saves.map (Save.entry json) = entries ∧
      ∀ save ∈ saves, .saves save ∈ moves := by
  induction entries with
  | nil => exact ⟨[], rfl, by simp⟩
  | cons entry rest ih =>
    rw [List.forall_mem_cons] at begun
    obtain ⟨saves, rfl, saved⟩ := ih begun.2
    obtain ⟨move, hmem, hmove⟩ := List.mem_map.mp begun.1
    cases move with
    | saves save =>
      injection hmove with hfile htext
      refine ⟨save :: saves, ?_, ?_⟩
      · rw [List.map_cons, Save.entry, hfile, htext]
      · rw [List.forall_mem_cons]
        exact ⟨hmem, saved⟩
    | _ => cases hmove

theorem loadAll_of_log {json : Json} {moves : List SaveMove} (reads : json.Reads moves)
    {disk : Disk DaemonFile Byte} {view : View DaemonFile Byte}
    (sound : view.Sound disk.inodes disk.next) {saves : List Save}
    (log : saves.map (Save.entry json) = view.log) (saved : ∀ save ∈ saves, .saves save ∈ moves)
    {read : States} (hread : (lastStates saves).reread = some read) :
    loadAll json disk view = .ok (lastRegistry saves, read) := by
  have found {α : Type} {pick : Save → Option α} {a : α}
      (h : saves.reverse.findSome? pick = some a) : ∃ save ∈ saves, pick save = some a := by
    obtain ⟨save, hmem, hpick⟩ := List.exists_of_findSome?_eq_some h
    exact ⟨save, List.mem_reverse.mp hmem, hpick⟩
  have registry : loadJson json.parseRegistry ⟨[]⟩ (disk.read view .manifests) =
      .ok (lastRegistry saves) := by
    unfold Disk.read lastRegistry
    rw [sound.reads, ← log, lastSaved_manifests]
    cases h : saves.reverse.findSome? Save.registry? with
    | none => rfl
    | some registry =>
      obtain ⟨save, hmem, hpick⟩ := found h
      cases save with
      | registry saved' =>
        obtain rfl := Option.some.inj hpick
        exact reads.registry _ (saved _ hmem)
      | _ => cases hpick
  have states : loadJson json.parseStates ⟨[]⟩ (disk.read view .state) = .ok read := by
    unfold lastStates at hread
    unfold Disk.read
    rw [sound.reads, ← log, lastSaved_state]
    cases h : saves.reverse.findSome? Save.states? with
    | none =>
      rw [h] at hread
      obtain rfl := Option.some.inj hread
      rfl
    | some states =>
      obtain ⟨save, hmem, hpick⟩ := found h
      rw [h] at hread
      cases save with
      | states saved' =>
        obtain rfl := Option.some.inj hpick
        exact reads.states _ _ (saved _ hmem) hread
      | _ => cases hpick
  unfold loadAll
  rw [registry, states]
  rfl

theorem filesAfter_append (json : Json) (moves more : List SaveMove) :
    filesAfter json (moves ++ more) =
      runAll Disk.step (filesAfter json moves) (more.map (SaveMove.disk json)) := by
  unfold filesAfter
  rw [List.map_append, runAll_append]

/-- Without a power failure no save that was shown is taken back. -/
theorem log_grows (json : Json) (moves more : List SaveMove)
    (powered : ∀ move ∈ more, SaveMove.isPower move = false) :
    (filesAfter json moves).now.log <+: (filesAfter json (moves ++ more)).now.log := by
  rw [filesAfter_append]
  have sound : (filesAfter json moves).Sound := Disk.sound_of_run _
  generalize filesAfter json moves = disk at *
  induction more generalizing disk with
  | nil => exact List.prefix_refl _
  | cons move rest ih =>
    rw [List.forall_mem_cons] at powered
    refine List.IsPrefix.trans ?_ (ih powered.2 _ (sound.step _))
    rcases sound.step_log (move.disk json) with same | ⟨_, _, _, -, -, more⟩ | ⟨⟨k, junk, hpower⟩, -⟩
    · rw [same]
    · rw [more]
      exact List.prefix_append _ _
    · cases move with
      | power _ _ => cases powered.1
      | _ => cases hpower

def nightlyRegistry : Registry := ⟨[⟨["work", "nightly.yaml"], ["work"]⟩]⟩

/-- The states with one job that fired. -/
def firedAt (fire : Int) : States :=
  ⟨[("nightly:early".toList, { JobState.initial with lastFire := some fire })]⟩

def nightlyRegistryText : List Byte :=
  ("\x7b\n  \"schema\": 1,\n  \"manifests\": [\n    \x7b\n      \"path\": \"/work/nightly.yaml\",\n".toList ++
    "      \"working_directory\": \"/work\"\n    \x7d\n  ]\n\x7d".toList).map
      fun c => BitVec.ofNat 8 c.toNat

def nightlyStatesText : List Byte :=
  ("\x7b\n  \"schema\": 1,\n  \"jobs\": \x7b\n    \"nightly:early\": \x7b\n".toList ++
    "      \"paused\": false,\n      \"last_fire\": \"1970-01-01T00:00:01Z\"\n    \x7d\n  \x7d\n\x7d".toList).map
      fun c => BitVec.ofNat 8 c.toNat

/-- JSON as it is for this manifest and this job. -/
def nightlyJson : Json where
  renderRegistry _ := nightlyRegistryText
  renderStates _ := nightlyStatesText
  parseRegistry text := if text = nightlyRegistryText ++ [10] then .ok nightlyRegistry else .error []
  parseStates text :=
    if text = nightlyStatesText ++ [10] then .ok (firedAt 1000000000) else .error []

/-- Both files are saved, and the power fails while the manifests are saved again. -/
def nightlyMoves : List SaveMove :=
  [.saves (.registry nightlyRegistry), .turn 200, .turn 0, .turn 0,
    .saves (.states (firedAt 1500000000)), .turn 200, .turn 0, .turn 0, .settles 4,
    .saves (.registry nightlyRegistry), .turn 20, .power 0 fun _ => [0x7B]]

end Daemon

end Beez
