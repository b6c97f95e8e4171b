import Beez.Lib.Machine
import Mathlib.Logic.Function.Basic

/-! # Files that are replaced as a whole

A save writes a second file, syncs it, and renames it over the first. The process can end at any
step. A power failure also takes back changes of names, and garbles what was not synced.
-/

namespace Beez.Lib

variable {φ α : Type*} [DecidableEq φ]

inductive FileName (φ : Type*) where
  | whole (file : φ)
  /-- The second file of a save. -/
  | writing (file : φ)
deriving DecidableEq

structure Inode (α : Type*) where
  content : List α
  synced : Bool

/-- The names of a directory. `log` records the saves that they show. -/
structure View (φ α : Type*) where
  names : FileName φ → Option Nat
  log : List (φ × List α)

inductive SavePhase (φ α : Type*) where
  | idle
  | writing (file : φ) (inode : Nat) (value rest : List α)
  | committing (file : φ) (inode : Nat) (value : List α)

/-- `past` are the names that a power failure may bring back, oldest first. -/
structure Disk (φ α : Type*) where
  inodes : Nat → Inode α
  next : Nat
  past : List (View φ α)
  now : View φ α
  phase : SavePhase φ α

inductive DiskMove (φ α : Type*) where
  /-- A save creates its second file, or cuts the one that it finds. -/
  | begins (file : φ) (value : List α)
  /-- It writes at most `n + 1` more, or syncs what it wrote, or renames. -/
  | turn (n : Nat)
  /-- A step fails, or the process ends. -/
  | fails
  /-- The names that are `k` changes old reach the disk, and with them all later ones may be lost. -/
  | power (k : Nat) (junk : Nat → List α)
  /-- The disk catches up, so that the oldest names do not come back. -/
  | settles (k : Nat)

/-- What the last save of a file wrote. -/
def lastSaved (file : φ) (log : List (φ × List α)) : Option (List α) :=
  (log.reverse.find? (·.1 = file)).map Prod.snd

@[simp] theorem lastSaved_nil (file : φ) : lastSaved file ([] : List (φ × List α)) = none := rfl

theorem lastSaved_snoc (file saved : φ) (log : List (φ × List α)) (value : List α) :
    lastSaved file (log ++ [(saved, value)]) =
      if saved = file then some value else lastSaved file log := by
  unfold lastSaved
  rw [List.reverse_append, List.reverse_singleton, List.singleton_append, List.find?_cons]
  by_cases h : saved = file <;> simp [h]

namespace Disk

def empty : Disk φ α := ⟨fun _ => ⟨[], false⟩, 0, [], ⟨fun _ => none, []⟩, .idle⟩

def views (disk : Disk φ α) : List (View φ α) := disk.past ++ [disk.now]

def begin (disk : Disk φ α) (file : φ) (value : List α) : Disk φ α :=
  match disk.now.names (.writing file) with
  | some inode =>
    { disk with
      inodes := Function.update disk.inodes inode ⟨[], false⟩
      phase := .writing file inode value value }
  | none =>
    { inodes := Function.update disk.inodes disk.next ⟨[], false⟩
      next := disk.next + 1
      past := disk.views
      now := { disk.now with
        names := Function.update disk.now.names (.writing file) (some disk.next) }
      phase := .writing file disk.next value value }

/-- `rename` of the second file over the first. -/
def rename (view : View φ α) (file : φ) (value : List α) : View φ α where
  names := Function.update
    (Function.update view.names (.whole file) (view.names (.writing file))) (.writing file) none
  log := view.log ++ [(file, value)]

theorem rename_whole (view : View φ α) (file other : φ) (value : List α) :
    (rename view file value).names (.whole other) =
      if other = file then view.names (.writing file) else view.names (.whole other) := by
  simp [rename, Function.update_apply]

theorem rename_writing (view : View φ α) (file other : φ) (value : List α) :
    (rename view file value).names (.writing other) =
      if other = file then none else view.names (.writing other) := by
  simp [rename, Function.update_apply]

def turn (disk : Disk φ α) (n : Nat) : Disk φ α :=
  match disk.phase with
  | .idle => disk
  | .writing file inode value rest =>
    if rest = [] then
      { disk with
        inodes := Function.update disk.inodes inode ⟨(disk.inodes inode).content, true⟩
        phase := .committing file inode value }
    else
      { disk with
        inodes := Function.update disk.inodes inode
          ⟨(disk.inodes inode).content ++ rest.take (n + 1), false⟩
        phase := .writing file inode value (rest.drop (n + 1)) }
  | .committing file _ value =>
    { disk with past := disk.views, now := rename disk.now file value, phase := .idle }

def step (disk : Disk φ α) : DiskMove φ α → Disk φ α
  | .begins file value =>
    match disk.phase with
    | .idle => disk.begin file value
    | _ => disk
  | .turn n => disk.turn n
  | .fails => { disk with phase := .idle }
  | .power k junk =>
    { disk with
      inodes := fun inode => if (disk.inodes inode).synced then disk.inodes inode else ⟨junk inode, false⟩
      past := []
      now := disk.views[k]?.getD disk.now
      phase := .idle }
  | .settles k => { disk with past := disk.past.drop k }

/-- What a reader finds under the name of a file. -/
def read (disk : Disk φ α) (view : View φ α) (file : φ) : Option (List α) :=
  (view.names (.whole file)).map fun inode => (disk.inodes inode).content

end Disk

/-! ## Names that show whole saves -/

/-- The names show the saves of their log, whose files are synced, and no second file is a first. -/
structure View.Sound (view : View φ α) (inodes : Nat → Inode α) (next : Nat) : Prop where
  reads : ∀ file, (view.names (.whole file)).map (fun inode => (inodes inode).content) =
    lastSaved file view.log
  synced : ∀ file inode, view.names (.whole file) = some inode → (inodes inode).synced = true
  apart : ∀ file other inode, view.names (.writing file) = some inode →
    view.names (.whole other) ≠ some inode
  single : ∀ file other inode, view.names (.writing file) = some inode →
    view.names (.writing other) = some inode → file = other
  known : ∀ name inode, view.names name = some inode → inode < next

/-- A change of inodes that no file has keeps the names sound. -/
theorem View.Sound.frame {view : View φ α} {inodes inodes' : Nat → Inode α} {next next' : Nat}
    (sound : view.Sound inodes next) (grows : next ≤ next')
    (same : ∀ file inode, view.names (.whole file) = some inode → inodes' inode = inodes inode) :
    view.Sound inodes' next' := by
  obtain ⟨reads, synced, apart, single, known⟩ := sound
  refine ⟨?_, ?_, apart, single, fun name inode h => Nat.lt_of_lt_of_le (known name inode h) grows⟩
  · intro file
    rw [← reads file]
    cases h : view.names (.whole file) with
    | none => rfl
    | some inode => simp [same file inode h]
  · intro file inode h
    rw [same file inode h]
    exact synced file inode h

/-- `view` was there before `later`: it shows a part of the saves, and what is second now was not a
first file then. -/
def View.Before (view later : View φ α) : Prop :=
  view.log <+: later.log ∧ ∀ file other inode, later.names (.writing file) = some inode →
    view.names (.whole other) ≠ some inode

omit [DecidableEq φ] in
/-- Fewer second files, and more in the log. -/
theorem View.Before.trans_of {view now now' : View φ α} (before : view.Before now)
    (log : now.log <+: now'.log) (fewer : ∀ file inode, now'.names (.writing file) = some inode →
      now.names (.writing file) = some inode) : view.Before now' :=
  ⟨before.1.trans log, fun file other inode h => before.2 file other inode (fewer file inode h)⟩

theorem View.Sound.rename {view : View φ α} {inodes : Nat → Inode α} {next inode : Nat} {file : φ}
    {value : List α} (sound : view.Sound inodes next) (second : view.names (.writing file) = some inode)
    (content : inodes inode = ⟨value, true⟩) : (Disk.rename view file value).Sound inodes next := by
  obtain ⟨reads, synced, apart, single, known⟩ := sound
  have whole (other : φ) := (Disk.rename_whole view file other value).trans (by rw [second])
  have writing (other : φ) (i : Nat)
      (h : (Disk.rename view file value).names (.writing other) = some i) :
      other ≠ file ∧ view.names (.writing other) = some i := by
    rw [Disk.rename_writing] at h
    split at h
    · cases h
    · next hne => exact ⟨hne, h⟩
  refine ⟨?_, ?_, ?_, ?_, ?_⟩
  · intro other
    have log : lastSaved other (Disk.rename view file value).log =
        if file = other then some value else lastSaved other view.log := lastSaved_snoc _ _ _ _
    rw [whole, log]
    by_cases h : other = file
    · rw [if_pos h, if_pos h.symm, Option.map_some, content]
    · rw [if_neg h, if_neg (Ne.symm h), reads]
  · intro other i h
    rw [whole] at h
    split at h
    · obtain rfl := Option.some.inj h
      rw [content]
    · exact synced other i h
  · intro one other i h
    obtain ⟨hne, h⟩ := writing one i h
    rw [whole]
    split
    · rintro ⟨⟩
      exact hne (single one file inode h second)
    · exact apart one other i h
  · intro one other i hone hother
    exact single one other i (writing one i hone).2 (writing other i hother).2
  · intro name i h
    cases name with
    | whole other =>
      rw [whole] at h
      split at h
      · obtain rfl := Option.some.inj h
        exact known _ _ second
      · exact known _ _ h
    | writing other => exact known _ _ (writing other i h).2

theorem View.Sound.link {view : View φ α} {inodes : Nat → Inode α} {next : Nat} {file : φ}
    (sound : view.Sound inodes next) (none : view.names (.writing file) = none)
    (names : FileName φ → Option Nat)
    (hnames : names = Function.update view.names (.writing file) (some next)) :
    View.Sound { view with names } (Function.update inodes next ⟨[], false⟩) (next + 1) := by
  subst hnames
  have others (other : φ) (inode : Nat) (h : view.names (.whole other) = some inode) :
      Function.update inodes next ⟨[], false⟩ inode = inodes inode :=
    Function.update_of_ne (Nat.ne_of_lt (sound.known _ _ h)) _ _
  obtain ⟨reads, synced, apart, single, known⟩ := sound.frame (Nat.le_succ next) others
  have whole (other : φ) : Function.update view.names (.writing file) (some next) (.whole other) =
      view.names (.whole other) := Function.update_of_ne (by simp) _ _
  have writing (other : φ) (i : Nat)
      (h : Function.update view.names (.writing file) (some next) (.writing other) = some i) :
      other = file ∧ i = next ∨ other ≠ file ∧ view.names (.writing other) = some i ∧ i ≠ next := by
    by_cases same : other = file
    · rw [same, Function.update_self] at h
      exact .inl ⟨same, (Option.some.inj h).symm⟩
    · rw [Function.update_of_ne (by simpa using same)] at h
      exact .inr ⟨same, h, Nat.ne_of_lt (sound.known _ _ h)⟩
  refine ⟨?_, ?_, ?_, ?_, ?_⟩
  · intro other
    dsimp only
    rw [whole, reads]
  · intro other i h
    dsimp only at h
    rw [whole] at h
    exact synced other i h
  · intro one other i h
    dsimp only at h ⊢
    rw [whole]
    rcases writing one i h with ⟨-, rfl⟩ | ⟨-, h, -⟩
    · exact fun h => Nat.lt_irrefl _ (sound.known _ _ h)
    · exact apart one other i h
  · intro one other i hone hother
    rcases writing one i hone with ⟨rfl, rfl⟩ | ⟨-, hone, hne⟩
    · rcases writing other i hother with ⟨rfl, -⟩ | ⟨-, -, hne⟩
      · rfl
      · exact absurd rfl hne
    · rcases writing other i hother with ⟨-, rfl⟩ | ⟨-, hother, -⟩
      · exact absurd rfl hne
      · exact single one other i hone hother
  · intro name i h
    cases name with
    | whole other =>
      dsimp only at h
      rw [whole] at h
      exact known _ _ h
    | writing other =>
      rcases writing other i h with ⟨-, rfl⟩ | ⟨-, h, -⟩
      · exact Nat.lt_succ_self _
      · exact known _ _ h

namespace Disk

/-- Whatever names a power failure leaves, they show whole saves. -/
structure Sound (disk : Disk φ α) : Prop where
  views : ∀ view ∈ disk.views, view.Sound disk.inodes disk.next
  before : disk.past.Pairwise View.Before
  now : ∀ view ∈ disk.past, view.Before disk.now
  writing : ∀ file inode value rest, disk.phase = .writing file inode value rest →
    disk.now.names (.writing file) = some inode ∧ (disk.inodes inode).content ++ rest = value
  committing : ∀ file inode value, disk.phase = .committing file inode value →
    disk.now.names (.writing file) = some inode ∧ disk.inodes inode = ⟨value, true⟩

omit [DecidableEq φ] in
theorem mem_views {disk : Disk φ α} {view : View φ α} :
    view ∈ disk.views ↔ view ∈ disk.past ∨ view = disk.now := by
  simp [views]

theorem empty_sound : (empty : Disk φ α).Sound := by
  refine ⟨?_, List.Pairwise.nil, by simp [empty], by simp [empty], by simp [empty]⟩
  intro view hview
  obtain rfl : view = ⟨fun _ => none, []⟩ := by simpa [views, empty] using hview
  exact ⟨fun _ => rfl, by simp, by simp, by simp, by simp⟩

theorem Sound.now_sound {disk : Disk φ α} (sound : disk.Sound) :
    disk.now.Sound disk.inodes disk.next :=
  sound.views _ (mem_views.mpr (.inr rfl))

theorem Sound.before_now {disk : Disk φ α} (sound : disk.Sound) :
    ∀ view ∈ disk.views, view.Before disk.now := by
  intro view hview
  rcases mem_views.mp hview with hpast | rfl
  · exact sound.now view hpast
  · exact ⟨List.prefix_refl _, sound.now_sound.apart⟩

/-- Writing to the second file touches no name that shows a save. -/
theorem Sound.write {disk : Disk φ α} (sound : disk.Sound) {file : φ} {inode : Nat}
    (second : disk.now.names (.writing file) = some inode) (new : Inode α) :
    ∀ view ∈ disk.views, view.Sound (Function.update disk.inodes inode new) disk.next := by
  intro view hview
  refine (sound.views view hview).frame (Nat.le_refl _) fun other i h => ?_
  refine Function.update_of_ne ?_ _ _
  rintro rfl
  exact (sound.before_now view hview).2 file other i second h

theorem Sound.views_pairwise {disk : Disk φ α} (sound : disk.Sound) :
    disk.views.Pairwise View.Before := by
  unfold Disk.views
  rw [List.pairwise_append]
  refine ⟨sound.before, List.pairwise_singleton _ _, ?_⟩
  intro view hview now hnow
  obtain rfl := List.mem_singleton.mp hnow
  exact sound.now view hview

theorem Sound.begin {disk : Disk φ α} (sound : disk.Sound) (file : φ) (value : List α) :
    (disk.begin file value).Sound := by
  unfold Disk.begin
  split
  · next inode second =>
    refine ⟨sound.write second _, sound.before, sound.now, ?_, by simp⟩
    rintro _ _ _ _ ⟨⟩
    refine ⟨second, ?_⟩
    dsimp only
    rw [Function.update_self]
    rfl
  · next none =>
    have linked := sound.now_sound.link none _ rfl
    refine ⟨?_, sound.views_pairwise, ?_, ?_, by simp⟩
    · intro view hview
      rcases mem_views.mp hview with hpast | rfl
      · exact (sound.views view hpast).frame (Nat.le_succ _) fun other i h =>
          Function.update_of_ne (Nat.ne_of_lt ((sound.views view hpast).known _ _ h)) _ _
      · exact linked
    · intro view hview
      refine ⟨(sound.before_now view hview).1, fun one other i h => ?_⟩
      dsimp only at h
      by_cases same : one = file
      · rw [same, Function.update_self] at h
        obtain rfl := Option.some.inj h
        exact fun h => Nat.lt_irrefl _ ((sound.views view hview).known _ _ h)
      · rw [Function.update_of_ne (by simpa using same)] at h
        exact (sound.before_now view hview).2 one other i h
    · rintro _ _ _ _ ⟨⟩
      dsimp only
      rw [Function.update_self, Function.update_self]
      exact ⟨rfl, rfl⟩

theorem Sound.turn {disk : Disk φ α} (sound : disk.Sound) (n : Nat) : (disk.turn n).Sound := by
  unfold Disk.turn
  split
  · exact sound
  · next file inode value rest hphase =>
    obtain ⟨second, content⟩ := sound.writing _ _ _ _ hphase
    split
    · next empty =>
      rw [empty, List.append_nil] at content
      refine ⟨sound.write second _, sound.before, sound.now, by simp, ?_⟩
      rintro _ _ _ ⟨⟩
      refine ⟨second, ?_⟩
      dsimp only
      rw [Function.update_self, content]
    · refine ⟨sound.write second _, sound.before, sound.now, ?_, by simp⟩
      rintro _ _ _ _ ⟨⟩
      refine ⟨second, ?_⟩
      dsimp only
      rw [Function.update_self, List.append_assoc, List.take_append_drop, content]
  · next file inode value hphase =>
    obtain ⟨second, content⟩ := sound.committing _ _ _ hphase
    refine ⟨?_, sound.views_pairwise, ?_, by simp, by simp⟩
    · intro view hview
      rcases mem_views.mp hview with hpast | rfl
      · exact sound.views view hpast
      · exact sound.now_sound.rename second content
    · intro view hview
      refine (sound.before_now view hview).trans_of (List.prefix_append _ _) fun other i h => ?_
      dsimp only at h
      rw [rename_writing] at h
      split at h
      · cases h
      · exact h

theorem Sound.power {disk : Disk φ α} (sound : disk.Sound) (k : Nat) (junk : Nat → List α) :
    (disk.step (.power k junk)).Sound := by
  have chosen : disk.views[k]?.getD disk.now ∈ disk.views := by
    cases h : disk.views[k]? with
    | none => exact mem_views.mpr (.inr rfl)
    | some view => exact List.mem_of_getElem? h
  refine ⟨?_, List.Pairwise.nil, by simp [Disk.step], by simp [Disk.step], by simp [Disk.step]⟩
  intro view hview
  obtain rfl : view = disk.views[k]?.getD disk.now := by simpa [Disk.views, Disk.step] using hview
  refine (sound.views _ chosen).frame (Nat.le_refl _) fun other i h => ?_
  have := (sound.views _ chosen).synced other i h
  simp [Disk.step, this]

theorem Sound.step {disk : Disk φ α} (sound : disk.Sound) (move : DiskMove φ α) :
    (disk.step move).Sound := by
  cases move with
  | begins file value =>
    unfold Disk.step
    dsimp only
    split
    · exact sound.begin file value
    · exact sound
  | turn n => exact sound.turn n
  | fails => exact ⟨sound.views, sound.before, sound.now, by simp [Disk.step], by simp [Disk.step]⟩
  | power k junk => exact sound.power k junk
  | settles k =>
    have fewer {view : View φ α} (h : view ∈ disk.past.drop k) : view ∈ disk.past :=
      List.mem_of_mem_drop h
    refine ⟨?_, sound.before.sublist (List.drop_sublist k _), fun view h => sound.now view (fewer h),
      sound.writing, sound.committing⟩
    intro view hview
    rcases mem_views.mp hview with hpast | rfl
    · exact sound.views view (mem_views.mpr (.inl (fewer hpast)))
    · exact sound.now_sound

theorem sound_of_run (moves : List (DiskMove φ α)) : (runAll step (empty : Disk φ α) moves).Sound :=
  runAll_invariant (fun _ move sound _ => sound.step move) empty_sound
    (Along.of_forall (fun _ _ => trivial) _ moves)

/-- What a move does to the saves that the names show: only a rename adds one, and only a power
failure takes some back, the newest first. -/
theorem Sound.step_log {disk : Disk φ α} (sound : disk.Sound) (move : DiskMove φ α) :
    (disk.step move).now.log = disk.now.log ∨
      (∃ file inode value, disk.phase = .committing file inode value ∧ (∃ n, move = .turn n) ∧
        (disk.step move).now.log = disk.now.log ++ [(file, value)]) ∨
      (∃ k junk, move = .power k junk) ∧ (disk.step move).now.log <+: disk.now.log := by
  cases move with
  | begins file value =>
    left
    unfold Disk.step Disk.begin
    dsimp only
    split
    · split <;> rfl
    · rfl
  | turn n =>
    unfold Disk.step Disk.turn
    dsimp only
    split
    · exact .inl rfl
    · split <;> exact .inl rfl
    · next file inode value hphase =>
      exact .inr (.inl ⟨file, inode, value, hphase, ⟨n, rfl⟩, rfl⟩)
  | fails => exact .inl rfl
  | power k junk =>
    refine .inr (.inr ⟨⟨k, junk, rfl⟩, ?_⟩)
    unfold Disk.step
    dsimp only
    cases h : disk.views[k]? with
    | none => exact List.prefix_refl _
    | some view => exact (sound.before_now view (List.mem_of_getElem? h)).1
  | settles k => exact .inl rfl

/-- Everything that is saved, shown or on the way to be, is one of the saves that `Begun` tells. -/
structure OnlyBegun (Begun : φ → List α → Prop) (disk : Disk φ α) : Prop where
  log : ∀ entry ∈ disk.now.log, Begun entry.1 entry.2
  writing : ∀ file inode value rest, disk.phase = .writing file inode value rest → Begun file value
  committing : ∀ file inode value, disk.phase = .committing file inode value → Begun file value

theorem OnlyBegun.step {Begun : φ → List α → Prop} {disk : Disk φ α} (sound : disk.Sound)
    (begun : disk.OnlyBegun Begun) {move : DiskMove φ α}
    (h : ∀ file value, move = .begins file value → Begun file value) :
    (disk.step move).OnlyBegun Begun := by
  have log : ∀ entry ∈ (disk.step move).now.log, Begun entry.1 entry.2 := by
    intro entry hmem
    rcases sound.step_log move with same | ⟨file, inode, value, hphase, -, more⟩ | ⟨-, fewer⟩
    · exact begun.log entry (same ▸ hmem)
    · rw [more, List.mem_append, List.mem_singleton] at hmem
      rcases hmem with hmem | rfl
      · exact begun.log entry hmem
      · exact begun.committing file inode value hphase
    · exact begun.log entry (fewer.subset hmem)
  cases move with
  | begins file value =>
    have new := h file value rfl
    refine ⟨log, ?_, ?_⟩
    · unfold Disk.step Disk.begin
      dsimp only
      split
      · split <;> rintro _ _ _ _ ⟨⟩ <;> exact new
      · exact begun.writing
    · unfold Disk.step Disk.begin
      dsimp only
      split
      · split <;> simp
      · exact begun.committing
  | turn n =>
    refine ⟨log, ?_, ?_⟩
    · unfold Disk.step Disk.turn
      dsimp only
      split
      · exact begun.writing
      · next hphase =>
        split
        · simp
        · rintro _ _ _ _ ⟨⟩
          exact begun.writing _ _ _ _ hphase
      · simp
    · unfold Disk.step Disk.turn
      dsimp only
      split
      · exact begun.committing
      · next hphase =>
        split
        · rintro _ _ _ ⟨⟩
          exact begun.writing _ _ _ _ hphase
        · simp
      · simp
  | fails => exact ⟨log, by simp [Disk.step], by simp [Disk.step]⟩
  | power k junk => exact ⟨log, by simp [Disk.step], by simp [Disk.step]⟩
  | settles k => exact ⟨log, begun.writing, begun.committing⟩

/-- Every save that the names show was begun, with what they show. -/
theorem log_begun (moves : List (DiskMove φ α)) :
    ∀ entry ∈ (runAll step (empty : Disk φ α) moves).now.log, .begins entry.1 entry.2 ∈ moves := by
  have kept := @runAll_invariant _ _ step (fun _ move => move ∈ moves)
    (fun disk => disk.Sound ∧ disk.OnlyBegun fun file value => .begins file value ∈ moves)
    (fun disk move kept hmem => ⟨kept.1.step move, kept.2.step kept.1 fun file value h => h ▸ hmem⟩)
    (empty : Disk φ α) moves ⟨empty_sound, by simp [empty], by simp [empty], by simp [empty]⟩
    (Along.of_mem _ fun _ h => h)
  exact kept.2.log

/-- The rest of a save that is left to run to its end. -/
theorem turns_commit {disk : Disk φ α} {file : φ} {inode : Nat} {value rest : List α}
    (hphase : disk.phase = .writing file inode value rest) {n m : Nat} (enough : rest.length + 2 ≤ m) :
    (runAll step disk (List.replicate m (.turn n))).now.log = disk.now.log ++ [(file, value)] ∧
      (runAll step disk (List.replicate m (.turn n))).phase = .idle := by
  have still {disk : Disk φ α} (idle : disk.phase = .idle) (m : Nat) :
      runAll step disk (List.replicate m (.turn n)) = disk := by
    induction m with
    | zero => rfl
    | succ m ih =>
      rw [List.replicate_succ, runAll_cons]
      have : disk.step (.turn n) = disk := by
        unfold Disk.step Disk.turn
        dsimp only
        rw [idle]
      rw [this, ih]
  induction m generalizing disk rest with
  | zero => omega
  | succ m ih =>
    rw [List.replicate_succ, runAll_cons]
    by_cases empty : rest = []
    · obtain ⟨m, rfl⟩ : ∃ k, m = k + 1 := ⟨m - 1, by omega⟩
      rw [List.replicate_succ, runAll_cons]
      have committed : ((disk.step (.turn n)).step (.turn n)).now.log =
            disk.now.log ++ [(file, value)] ∧
          ((disk.step (.turn n)).step (.turn n)).phase = .idle := by
        simp [Disk.step, Disk.turn, hphase, empty, rename]
      rw [still committed.2]
      exact committed
    · have less : (rest.drop (n + 1)).length + 2 ≤ m := by
        have := List.length_pos_iff.mpr empty
        rw [List.length_drop]
        omega
      have wrote : (disk.step (.turn n)).phase = .writing file inode value (rest.drop (n + 1)) ∧
          (disk.step (.turn n)).now.log = disk.now.log := by
        simp [Disk.step, Disk.turn, hphase, empty]
      rw [← wrote.2]
      exact ih wrote.1 less

/-- A save that is left to run to its end is shown. -/
theorem save_commits {disk : Disk φ α} (idle : disk.phase = .idle) (file : φ) (value : List α)
    (n : Nat) : (runAll step disk (.begins file value ::
      List.replicate (value.length + 2) (.turn n))).now.log = disk.now.log ++ [(file, value)] := by
  rw [runAll_cons]
  have begun : ∃ inode, (disk.step (.begins file value)).phase = .writing file inode value value := by
    unfold Disk.step Disk.begin
    dsimp only
    rw [idle]
    dsimp only
    split
    · exact ⟨_, rfl⟩
    · exact ⟨_, rfl⟩
  have log : (disk.step (.begins file value)).now.log = disk.now.log := by
    unfold Disk.step Disk.begin
    dsimp only
    rw [idle]
    dsimp only
    split <;> rfl
  obtain ⟨inode, hphase⟩ := begun
  rw [← log]
  exact (turns_commit hphase (Nat.le_refl _)).1

end Disk

end Beez.Lib
