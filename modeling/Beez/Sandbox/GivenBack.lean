import Beez.Lib.Machine
import Beez.Sandbox.MaskSteps

/-! # Giving the masks back

Masks share directories, and the directories go in the order in which the masks were held. A
directory goes with the last mask that needs it.
-/

open Beez.Lib

namespace Beez.Sandbox

/-- The drop of `HeldMasks`. What cannot be removed stays. -/
def HeldMasks.drop (held : HeldMasks) (tree : Tree) : Tree :=
  held.directories.foldl Tree.removeDir (held.markers.foldl Tree.removeFile tree)

/-- No entry of the host is a mask marker. -/
def Unmarked (tree : Tree) : Prop :=
  ∀ directory name, isMarker name = true → tree.entry (directory ++ [name]) = none

/-- Every mask of the plan is held. -/
def HoldsAll (alive : Text → Bool) (name : String) (plan : MaskPlan) (tree : Tree) : Prop :=
  Along (holdMask alive name)
    (fun held mask => (markInUse alive name mask markAttempts held.2).1.isSome = true)
    (⟨[], []⟩, tree) plan

/-! ## Removing -/

namespace Tree

variable {tree : Tree} {path other : Path} {kind : Kind}

theorem entry_removeFiles (paths : List Path) : (paths.foldl removeFile tree).entry other =
    if other ∈ paths ∧ tree.entry other ≠ some .directory then none else tree.entry other := by
  induction paths generalizing tree with
  | nil => simp
  | cons path rest ih =>
    rw [List.foldl_cons, ih, entry_removeFile]
    by_cases same : other = path
    · subst same
      by_cases dir : tree.entry other = some .directory <;> simp [dir]
    · simp [same]

end Tree

/-! ## What a mask needs -/

section

variable {original tree : Tree} {path directory : Path} {name : String}

theorem Unmarked.of_clear (h : ∀ node ∈ tree.nodes, Clear node.1) : Unmarked tree := by
  intro directory name hmarker
  by_contra found
  obtain ⟨kind, hkind⟩ := Option.ne_none_iff_exists'.mp found
  exact not_clear_marker hmarker (h _ (Tree.mem_of_entry hkind))

theorem Unmarked.isMarked (unmarked : Unmarked original) (directory : Path) :
    original.isMarked directory = false := by
  rw [Bool.eq_false_iff, ne_eq, isMarked_iff]
  rintro ⟨name, hmarker, hentry⟩
  exact hentry (unmarked directory name hmarker)

theorem Tree.isPresent_of_prefix (h : tree.isPresent path = true) (hpre : directory <+: path) :
    tree.isPresent directory = true := by
  obtain ⟨rest, rfl⟩ := hpre
  by_cases hrest : rest = []
  · rwa [hrest, List.append_nil] at h
  · have below : tree.entry (directory ++ rest) ≠ none := by
      intro none
      simp [Tree.isPresent, none] at h
    simp [Tree.isPresent, Tree.entry_ancestor below hrest]

/-- A mask needs what is missing on the way to its path. -/
theorem mem_maskDirectories (unmarked : Unmarked original) :
    directory ∈ maskDirectories original path ↔
      directory <+: path ∧ original.isPresent directory = false := by
  unfold maskDirectories
  simp only [unmarked.isMarked, Bool.or_false]
  induction path using List.reverseRecOn with
  | nil =>
    have root : original.isPresent [] = true := by
      have : original.entry [] = some .directory := original.root
      simp [Tree.isPresent, this]
    simp only [Path.ancestors, List.inits, List.reverse_singleton, List.takeWhile_cons, root,
      Bool.not_true, Bool.false_eq_true, if_false, List.not_mem_nil, false_iff, not_and]
    rintro hpre hmissing
    rw [List.prefix_nil.mp hpre, root] at hmissing
    cases hmissing
  | append_singleton parent name ih =>
    rw [Path.ancestors_snoc, List.takeWhile_cons]
    cases present : original.isPresent (parent ++ [name]) with
    | true =>
      simp only [Bool.not_true, Bool.false_eq_true, if_false, List.not_mem_nil, false_iff, not_and]
      intro hpre
      rw [Tree.isPresent_of_prefix present hpre]
      decide
    | false =>
      simp only [Bool.not_false, if_true, List.mem_cons, ih, List.prefix_concat_iff]
      constructor
      · rintro (rfl | ⟨hpre, hmissing⟩)
        · exact ⟨.inl rfl, present⟩
        · exact ⟨.inr hpre, hmissing⟩
      · rintro ⟨rfl | hpre, hmissing⟩
        · exact .inl rfl
        · exact .inr ⟨hpre, hmissing⟩

/-- Deeper directories come first. -/
theorem maskDirectories_sorted (tree : Tree) (path : Path) :
    (maskDirectories tree path).Pairwise fun first second => second.length < first.length := by
  have sorted : (Path.ancestors path).Pairwise fun first second : Path =>
      second.length < first.length := by
    induction path using List.reverseRecOn with
    | nil => simp [Path.ancestors]
    | append_singleton parent name ih =>
      rw [Path.ancestors_snoc, List.pairwise_cons]
      refine ⟨fun other mem => ?_, ih⟩
      have := ((Path.mem_ancestors parent other).mp mem).length_le
      rw [List.length_append, List.length_singleton]
      omega
  exact sorted.sublist (List.takeWhile_sublist _)

/-! ## What is held -/

/-- The missing directories are there, and nothing else is new but markers in them. -/
structure Holding (name : String) (original : Tree) (directories : List Path) (tree : Tree) :
    Prop where
  missing : ∀ directory ∈ directories, original.entry directory = none
  made : ∀ directory ∈ directories, tree.entry directory = some .directory
  rest : ∀ path, path ∉ directories → tree.entry path = original.entry path ∨
    tree.entry path = some .file ∧ ∃ directory ∈ directories, path = directory ++ [name]

variable {directories : List Path}

theorem Holding.start (tree : Tree) : Holding name tree [] tree :=
  ⟨nofun, nofun, fun _ _ => .inl rfl⟩

theorem Holding.congr {others : List Path} (holding : Holding name original directories tree)
    (same : ∀ directory, directory ∈ others ↔ directory ∈ directories) :
    Holding name original others tree := by
  constructor
  · exact fun directory mem => holding.missing directory ((same directory).mp mem)
  · exact fun directory mem => holding.made directory ((same directory).mp mem)
  · intro path away
    rw [same] at away
    refine (holding.rest path away).imp_right fun ⟨file, directory, mem, heq⟩ => ?_
    exact ⟨file, directory, (same directory).mpr mem, heq⟩

/-- Below a missing directory nothing was. -/
theorem Holding.child (holding : Holding name original directories tree)
    (mem : directory ∈ directories) (name : String) : original.entry (directory ++ [name]) = none :=
  Tree.entry_below (by rw [holding.missing directory mem]; nofun) (by simp)

/-- Where the directory can be made, whatever stood on the way is a directory. -/
theorem Holding.ancestor (holding : Holding name original directories tree)
    (dir : ∀ above, above <+: path → (tree.createDirAll path).entry above = some .directory)
    {above : Path} (hpre : above <+: path) (away : above ∉ directories) {kind : Kind}
    (hkind : original.entry above = some kind) : kind = .directory := by
  have found : ∀ kind, tree.entry above = some kind → kind = .directory := by
    intro kind hkind
    have stays : (tree.createDirAll path).entry above = some kind :=
      Tree.entry_createDirAll_of_some hkind
    rw [dir above hpre] at stays
    exact (Option.some.inj stays).symm
  rcases holding.rest above away with same | ⟨file, -⟩
  · exact found kind (same.trans hkind)
  · cases found _ file

theorem Holding.create (holding : Holding name original directories tree)
    (unmarked : Unmarked original) (made : (tree.createDirAll path).isDir path = true) :
    Holding name original (directories ++ maskDirectories original path)
      (tree.createDirAll path) := by
  have dir : ∀ above, above <+: path → (tree.createDirAll path).entry above = some .directory :=
    fun above hpre => Tree.entry_of_prefix_dir (by simpa [Tree.isDir] using made) hpre
  constructor
  · intro directory mem
    by_cases known : directory ∈ directories
    · exact holding.missing directory known
    · rw [List.mem_append, mem_maskDirectories unmarked] at mem
      obtain ⟨hpre, missing⟩ := mem.resolve_left known
      cases hentry : original.entry directory with
      | none => rfl
      | some kind =>
        rw [holding.ancestor dir hpre known hentry] at hentry
        simp [Tree.isPresent, hentry] at missing
  · intro directory mem
    rcases List.mem_append.mp mem with mem | mem
    · exact Tree.entry_createDirAll_of_some (holding.made directory mem)
    · exact dir directory ((mem_maskDirectories unmarked).mp mem).1
  · intro other away
    rw [List.mem_append, not_or, mem_maskDirectories unmarked] at away
    obtain ⟨away, present⟩ := away
    by_cases hpre : other <+: path
    · left
      have known : original.isPresent other = true := by
        by_contra missing
        exact present ⟨hpre, by simpa using missing⟩
      have some : ∃ kind, original.entry other = some kind := by
        simp only [Tree.isPresent, Bool.or_eq_true, beq_iff_eq] at known
        exact known.elim (fun h => ⟨_, h⟩) fun h => ⟨_, h⟩
      obtain ⟨kind, hkind⟩ := some
      rw [dir other hpre, hkind, holding.ancestor dir hpre away hkind]
    · rw [Tree.entry_createDirAll_elsewhere hpre]
      refine (holding.rest other away).imp_right ?_
      rintro ⟨file, directory, mem, heq⟩
      exact ⟨file, directory, List.mem_append_left _ mem, heq⟩

theorem Holding.write (holding : Holding name original directories tree)
    (mem : directory ∈ directories) :
    Holding name original directories (tree.writeFile (directory ++ [name])) := by
  refine ⟨holding.missing, fun other hother => Tree.entry_put_of_some (holding.made other hother),
    fun other away => ?_⟩
  rw [Tree.writeFile, Tree.entry_put]
  split
  · next h => exact .inr ⟨rfl, directory, mem, h.1⟩
  · exact holding.rest other away

theorem Holding.writes (holding : Holding name original directories tree) {left : List Path}
    (mem : ∀ directory ∈ left, directory ∈ directories) :
    Holding name original directories (writeMarkers name left tree).2 ∧
      ∀ marked, (writeMarkers name left tree).1 = some marked →
        marked = left.map fun directory => directory ++ [name] := by
  induction left generalizing tree with
  | nil => exact ⟨holding, fun _ h => (Option.some.inj h).symm⟩
  | cons directory rest ih =>
    rw [List.forall_mem_cons] at mem
    have once := holding.write mem.1
    unfold writeMarkers
    dsimp only
    split
    · obtain ⟨after, all⟩ := ih once mem.2
      refine ⟨after, fun marked h => ?_⟩
      obtain ⟨others, hothers, rfl⟩ := Option.map_eq_some_iff.mp h
      rw [all others hothers, List.map_cons]
    · refine ⟨once, fun marked h => ?_⟩
      cases h

theorem Holding.clean (holding : Holding name original directories tree)
    (unmarked : Unmarked original) (alive : Text → Bool) (directory : Path) :
    Holding name original directories (removeDeadMarkers alive tree directory) := by
  refine ⟨holding.missing, fun other mem => ?_, fun path away => ?_⟩
  · rcases entry_removeDeadMarkers alive tree directory other with same | ⟨-, -, file, -⟩
    · exact same.trans (holding.made other mem)
    · exact absurd (holding.made other mem) file
  · rcases entry_removeDeadMarkers alive tree directory path with
      same | ⟨⟨name, rfl, marker⟩, -, -, gone⟩
    · rw [same]
      exact holding.rest path away
    · exact .inl (gone.trans (unmarked directory name marker).symm)

theorem Holding.cleans (holding : Holding name original directories tree)
    (unmarked : Unmarked original) (alive : Text → Bool) (left : List Path) :
    Holding name original directories (left.foldl (removeDeadMarkers alive) tree) := by
  induction left generalizing tree with
  | nil => exact holding
  | cons directory rest ih => exact ih (holding.clean unmarked alive directory)

theorem Holding.mark {alive : Text → Bool} {mask : Mask} {attempts : Nat} {marked : List Path}
    {after : Tree} (holding : Holding name original directories tree) (unmarked : Unmarked original)
    (needs : mask.directories = maskDirectories original mask.path)
    (h : markInUse alive name mask attempts tree = (some marked, after)) :
    Holding name original (directories ++ mask.directories) after ∧
      marked = mask.directories.reverse.map fun directory => directory ++ [name] := by
  induction attempts generalizing directories tree with
  | zero => cases h
  | succ attempts ih =>
    unfold markInUse at h
    dsimp only at h
    split at h
    · cases h
    · rename_i made
      have created := holding.create unmarked (by simpa using made)
      rw [← needs] at created
      have own : ∀ directory ∈ mask.directories.reverse, directory ∈ directories ++ mask.directories :=
        fun directory mem => List.mem_append_right _ (List.mem_reverse.mp mem)
      obtain ⟨written, all⟩ := created.writes own
      split at h
      · rename_i heq
        rw [heq] at written all
        rw [Prod.mk.injEq, Option.some.injEq] at h
        obtain ⟨rfl, rfl⟩ := h
        exact ⟨written.cleans unmarked alive _, all _ rfl⟩
      · -- What the attempt has made is there when the next one starts.
        rename_i heq
        rw [heq] at written
        obtain ⟨again, all⟩ := ih written h
        refine ⟨again.congr fun directory => ?_, all⟩
        simp only [List.mem_append]
        tauto

/-- The masks that are held so far. -/
structure HeldSo (name : String) (original : Tree) (held : HeldMasks × Tree) : Prop where
  holding : Holding name original held.1.directories held.2
  markers : ∀ marker, marker ∈ held.1.markers ↔
    ∃ directory ∈ held.1.directories, marker = directory ++ [name]

theorem HeldSo.holdMask {alive : Text → Bool} {mask : Mask} {held : HeldMasks × Tree}
    (so : HeldSo name original held) (unmarked : Unmarked original)
    (needs : mask.directories = maskDirectories original mask.path)
    (holds : (markInUse alive name mask markAttempts held.2).1.isSome = true) :
    HeldSo name original (holdMask alive name held mask) ∧
      (Sandbox.holdMask alive name held mask).1.directories =
        held.1.directories ++ mask.directories := by
  unfold Sandbox.holdMask
  split
  · rename_i marked after heq
    obtain ⟨holding, rfl⟩ := so.holding.mark unmarked needs heq
    refine ⟨⟨holding, fun marker => ?_⟩, rfl⟩
    rw [List.mem_append, so.markers]
    simp only [List.mem_append, List.mem_map, List.mem_reverse, or_and_right, exists_or,
      eq_comm (a := marker)]
  · rename_i heq
    rw [heq] at holds
    cases holds

theorem heldSo_hold {alive : Text → Bool} {plan : MaskPlan} (unmarked : Unmarked original)
    (needs : ∀ mask ∈ plan, mask.directories = maskDirectories original mask.path)
    (holds : HoldsAll alive name plan original) :
    HeldSo name original (plan.hold alive name original) ∧
      (plan.hold alive name original).1.directories = plan.flatMap (·.directories) := by
  have every : ∀ held : HeldMasks × Tree, HeldSo name original held →
      Along (Sandbox.holdMask alive name)
        (fun held mask => (markInUse alive name mask markAttempts held.2).1.isSome = true) held plan →
      HeldSo name original (plan.foldl (Sandbox.holdMask alive name) held) ∧
        (plan.foldl (Sandbox.holdMask alive name) held).1.directories =
          held.1.directories ++ plan.flatMap (·.directories) := by
    clear holds
    induction plan with
    | nil => exact fun held so _ => ⟨so, (List.append_nil _).symm⟩
    | cons mask rest ih =>
      intro held so holds
      rw [List.forall_mem_cons] at needs
      obtain ⟨once, own⟩ := so.holdMask unmarked needs.1 holds.1
      obtain ⟨all, directories⟩ := ih needs.2 _ once holds.2
      refine ⟨all, ?_⟩
      rw [List.foldl_cons, directories, own, List.flatMap_cons, List.append_assoc]
  exact every _ ⟨.start original, by simp⟩ holds

/-! ## What is given back -/

/-- A missing parent of what is left is left too. -/
def Climbs (original : Tree) (directories : List Path) : Prop :=
  ∀ left, left <:+ directories → ∀ directory name, directory ++ [name] ∈ left →
    original.entry directory = none → directory ∈ left

theorem Climbs.append {first second : List Path} (climbs : Climbs original first)
    (climbs' : Climbs original second) : Climbs original (first ++ second) := by
  intro left suffix directory name mem missing
  rcases List.suffix_or_suffix_of_suffix suffix (List.suffix_append first second) with
    suffix | ⟨front, rfl⟩
  · exact climbs' left suffix directory name mem missing
  · obtain ⟨before, heq⟩ := suffix
    rw [← List.append_assoc, List.append_cancel_right_eq] at heq
    refine List.mem_append.mpr ((List.mem_append.mp mem).imp (fun mem => ?_) fun mem => ?_)
    · exact climbs front ⟨before, heq⟩ directory name mem missing
    · exact climbs' second (List.suffix_refl _) directory name mem missing

theorem climbs_maskDirectories (unmarked : Unmarked original) (path : Path) :
    Climbs original (maskDirectories original path) := by
  rintro left ⟨front, heq⟩ directory name mem missing
  have deep := (mem_maskDirectories unmarked).mp (heq ▸ List.mem_append_right front mem)
  have known : directory ∈ maskDirectories original path := by
    refine (mem_maskDirectories unmarked).mpr ⟨(List.prefix_append _ _).trans deep.1, ?_⟩
    simp [Tree.isPresent, missing]
  rw [← heq, List.mem_append] at known
  refine known.resolve_left fun before => ?_
  have sorted := maskDirectories_sorted original path
  rw [← heq, List.pairwise_append] at sorted
  have shorter := sorted.2.2 directory before _ mem
  rw [List.length_append] at shorter
  omega

theorem climbs_plan {plan : MaskPlan} (unmarked : Unmarked original)
    (needs : ∀ mask ∈ plan, mask.directories = maskDirectories original mask.path) :
    Climbs original (plan.flatMap (·.directories)) := by
  induction plan with
  | nil =>
    intro left suffix directory name mem
    rw [List.flatMap_nil, List.suffix_nil] at suffix
    rw [suffix] at mem
    cases mem
  | cons mask rest ih =>
    rw [List.forall_mem_cons] at needs
    rw [List.flatMap_cons, needs.1]
    exact (climbs_maskDirectories unmarked mask.path).append (ih needs.2)

/-- Of the missing directories only those that are `left` are still there. -/
structure Giving (original : Tree) (directories left : List Path) (tree : Tree) : Prop where
  missing : ∀ directory ∈ directories, original.entry directory = none
  made : ∀ directory ∈ directories,
    tree.entry directory = some .directory ∨ tree.entry directory = none
  gone : ∀ directory ∈ directories, directory ∉ left → tree.entry directory = none
  rest : ∀ path, path ∉ directories → tree.entry path = original.entry path

theorem Holding.unmark {markers : List Path} (holding : Holding name original directories tree)
    (all : ∀ marker, marker ∈ markers ↔ ∃ directory ∈ directories, marker = directory ++ [name]) :
    Giving original directories directories (markers.foldl Tree.removeFile tree) := by
  have made : ∀ directory ∈ directories,
      (markers.foldl Tree.removeFile tree).entry directory = some .directory := by
    intro directory mem
    rw [Tree.entry_removeFiles, if_neg fun h => h.2 (holding.made directory mem)]
    exact holding.made directory mem
  refine ⟨holding.missing, fun directory mem => .inl (made directory mem),
    fun directory mem away => absurd mem away, fun path away => ?_⟩
  rw [Tree.entry_removeFiles]
  split
  · rename_i h
    obtain ⟨directory, mem, rfl⟩ := (all path).mp h.1
    exact (holding.child mem name).symm
  · rename_i h
    rcases holding.rest path away with same | ⟨file, directory, mem, rfl⟩
    · exact same
    · refine absurd ⟨(all _).mpr ⟨directory, mem, rfl⟩, ?_⟩ h
      rw [file]
      simp

theorem Giving.remove {left : List Path} (giving : Giving original directories (directory :: left) tree)
    (mem : directory ∈ directories)
    (climbs : ∀ name, directory ++ [name] ∈ left → directory ∈ left) :
    Giving original directories left (tree.removeDir directory) := by
  have root : directory ≠ [] := by
    rintro rfl
    have : original.entry [] = some .directory := original.root
    rw [giving.missing [] mem] at this
    cases this
  -- The last mask that needs the directory finds it empty.
  have empty : directory ∉ left → tree.isEmpty directory = true := by
    intro last
    rw [Tree.isEmpty_iff]
    intro name
    by_cases own : directory ++ [name] ∈ directories
    · refine giving.gone _ own fun left => ?_
      rcases List.mem_cons.mp left with same | left
      · simpa using congrArg List.length same
      · exact last (climbs name left)
    · rw [giving.rest _ own]
      exact Tree.entry_below (by rw [giving.missing directory mem]; simp) (by simp)
  refine ⟨giving.missing, fun other hother => ?_, fun other hother away => ?_, fun path away => ?_⟩
  · rw [Tree.entry_removeDir]
    split
    · exact .inr rfl
    · exact giving.made other hother
  · rw [Tree.entry_removeDir]
    split
    · rfl
    · rename_i h
      by_cases same : other = directory
      · subst same
        refine (giving.made other mem).resolve_left fun dir => ?_
        exact h ⟨rfl, root, dir, empty away⟩
      · exact giving.gone other hother (by simp [same, away])
  · rw [Tree.entry_removeDir, if_neg, giving.rest path away]
    rintro ⟨rfl, -⟩
    exact away mem

theorem Giving.removes {left : List Path} (giving : Giving original directories left tree)
    (suffix : left <:+ directories) (climbs : Climbs original directories) :
    Giving original directories [] (left.foldl Tree.removeDir tree) := by
  induction left generalizing tree with
  | nil => exact giving
  | cons directory rest ih =>
    have later : rest <:+ directories := (List.suffix_cons directory rest).trans suffix
    have mem : directory ∈ directories := suffix.subset List.mem_cons_self
    refine ih (giving.remove mem fun name below => ?_) later
    exact climbs rest later directory name below (giving.missing directory mem)

end

def emptyRepo : Tree := ⟨[([], .directory), (["repo"], .directory)], rfl, by decide +kernel⟩

/-- Denies that share a parent and lie inside each other. -/
def denyGit : ResolvedSandbox :=
  { localhost := false, readDeny := [], writeAllow := [["repo"]]
    writeDeny := [["repo", ".git", "config"], ["repo", ".git"], ["repo", ".git", "hooks"]]
    executables := none, workingDirectory := ["repo"], program := ["bin", "true"] }

end Beez.Sandbox
