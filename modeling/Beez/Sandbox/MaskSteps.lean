import Beez.Sandbox.MaskRuns

/-! # What one run does to the host -/

open Beez.Lib

namespace Beez.Sandbox

/-! ## Names of markers -/

theorem markerName_inj {pid sequence pid' sequence' : Nat}
    (h : markerName pid sequence = markerName pid' sequence') :
    pid = pid' ∧ sequence = sequence' := by
  have noDash : ∀ n, '-' ∉ decimal n := not_mem_decimal (by decide)
  unfold markerName at h
  rw [String.ofList_inj] at h
  have hcut := congrArg (Text.rsplitOnce '-') h
  rw [Text.rsplitOnce_append _ (noDash sequence), Text.rsplitOnce_append _ (noDash sequence')] at hcut
  simp only [Option.some.injEq, Prod.mk.injEq, List.append_cancel_left_eq] at hcut
  exact ⟨decimal_inj hcut.1, decimal_inj hcut.2⟩

theorem markerOwner_markerName (directory : Path) (pid sequence : Nat) :
    markerOwner (directory ++ [markerName pid sequence]) = decimal pid := by
  have hclear : ∀ c ∈ decimal pid, (c != '-') = true := by
    intro c hc
    rw [bne_iff_ne]
    rintro rfl
    exact not_mem_decimal (by decide) pid hc
  have hstrip :
      Text.stripPrefix markerPrefix (markerPrefix ++ decimal pid ++ '-' :: decimal sequence) =
        some (decimal pid ++ '-' :: decimal sequence) := by
    simp [Text.stripPrefix]
  simp only [markerOwner, markerName, List.getLast?_append, List.getLast?_singleton, Option.some_or,
    Option.map_some, Option.getD_some, String.toList_ofList, hstrip]
  rw [List.takeWhile_append_of_pos hclear]
  simp

/-! ## Dead markers -/

/-- Removing dead markers takes nothing but markers whose owner is gone, and no directory. -/
theorem entry_removeDeadMarkers (alive : Text → Bool) (tree : Tree) (directory path : Path) :
    (removeDeadMarkers alive tree directory).entry path = tree.entry path ∨
      (∃ name, path = directory ++ [name] ∧ isMarker name = true) ∧
        alive (markerOwner path) = false ∧ tree.entry path ≠ some .directory ∧
        (removeDeadMarkers alive tree directory).entry path = none := by
  have named : ∀ marker ∈ tree.markers directory, ∃ name, marker = directory ++ [name] ∧
      isMarker name = true := by
    intro marker mem
    obtain ⟨name, heq, hmarker, -⟩ := mem_markers.mp mem
    exact ⟨name, heq, hmarker⟩
  unfold removeDeadMarkers
  generalize tree.markers directory = markers at named
  induction markers generalizing tree with
  | nil => exact .inl rfl
  | cons marker rest ih =>
    rw [List.forall_mem_cons] at named
    rw [List.foldl_cons]
    split
    · exact ih tree named.2
    · next dead =>
      have later := ih (tree.removeFile marker) named.2
      rw [Tree.entry_removeFile] at later
      split at later
      · next h =>
        obtain ⟨rfl, file⟩ := h
        exact .inr ⟨named.1, by simpa using dead, file, later.elim id fun h => h.2.2.2⟩
      · exact later

/-! ## What a step of one run touches -/

namespace MaskRun

/-- The directories that a run has planned to make, and may remove. -/
def planned (run : MaskRun) : List Path :=
  run.plan.flatMap (·.directories) ++
    match run.phase with
    | .planning walk _ => walk.gathered
    | _ => []

/-- What each phase has still to do stays within the plan. -/
def Within (run : MaskRun) : Phase → Prop
  | .planning walk denied =>
    Clear walk.path ∧ (∀ directory ∈ walk.gathered ++ walk.rest, directory <+: walk.path) ∧
      ∀ path ∈ denied, Clear path
  | .binding denied => ∀ path ∈ denied, Clear path
  | .creating _ mask masks => mask ∈ run.plan ∧ ∀ mask ∈ masks, mask ∈ run.plan
  | .marking _ left written mask masks =>
    mask ∈ run.plan ∧ (∀ directory ∈ left, directory ∈ mask.directories) ∧
      (∀ marker ∈ written, ∃ directory, marker = directory ++ [run.name]) ∧
        ∀ mask ∈ masks, mask ∈ run.plan
  | .cleaning left masks =>
    (∀ directory ∈ left, ∃ mask ∈ run.plan, directory ∈ mask.directories) ∧
      ∀ mask ∈ masks, mask ∈ run.plan
  | .unmarking left => ∀ marker ∈ left, ∃ directory, marker = directory ++ [run.name]
  | .removing left => ∀ directory ∈ left, ∃ mask ∈ run.plan, directory ∈ mask.directories
  | .ready | .running | .ended => True

structure Stocked (run : MaskRun) : Prop where
  denies : ∀ path ∈ run.resolved.writeDeny, Clear path
  masks : ∀ mask ∈ run.plan, Clear mask.path ∧ ∀ directory ∈ mask.directories, Clear directory
  bound : ∀ path ∈ run.bound, Clear path
  markers : ∀ marker ∈ run.held.markers, ∃ directory, marker = directory ++ [run.name]
  directories : ∀ directory ∈ run.held.directories, ∃ mask ∈ run.plan, directory ∈ mask.directories

structure Sane (run : MaskRun) : Prop extends Stocked run where
  phase : run.Within run.phase

theorem planned_of_mask {run : MaskRun} {mask : Mask} {directory : Path} (hmask : mask ∈ run.plan)
    (h : directory ∈ mask.directories) : directory ∈ run.planned :=
  List.mem_append_left _ (List.mem_flatMap.mpr ⟨mask, hmask, h⟩)

/-- The run has ended and gives its masks back. -/
def Dropping (run : MaskRun) : Prop :=
  (∃ left, run.phase = .unmarking left) ∨ ∃ left, run.phase = .removing left

/-- What the next step of a run may touch. -/
inductive Touches (run : MaskRun) : Effect → Prop
  | look : Touches run .look
  | create {path} : Clear path → Touches run (.create path)
  | mark {directory} : run.phase ≠ .ended → directory ∈ run.planned → Touches run (.mark directory)
  | clean {directory} : Touches run (.clean directory)
  | unmark {directory} : run.Dropping → Touches run (.unmark (directory ++ [run.name]))
  | remove {directory} : run.Dropping → directory ∈ run.planned → Clear directory →
      Touches run (.remove directory)

theorem Sane.touches {run : MaskRun} (sane : run.Sane) : run.Touches run.effect := by
  have hphase := sane.phase
  unfold effect
  cases h : run.phase with
  | creating attempts mask masks =>
    rw [h] at hphase
    exact .create (sane.masks mask hphase.1).1
  | marking attempts left written mask masks =>
    rw [h] at hphase
    cases left with
    | nil => exact .look
    | cons directory rest =>
      have hmem := hphase.2.1 directory (by simp)
      exact .mark (by simp [h]) (planned_of_mask hphase.1 hmem)
  | cleaning left masks =>
    cases left with
    | nil => exact .look
    | cons directory rest => exact .clean
  | unmarking left =>
    rw [h] at hphase
    cases left with
    | nil => exact .look
    | cons marker rest =>
      obtain ⟨directory, rfl⟩ := hphase marker (by simp)
      exact .unmark (.inl ⟨_, h⟩)
  | removing left =>
    rw [h] at hphase
    cases left with
    | nil => exact .look
    | cons directory rest =>
      obtain ⟨mask, hmask, hmem⟩ := hphase directory (by simp)
      exact .remove (.inr ⟨_, h⟩) (planned_of_mask hmask hmem) ((sane.masks mask hmask).2 _ hmem)
  | _ => exact .look

/-! ## What a step leaves on the host -/

variable {run other : MaskRun} {effect : Effect} {tree : Tree} {alive : Text → Bool} {target : Path}

theorem not_clear_own (run : MaskRun) (directory : Path) : ¬Clear (directory ++ [run.name]) :=
  not_clear_marker (isMarker_markerName _ _)

/-- What a step takes away is a marker of its own, an empty directory of its plan, or a marker
whose owner is gone. What it adds is a directory, or a marker in a directory of its plan. -/
theorem Touches.entry (touches : other.Touches effect) (tree : Tree) (alive : Text → Bool)
    (path : Path) :
    (effect.apply alive other.name tree).entry path = tree.entry path ∨
      (effect.apply alive other.name tree).entry path = none ∧
        ((other.Dropping ∧ ∃ directory, path = directory ++ [other.name]) ∨
          (other.Dropping ∧ path ∈ other.planned ∧ Clear path ∧ tree.isEmpty path = true) ∨
            ¬Clear path ∧ alive (markerOwner path) = false) ∨
      tree.entry path = none ∧
        (Clear path ∨ other.phase ≠ .ended ∧
          ∃ directory ∈ other.planned, path = directory ++ [other.name]) := by
  cases touches with
  | look => exact .inl rfl
  | @create made hclear =>
    cases hentry : tree.entry path with
    | some kind => exact .inl (Tree.entry_createDirAll_of_some hentry)
    | none =>
      by_cases hpath : Clear path
      · exact .inr (.inr ⟨rfl, .inl hpath⟩)
      · rw [Effect.apply, Tree.entry_createDirAll_elsewhere, hentry]
        · exact .inl rfl
        · exact fun hpre => hpath (hclear.above hpre)
  | @mark directory hphase hplanned =>
    cases hentry : tree.entry path with
    | some kind => exact .inl (Tree.entry_put_of_some hentry)
    | none =>
      by_cases hpath : path = directory ++ [other.name]
      · exact .inr (.inr ⟨rfl, .inr ⟨hphase, directory, hplanned, hpath⟩⟩)
      · exact .inl ((Tree.entry_put_of_ne hpath).trans hentry)
  | @clean directory =>
    rcases entry_removeDeadMarkers alive tree directory path with
      hsame | ⟨⟨name, rfl, hmarker⟩, hdead, -, hnone⟩
    · exact .inl hsame
    · exact .inr (.inl ⟨hnone, .inr (.inr ⟨not_clear_marker hmarker, hdead⟩)⟩)
  | @unmark directory dropping =>
    have left := tree.entry_removeFile (directory ++ [other.name]) path
    split at left
    · next h => exact .inr (.inl ⟨left, .inl ⟨dropping, directory, h.1⟩⟩)
    · exact .inl left
  | @remove directory dropping hplanned hclear =>
    have left := tree.entry_removeDir directory path
    split at left
    · next h =>
      obtain ⟨rfl, -, -, hempty⟩ := h
      exact .inr (.inl ⟨left, .inr (.inl ⟨dropping, hplanned, hclear, hempty⟩)⟩)
    · exact .inl left

theorem Touches.marker_stays (touches : other.Touches effect)
    (halive : alive (decimal run.pid) = true) (hother : other.name = run.name → ¬other.Dropping)
    (hentry : tree.entry (target ++ [run.name]) ≠ none) :
    (effect.apply alive other.name tree).entry (target ++ [run.name]) ≠ none := by
  rcases touches.entry tree alive (target ++ [run.name]) with hsame | ⟨-, htaken⟩ | ⟨hnone, -⟩
  · rwa [hsame]
  · rcases htaken with ⟨dropping, directory, heq⟩ | ⟨-, -, hclear, -⟩ | ⟨-, hdead⟩
    · exact absurd dropping (hother (by simpa using (List.append_inj' heq rfl).2.symm))
    · exact absurd hclear (run.not_clear_own target)
    · rw [name, markerOwner_markerName, halive] at hdead
      cases hdead
  · exact absurd hnone hentry

theorem Touches.content_stays (touches : other.Touches effect) (hclear : Clear target)
    (hunclaimed : other.Dropping → target ∉ other.planned) (hpresent : tree.isPresent target = true) :
    (effect.apply alive other.name tree).isPresent target = true := by
  rcases touches.entry tree alive target with hsame | ⟨-, htaken⟩ | ⟨hnone, -⟩
  · rwa [Tree.isPresent, hsame]
  · rcases htaken with ⟨-, directory, rfl⟩ | ⟨dropping, hplanned, -⟩ | ⟨hmarker, -⟩
    · exact absurd hclear (other.not_clear_own directory)
    · exact absurd hplanned (hunclaimed dropping)
    · exact absurd hclear hmarker
  · simp [Tree.isPresent, hnone] at hpresent

/-- No marker comes to it but that of a run that has planned to make it. -/
theorem Touches.marks (touches : other.Touches effect) (hunmarked : tree.isMarked target = false)
    (hmarked : (effect.apply alive other.name tree).isMarked target = true) :
    other.phase ≠ .ended ∧ target ∈ other.planned ∧
      (effect.apply alive other.name tree).entry (target ++ [other.name]) ≠ none := by
  obtain ⟨name, hname, hentry⟩ := isMarked_iff.mp hmarked
  have hnone : tree.entry (target ++ [name]) = none := by
    by_contra hsome
    rw [isMarked_iff.mpr ⟨name, hname, hsome⟩] at hunmarked
    cases hunmarked
  rcases touches.entry tree alive (target ++ [name]) with hsame | ⟨hgone, -⟩ | ⟨-, hadded⟩
  · exact absurd (hsame.trans hnone) hentry
  · exact absurd hgone hentry
  · rcases hadded with hclear | ⟨hphase, directory, hplanned, heq⟩
    · exact absurd hclear (not_clear_marker hname)
    · obtain ⟨rfl, hsame⟩ := List.append_inj' heq rfl
      rw [List.singleton_inj] at hsame
      subst hsame
      exact ⟨hphase, hplanned, hentry⟩

/-! ## How a run goes on -/

@[simp] theorem planNext_name (run : MaskRun) (denied : List Path) :
    (run.planNext denied).name = run.name := by
  cases denied <;> rfl

theorem advance_same (run : MaskRun) (tree : Tree) : (run.advance tree).pid = run.pid ∧
    (run.advance tree).sequence = run.sequence ∧ (run.advance tree).resolved = run.resolved := by
  unfold advance planStep finishWalk planNext retry holdNext
  split <;> (repeat' split) <;> exact ⟨rfl, rfl, rfl⟩

theorem Stocked.goes (stocked : run.Stocked) {phase : Phase} (hphase : run.Within phase) :
    Sane { run with phase } :=
  ⟨⟨stocked.denies, stocked.masks, stocked.bound, stocked.markers, stocked.directories⟩, hphase⟩

theorem Stocked.planNext (stocked : run.Stocked) {denied : List Path}
    (hdenied : ∀ path ∈ denied, Clear path) : (run.planNext denied).Sane := by
  cases denied with
  | nil => exact stocked.goes stocked.denies
  | cons path rest =>
    refine stocked.goes ⟨hdenied path (by simp), ?_, fun other hmem => hdenied other (by simp [hmem])⟩
    intro directory hmem
    exact (Path.mem_ancestors path directory).mp hmem

theorem Stocked.finishWalk (stocked : run.Stocked) {walk : Walk} {denied : List Path}
    (hpath : Clear walk.path) (hgathered : ∀ directory ∈ walk.gathered, directory <+: walk.path)
    (hdenied : ∀ path ∈ denied, Clear path) : (run.finishWalk walk denied).Sane := by
  refine Stocked.planNext ?_ hdenied
  split
  · exact stocked
  · have hold : ∀ mask ∈ run.plan, mask ∈ run.plan ++ [Mask.mk walk.path walk.gathered] :=
      fun mask hmem => List.mem_append_left _ hmem
    refine ⟨stocked.denies, ?_, stocked.bound, stocked.markers, ?_⟩
    · intro mask hmem
      rcases List.mem_append.mp hmem with hmem | hmem
      · exact stocked.masks mask hmem
      · rw [List.mem_singleton.mp hmem]
        exact ⟨hpath, fun directory hdir => hpath.above (hgathered directory hdir)⟩
    · intro directory hmem
      obtain ⟨mask, hmask, hdir⟩ := stocked.directories directory hmem
      exact ⟨mask, hold mask hmask, hdir⟩

theorem Stocked.holdNext (stocked : run.Stocked) {masks : List Mask}
    (hmasks : ∀ mask ∈ masks, mask ∈ run.plan) : (run.holdNext masks).Sane := by
  cases masks with
  | nil => exact stocked.goes trivial
  | cons mask rest =>
    exact stocked.goes ⟨hmasks mask (by simp), fun other hmem => hmasks other (by simp [hmem])⟩

theorem Stocked.planStep (stocked : run.Stocked) {walk : Walk} {denied : List Path}
    (within : run.Within (.planning walk denied)) (tree : Tree) :
    (run.planStep tree walk denied).Sane := by
  obtain ⟨hpath, hwalk, hdenied⟩ := within
  have hgathered : ∀ directory ∈ walk.gathered, directory <+: walk.path :=
    fun directory hmem => hwalk directory (List.mem_append_left _ hmem)
  unfold MaskRun.planStep
  split
  · exact stocked.finishWalk hpath hgathered hdenied
  · next directory rest hrest =>
    rw [hrest] at hwalk
    split
    · refine stocked.goes ⟨hpath, ?_, hdenied⟩
      rwa [hrest]
    · split
      · exact stocked.finishWalk hpath hgathered hdenied
      · refine stocked.goes ⟨hpath, ?_, hdenied⟩
        simpa using hwalk

theorem Stocked.binds (stocked : run.Stocked) {path : Path} {denied : List Path}
    (hpath : Clear path) (hdenied : ∀ path ∈ denied, Clear path) :
    Sane { run with bound := run.bound ++ [path], phase := .binding denied } := by
  refine ⟨⟨stocked.denies, stocked.masks, ?_, stocked.markers, stocked.directories⟩, hdenied⟩
  intro other hmem
  rcases List.mem_append.mp hmem with hmem | hmem
  · exact stocked.bound other hmem
  · rwa [List.mem_singleton.mp hmem]

theorem Stocked.retry (stocked : run.Stocked) (attempts : Nat) {mask : Mask} {masks : List Mask}
    (hmask : mask ∈ run.plan) (hmasks : ∀ mask ∈ masks, mask ∈ run.plan) :
    (run.retry attempts mask masks).Sane := by
  cases attempts with
  | zero => exact stocked.holdNext hmasks
  | succ attempts => exact stocked.goes ⟨hmask, hmasks⟩

theorem Stocked.holds (stocked : run.Stocked) {mask : Mask} {masks : List Mask}
    {written : List Path} (hmask : mask ∈ run.plan) (hmasks : ∀ mask ∈ masks, mask ∈ run.plan)
    (hwritten : ∀ marker ∈ written, ∃ directory, marker = directory ++ [run.name]) :
    Sane { run with
      held := ⟨run.held.markers ++ written, run.held.directories ++ mask.directories⟩
      phase := .cleaning mask.directories masks } := by
  have hneeded : ∀ directory ∈ mask.directories,
      ∃ mask ∈ run.plan, directory ∈ mask.directories :=
    fun directory hmem => ⟨mask, hmask, hmem⟩
  refine ⟨⟨stocked.denies, stocked.masks, stocked.bound, ?_, ?_⟩, hneeded, hmasks⟩
  · intro marker hmem
    rcases List.mem_append.mp hmem with hmem | hmem
    · exact stocked.markers marker hmem
    · exact hwritten marker hmem
  · intro directory hmem
    rcases List.mem_append.mp hmem with hmem | hmem
    · exact stocked.directories directory hmem
    · exact hneeded directory hmem

theorem Sane.advance (sane : run.Sane) (tree : Tree) : (run.advance tree).Sane := by
  have hphase := sane.phase
  unfold MaskRun.advance
  revert hphase
  cases run.phase with
  | planning walk denied =>
    intro hphase
    exact sane.planStep hphase tree
  | binding denied =>
    intro hphase
    cases denied with
    | nil => exact sane.holdNext fun mask hmem => hmem
    | cons path denied =>
      obtain ⟨hpath, hdenied⟩ := List.forall_mem_cons.mp hphase
      dsimp only
      split
      · exact sane.binds hpath hdenied
      · exact sane.goes hdenied
  | creating attempts mask masks =>
    rintro ⟨hmask, hmasks⟩
    dsimp only
    split
    · exact sane.goes ⟨hmask, by simp, by simp, hmasks⟩
    · exact sane.holdNext hmasks
  | marking attempts left written mask masks =>
    rintro ⟨hmask, hleft, hwritten, hmasks⟩
    cases left with
    | nil => exact sane.holds hmask hmasks hwritten
    | cons directory left =>
      dsimp only
      split
      · refine sane.goes ⟨hmask, (List.forall_mem_cons.mp hleft).2, ?_, hmasks⟩
        intro marker hmem
        rcases List.mem_append.mp hmem with hmem | hmem
        · exact hwritten marker hmem
        · exact ⟨directory, List.mem_singleton.mp hmem⟩
      · exact sane.retry attempts hmask hmasks
  | cleaning left masks =>
    rintro ⟨hleft, hmasks⟩
    cases left with
    | nil => exact sane.holdNext hmasks
    | cons directory left => exact sane.goes ⟨(List.forall_mem_cons.mp hleft).2, hmasks⟩
  | ready => exact fun _ => sane.goes trivial
  | running => exact fun _ => sane.goes sane.markers
  | unmarking left =>
    intro hleft
    cases left with
    | nil => exact sane.goes sane.directories
    | cons marker left => exact sane.goes (List.forall_mem_cons.mp hleft).2
  | removing left =>
    intro hleft
    cases left with
    | nil => exact sane.goes trivial
    | cons directory left => exact sane.goes (List.forall_mem_cons.mp hleft).2
  | ended => exact fun _ => sane

theorem Stocked.opened {pid sequence : Nat} {resolved : ResolvedSandbox}
    (hdenies : ∀ path ∈ resolved.writeDeny, Clear path) : (opened pid sequence resolved).Sane := by
  refine Stocked.planNext ⟨hdenies, ?_, ?_, ?_, ?_⟩ ?_
  · simp
  · simp
  · simp
  · simp
  · intro path hmem
    exact hdenies path (List.mem_of_mem_filter hmem)

theorem planned_planNext (run : MaskRun) (denied : List Path) :
    (run.planNext denied).planned = run.plan.flatMap (·.directories) := by
  cases denied <;> simp [planNext, planned]

theorem planned_finishWalk (run : MaskRun) (walk : Walk) (denied : List Path) :
    (run.finishWalk walk denied).planned = run.plan.flatMap (·.directories) ++ walk.gathered := by
  rw [finishWalk, planned_planNext]
  split
  · next h => rw [h, List.append_nil]
  · simp

theorem planned_of_planned (h : ∀ walk denied, run.phase ≠ .planning walk denied) (tree : Tree) :
    (run.advance tree).planned = run.plan.flatMap (·.directories) := by
  unfold MaskRun.advance retry holdNext
  split
  · next hphase => exact absurd hphase (h _ _)
  all_goals (repeat' split) <;> simp_all [planned]

theorem advance_planned (run : MaskRun) (tree : Tree) {directory : Path}
    (h : directory ∈ (run.advance tree).planned) : directory ∈ run.planned ∨
      tree.isPresent directory = false ∨ tree.isMarked directory = true := by
  by_cases hplanning : ∀ walk denied, run.phase ≠ .planning walk denied
  · rw [planned_of_planned hplanning] at h
    exact .inl (List.mem_append_left _ h)
  push Not at hplanning
  obtain ⟨walk, denied, hphase⟩ := hplanning
  have hsame : run.planned = run.plan.flatMap (·.directories) ++ walk.gathered := by
    rw [planned, hphase]
  rw [MaskRun.advance, hphase] at h
  simp only [planStep] at h
  split at h
  · rw [planned_finishWalk, ← hsame] at h
    exact .inl h
  · next next rest _ =>
    split at h
    · rw [hsame]
      exact .inl h
    · next habsent =>
      split at h
      · rw [planned_finishWalk, ← hsame] at h
        exact .inl h
      · next hmarked =>
        simp only [planned, ← List.append_assoc, ← hsame] at h
        rcases List.mem_append.mp h with h | h
        · exact .inl h
        · rw [List.mem_singleton.mp h]
          cases hseen : walk.seen with
          | false => exact .inr (.inl (by simpa [hseen] using habsent))
          | true => exact .inr (.inr (by simpa [hseen] using hmarked))

/-! ## What a run relies on -/

/-- The mount targets that have to stay: those of a run that goes on, and before it starts those
that it has found. -/
def guarding (run : MaskRun) : List Path :=
  match run.phase with
  | .running => run.targets
  | .unmarking _ | .removing _ | .ended => []
  | _ => run.bound

/-- What a run comes to rely on with its next step. -/
def finds (run : MaskRun) (tree : Tree) : List Path :=
  match run.phase with
  | .binding (path :: _) =>
    if run.plan.covers path = false ∧ tree.isPresent path = true then [path] else []
  | .ready => run.plan.map (·.path)
  | _ => []

theorem clear_of_guarding (sane : run.Sane) (h : target ∈ run.guarding) : Clear target := by
  have hbound := sane.bound target
  unfold guarding at h
  split at h
  · rcases List.mem_append.mp h with h | h
    · obtain ⟨mask, hmask, rfl⟩ := List.mem_map.mp h
      exact (sane.masks mask hmask).1
    · exact hbound h
  · cases h
  · cases h
  · cases h
  · exact hbound h

theorem Dropping.not_ended (dropping : run.Dropping) : run.phase ≠ .ended := by
  rcases dropping with ⟨left, h⟩ | ⟨left, h⟩ <;> simp [h]

theorem not_dropping_of_guarding (h : target ∈ run.guarding) : ¬run.Dropping := by
  rintro (⟨left, hphase⟩ | ⟨left, hphase⟩) <;> simp [guarding, hphase] at h

theorem not_ended_of_guarding (h : target ∈ run.guarding) : run.phase ≠ .ended := by
  intro hphase
  simp [guarding, hphase] at h

theorem planNext_guarding (run : MaskRun) (denied : List Path) :
    (run.planNext denied).guarding = run.bound := by
  cases denied <;> rfl

theorem holdNext_guarding (run : MaskRun) (masks : List Mask) :
    (run.holdNext masks).guarding = run.bound := by
  cases masks <;> rfl

theorem finishWalk_guarding (run : MaskRun) (walk : Walk) (denied : List Path) :
    (run.finishWalk walk denied).guarding = run.bound :=
  planNext_guarding _ denied

theorem advance_guarding (run : MaskRun) (tree : Tree) (h : target ∈ (run.advance tree).guarding) :
    target ∈ run.guarding ∨ target ∈ run.finds tree := by
  unfold MaskRun.advance planStep retry at h
  split at h
  case h_3 path denied hphase =>
    have hsame : run.guarding = run.bound := by rw [guarding, hphase]
    split at h
    · next hfound =>
      rcases List.mem_append.mp h with h | h
      · exact .inl (hsame ▸ h)
      · rw [List.mem_singleton.mp h]
        right
        simp [finds, hphase, hfound]
    · exact .inl (hsame ▸ h)
  case h_9 hphase =>
    rcases List.mem_append.mp h with h | h
    · right
      rwa [finds, hphase]
    · left
      rwa [guarding, hphase]
  all_goals
    left
    rename_i hphase
    rw [guarding, hphase]
    (repeat' split at h) <;>
      first
      | exact h
      | rwa [finishWalk_guarding] at h
      | rwa [holdNext_guarding] at h
      | simp [guarding, hphase] at h

theorem effect_of_finds (h : target ∈ run.finds tree) : run.effect = .look ∧ ¬run.Dropping ∧
    run.phase ≠ .ended := by
  unfold finds at h
  split at h
  · next hphase => simp [effect, Dropping, hphase]
  · next hphase => simp [effect, Dropping, hphase]
  · cases h

theorem ended_of_advance (h : (run.advance tree).phase ≠ .ended) : run.phase ≠ .ended := by
  intro hphase
  exact h (by rw [MaskRun.advance, hphase]; exact hphase)

end MaskRun

end Beez.Sandbox
