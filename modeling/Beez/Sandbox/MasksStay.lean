import Beez.Sandbox.MaskSteps

/-! # When mount targets stay on the host -/

open Beez.Lib

namespace Beez.Sandbox

/-! ## What all runs keep -/

namespace Runs

/-- No other run takes the path for a mask of its own. -/
def Unclaimed (runs : List MaskRun) (number : Nat) (path : Path) : Prop :=
  ∀ (number' : Nat) (run : MaskRun), number' ≠ number → runs[number']? = some run →
    run.phase ≠ .ended → path ∉ run.planned

/-- The path has the run's marker, or is content that no run takes for a mask. -/
def Guarded (world : Runs) (number : Nat) (run : MaskRun) (path : Path) : Prop :=
  world.tree.entry (path ++ [run.name]) ≠ none ∨
    world.tree.isPresent path = true ∧ world.tree.isMarked path = false ∧
      Unclaimed world.runs number path

/-- Runs rely only on what is guarded, and none denies a path that looks like a marker. -/
def Careful (world : Runs) : RunsEvent → Prop
  | .begin _ _ resolved => ∀ path ∈ resolved.writeDeny, Clear path
  | .act number _ => ∀ run : MaskRun, world.runs[number]? = some run →
    ∀ path ∈ run.finds world.tree, world.Guarded number run path
  | .giveUp _ => True

instance (runs : List MaskRun) (number : Nat) (path : Path) :
    Decidable (Unclaimed runs number path) :=
  decidable_of_iff (∀ number' (h : number' < runs.length), number' ≠ number →
      runs[number'].phase ≠ .ended → runs[number'].planned.idxOf? path = none)
    ⟨fun free _ _ hne hget hphase => by
        obtain ⟨hlt, rfl⟩ := List.getElem?_eq_some_iff.mp hget
        exact List.idxOf?_eq_none_iff.mp (free _ hlt hne hphase),
      fun free number' hlt hne hphase =>
        List.idxOf?_eq_none_iff.mpr (free number' _ hne (List.getElem?_eq_getElem hlt) hphase)⟩

instance (world : Runs) (number : Nat) (run : MaskRun) (path : Path) :
    Decidable (world.Guarded number run path) :=
  inferInstanceAs (Decidable (_ ∨ _))

instance (world : Runs) : (event : RunsEvent) → Decidable (world.Careful event)
  | .begin _ _ resolved => inferInstanceAs (Decidable (∀ path ∈ resolved.writeDeny, Clear path))
  | .act number _ => inferInstanceAs (Decidable (∀ run ∈ world.runs[number]?,
      ∀ path ∈ run.finds world.tree, world.Guarded number run path))
  | .giveUp _ => inferInstanceAs (Decidable True)

structure Kept (world : Runs) : Prop where
  sane : ∀ {number : Nat} {run : MaskRun}, world.runs[number]? = some run → run.Sane
  distinct : ∀ {number number' : Nat} {run run' : MaskRun}, world.runs[number]? = some run →
    world.runs[number']? = some run' → run.name = run'.name → number = number'
  guarded : ∀ {number : Nat} {run : MaskRun}, world.runs[number]? = some run → ∀ path ∈ run.guarding,
    world.Guarded number run path

theorem Guarded.present {world : Runs} {number : Nat} {run : MaskRun} {path : Path}
    (h : world.Guarded number run path) : world.tree.isPresent path = true := by
  rcases h with hmarker | hcontent
  · simp [Tree.isPresent, Tree.entry_parent hmarker]
  · exact hcontent.1

variable {world : Runs} {number : Nat} {run : MaskRun}

theorem Unclaimed.set {path : Path} (unclaimed : Unclaimed world.runs number path) {actor : Nat}
    {other other' : MaskRun} (hother : world.runs[actor]? = some other)
    (hnew : actor ≠ number → other'.phase ≠ .ended → path ∉ other'.planned) :
    Unclaimed (world.runs.set actor other') number path := by
  intro third run hne hthird hended
  rcases getElem?_set_cases hother hthird with ⟨rfl, rfl⟩ | ⟨-, hthird⟩
  · exact hnew hne hended
  · exact unclaimed third run hne hthird hended

theorem Kept.set (kept : world.Kept) (hrun : world.runs[number]? = some run) {run' : MaskRun}
    {tree : Tree} (hname : run'.name = run.name) (sane : run'.Sane)
    (own : ∀ path ∈ run'.guarding, Guarded ⟨tree, world.runs.set number run'⟩ number run' path)
    (others : ∀ {number' : Nat} {other : MaskRun}, number' ≠ number →
      world.runs[number']? = some other → ∀ path ∈ other.guarding,
        Guarded ⟨tree, world.runs.set number run'⟩ number' other path) :
    Kept ⟨tree, world.runs.set number run'⟩ := by
  refine ⟨?_, ?_, ?_⟩
  · intro number' other h
    rcases getElem?_set_cases hrun h with ⟨-, rfl⟩ | ⟨-, h⟩
    · exact sane
    · exact kept.sane h
  · intro first second run₁ run₂ h₁ h₂ hsame
    rcases getElem?_set_cases hrun h₁ with ⟨rfl, rfl⟩ | ⟨-, hfirst⟩
    · rcases getElem?_set_cases hrun h₂ with ⟨rfl, rfl⟩ | ⟨-, hsecond⟩
      · rfl
      · exact kept.distinct hrun hsecond (hname.symm.trans hsame)
    · rcases getElem?_set_cases hrun h₂ with ⟨rfl, rfl⟩ | ⟨-, hsecond⟩
      · exact kept.distinct hfirst hrun (hsame.trans hname)
      · exact kept.distinct hfirst hsecond hsame
  · intro number' other h
    rcases getElem?_set_cases hrun h with ⟨rfl, rfl⟩ | ⟨hne, h⟩
    · exact own
    · exact others hne h

/-- A step of `actor` keeps what `number` relies on, unless the step gives it back. -/
theorem Guarded.act {path : Path} (guarded : world.Guarded number run path) (kept : world.Kept)
    {actor : Nat} {other : MaskRun} (hother : world.runs[actor]? = some other)
    (hrun : world.runs[number]? = some run) (hclear : Clear path)
    (hdrop : actor = number → ¬other.Dropping) {alive : Text → Bool}
    (halive : alive (decimal run.pid) = true) :
    Guarded ⟨other.effect.apply alive other.name world.tree, world.runs.set actor
      (other.advance (other.effect.apply alive other.name world.tree))⟩ number run path := by
  have touches := (kept.sane hother).touches
  generalize htree : other.effect.apply alive other.name world.tree = tree
  rcases guarded with hmarker | ⟨hpresent, hunmarked, hunclaimed⟩
  · refine .inl ?_
    rw [← htree]
    refine touches.marker_stays halive ?_ hmarker
    intro hname
    exact hdrop (kept.distinct hother hrun hname)
  · have hfree : other.phase ≠ .ended → path ∈ other.planned → actor = number := by
      intro hended hplanned
      by_contra hne
      exact hunclaimed actor other hne hother hended hplanned
    have hstays : tree.isPresent path = true := by
      rw [← htree]
      refine touches.content_stays hclear ?_ hpresent
      intro dropping hplanned
      exact hdrop (hfree dropping.not_ended hplanned) dropping
    by_cases hmarked : tree.isMarked path = true
    · left
      rw [← htree] at hmarked
      obtain ⟨hended, hplanned, hmarker⟩ := touches.marks hunmarked hmarked
      have hsame := hfree hended hplanned
      subst hsame
      rw [hother] at hrun
      rw [← htree, ← Option.some.inj hrun]
      exact hmarker
    · refine .inr ⟨hstays, by simpa using hmarked, hunclaimed.set hother ?_⟩
      intro hne hended hplanned
      rcases other.advance_planned tree hplanned with hplanned | habsent | hmark
      · exact hunclaimed actor other hne hother (MaskRun.ended_of_advance hended) hplanned
      · rw [hstays] at habsent
        cases habsent
      · exact hmarked hmark

theorem alive_of_alive {alive : Text → Bool} (halive : world.alive alive = true)
    (hrun : world.runs[number]? = some run) (hphase : run.phase ≠ .ended) :
    alive (decimal run.pid) = true := by
  have := List.all_eq_true.mp halive run (List.mem_of_getElem? hrun)
  simpa [hphase] using this

theorem Kept.act (kept : world.Kept) {alive : Text → Bool} (halive : world.alive alive = true)
    (hrun : world.runs[number]? = some run)
    (careful : ∀ path ∈ run.finds world.tree, world.Guarded number run path) :
    Kept ⟨run.effect.apply alive run.name world.tree, world.runs.set number
      (run.advance (run.effect.apply alive run.name world.tree))⟩ := by
  have sane := kept.sane hrun
  have hsame := run.advance_same (run.effect.apply alive run.name world.tree)
  have hname : (run.advance (run.effect.apply alive run.name world.tree)).name = run.name := by
    rw [MaskRun.name, hsame.1, hsame.2.1, MaskRun.name]
  refine kept.set hrun hname (sane.advance _) ?_ ?_
  · intro path hpath
    have hclear := MaskRun.clear_of_guarding (sane.advance _) hpath
    rw [Guarded, hname]
    rcases run.advance_guarding _ hpath with hold | hfound
    · have hended := MaskRun.not_ended_of_guarding hold
      exact (kept.guarded hrun path hold).act kept hrun hrun hclear
        (fun _ => MaskRun.not_dropping_of_guarding hold) (alive_of_alive halive hrun hended)
    · obtain ⟨hlook, hdrop, hended⟩ := MaskRun.effect_of_finds hfound
      rw [hlook] at hfound
      exact (careful path hfound).act kept hrun hrun hclear (fun _ => hdrop)
        (alive_of_alive halive hrun hended)
  · intro number' other hne hother path hpath
    have hended := MaskRun.not_ended_of_guarding hpath
    exact (kept.guarded hother path hpath).act kept hrun hother
      (MaskRun.clear_of_guarding (kept.sane hother) hpath)
      (fun hsame => absurd hsame.symm hne) (alive_of_alive halive hother hended)

theorem Kept.giveUp (kept : world.Kept) (hrun : world.runs[number]? = some run)
    (hphase : run.phase = .ready) :
    Kept ⟨world.tree, world.runs.set number { run with phase := .unmarking run.held.markers }⟩ := by
  have sane := kept.sane hrun
  refine kept.set hrun rfl (sane.goes sane.markers) ?_ ?_
  · intro path hpath
    cases hpath
  · intro number' other hne hother path hpath
    rcases kept.guarded hother path hpath with hmarker | ⟨hpresent, hunmarked, hunclaimed⟩
    · exact .inl hmarker
    · refine .inr ⟨hpresent, hunmarked, hunclaimed.set hrun ?_⟩
      intro hactor _
      have := hunclaimed number run hactor hrun (by simp [hphase])
      simpa [MaskRun.planned, hphase] using this

theorem Guarded.begin {path : Path} (guarded : world.Guarded number run path) (pid sequence : Nat)
    (resolved : ResolvedSandbox) :
    Guarded ⟨world.tree, world.runs ++ [.opened pid sequence resolved]⟩ number run path := by
  rcases guarded with hmarker | ⟨hpresent, hunmarked, hunclaimed⟩
  · exact .inl hmarker
  · refine .inr ⟨hpresent, hunmarked, ?_⟩
    intro number' other hne hget hended
    rw [List.getElem?_append] at hget
    split at hget
    · exact hunclaimed number' other hne hget hended
    · rw [List.mem_singleton.mp (List.mem_of_getElem? hget), MaskRun.opened,
        MaskRun.planned_planNext]
      simp

theorem Kept.begin (kept : world.Kept) {pid sequence : Nat} {resolved : ResolvedSandbox}
    (hnew : ∀ run ∈ world.runs, ¬(run.pid = pid ∧ run.sequence = sequence))
    (hdenies : ∀ path ∈ resolved.writeDeny, Clear path) :
    Kept ⟨world.tree, world.runs ++ [.opened pid sequence resolved]⟩ := by
  have hget : ∀ {number' : Nat} {other : MaskRun},
      (world.runs ++ [MaskRun.opened pid sequence resolved])[number']? = some other →
      world.runs[number']? = some other ∨
        number' = world.runs.length ∧ other = .opened pid sequence resolved := by
    intro number' other h
    rw [List.getElem?_append] at h
    split at h
    · exact .inl h
    · rw [List.getElem?_singleton] at h
      split at h
      · exact .inr ⟨by omega, (Option.some.inj h).symm⟩
      · cases h
  have hother : ∀ {number' : Nat} {other : MaskRun}, world.runs[number']? = some other →
      other.name ≠ markerName pid sequence := by
    intro number' other h hsame
    exact hnew other (List.mem_of_getElem? h) (markerName_inj hsame)
  have hname : (MaskRun.opened pid sequence resolved).name = markerName pid sequence :=
    MaskRun.planNext_name _ _
  refine ⟨?_, ?_, ?_⟩
  · intro number' other h
    rcases hget h with h | ⟨-, rfl⟩
    · exact kept.sane h
    · exact MaskRun.Stocked.opened hdenies
  · intro first second run₁ run₂ h₁ h₂ hsame
    rcases hget h₁ with hfirst | ⟨rfl, rfl⟩ <;> rcases hget h₂ with hsecond | ⟨rfl, rfl⟩
    · exact kept.distinct hfirst hsecond hsame
    · exact absurd (hsame.trans hname) (hother hfirst)
    · exact absurd (hsame.symm.trans hname) (hother hsecond)
    · rfl
  · intro number' other h path hpath
    rcases hget h with h | ⟨-, rfl⟩
    · exact (kept.guarded h path hpath).begin pid sequence resolved
    · rw [MaskRun.opened, MaskRun.planNext_guarding] at hpath
      cases hpath

theorem Kept.step (kept : world.Kept) {event : RunsEvent} (careful : world.Careful event) :
    (world.step event).Kept := by
  unfold Runs.step
  cases event with
  | begin pid sequence resolved =>
    dsimp only
    split
    · exact kept
    · next hnew =>
      refine kept.begin ?_ careful
      simpa using hnew
  | act number alive =>
    dsimp only
    split
    · exact kept
    · next run hrun =>
      split
      · next halive => exact kept.act halive hrun (careful run hrun)
      · exact kept
  | giveUp number =>
    dsimp only
    split
    · exact kept
    · next run hrun =>
      split
      · next hphase => exact kept.giveUp hrun hphase
      · exact kept

def work : Tree := ⟨[([], .directory), (["work"], .directory)], rfl, by decide⟩

def denyHooks : ResolvedSandbox :=
  { localhost := false, readDeny := [], writeAllow := [["work"]]
    writeDeny := [["work", ".git", "hooks"]], executables := none
    workingDirectory := ["work"], program := ["bin", "true"] }

def acts (number count : Nat) : List RunsEvent := List.replicate count (.act number fun _ => true)

/-- The second run shares the directories of the first, which ends. -/
def shared : List RunsEvent :=
  .begin 7 0 denyHooks :: acts 0 14 ++ .begin 8 0 denyHooks :: acts 1 16 ++ acts 0 7

/-- The second run plans while the first has made its directory and not yet marked it. -/
def unmarkedPlan : List RunsEvent :=
  .begin 7 0 denyHooks :: acts 0 7 ++ .begin 8 0 denyHooks :: acts 1 5 ++ acts 0 11

end Runs

end Beez.Sandbox
