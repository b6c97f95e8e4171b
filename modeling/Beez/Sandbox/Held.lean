import Beez.Lib.Decimal
import Beez.Sandbox.Masks

/-! # What holding the masks does to the host -/

open Beez.Lib

namespace Beez.Sandbox

def markerName (pid sequence : Nat) : String :=
  String.ofList (markerPrefix ++ decimal pid ++ '-' :: decimal sequence)

theorem isMarker_markerName (pid sequence : Nat) : isMarker (markerName pid sequence) = true := by
  simp [isMarker, markerName]

def Clear (path : Path) : Prop := ∀ name ∈ path, isMarker name = false

instance (path : Path) : Decidable (Clear path) := inferInstanceAs (Decidable (∀ _ ∈ path, _))

theorem Clear.above {parent path : Path} (h : Clear path) (hpre : parent <+: path) :
    Clear parent :=
  fun name hname => h name (hpre.subset hname)

/-- Apart from markers, entries stay and only directories come, where `made` says. -/
def Grows (made : Path → Prop) (tree tree' : Tree) : Prop :=
  ∀ path, Clear path → tree'.entry path = tree.entry path ∨
    tree.entry path = none ∧ tree'.entry path = some .directory ∧ made path

variable {made : Path → Prop} {tree tree' tree'' : Tree} {path : Path} {kind : Kind}

theorem Grows.refl : Grows made tree tree := fun _ _ => .inl rfl

theorem Grows.trans (h : Grows made tree tree') (h' : Grows made tree' tree'') :
    Grows made tree tree'' := by
  intro path hclear
  rcases h path hclear with hsame | ⟨hnone, hmade, hwhere⟩
  · rw [← hsame]
    exact h' path hclear
  · rcases h' path hclear with hsame | ⟨hnone', -⟩
    · exact .inr ⟨hnone, hsame.trans hmade, hwhere⟩
    · rw [hmade] at hnone'
      cases hnone'

theorem Grows.entry (h : Grows made tree tree') (hclear : Clear path)
    (hentry : tree.entry path = some kind) : tree'.entry path = some kind := by
  rcases h path hclear with hsame | ⟨hnone, -⟩
  · exact hsame.trans hentry
  · rw [hentry] at hnone
    cases hnone

theorem Grows.present (h : Grows made tree tree') (hclear : Clear path)
    (hpresent : tree.isPresent path = true) : tree'.isPresent path = true := by
  simp only [Tree.isPresent, Bool.or_eq_true, beq_iff_eq] at hpresent ⊢
  exact hpresent.imp (h.entry hclear) (h.entry hclear)

/-- Where no directory is nearest, nothing is made below. -/
theorem Grows.nearest (h : Grows made tree tree') (hclear : Clear path) :
    tree'.nearest path = tree.nearest path ∨ tree.nearest path = some .directory ∧
      tree'.nearest path = some .directory := by
  induction path using List.reverseRecOn with
  | nil => exact .inl (Tree.nearest_nil.trans Tree.nearest_nil.symm)
  | append_singleton path name ih =>
    have ih := ih (hclear.above (List.prefix_append _ _))
    rw [Tree.nearest_snoc, Tree.nearest_snoc]
    rcases h _ hclear with hsame | ⟨hnone, hmade, -⟩
    · rw [hsame]
      cases tree.entry (path ++ [name]) with
      | some kind => exact .inl rfl
      | none => exact ih
    · have hparent : tree'.nearest path = some .directory :=
        Tree.nearest_eq_directory_of_isDir (Tree.entry_parent (by rw [hmade]; simp))
      rw [hnone, hmade]
      refine .inr ⟨?_, rfl⟩
      rcases ih with hsame | ⟨hdir, -⟩
      · rw [Option.none_or, ← hsame, hparent]
      · rw [Option.none_or, hdir]

theorem grows_put (h : kind = .directory ∧ made path ∨ ¬Clear path) :
    Grows made tree (tree.put path kind) := by
  intro other hclear
  rw [Tree.entry_put]
  split
  · next hput =>
    rcases h with ⟨rfl, hmade⟩ | hmarker
    · exact .inr ⟨hput.1 ▸ hput.2.1, rfl, hput.1 ▸ hmade⟩
    · exact absurd (hput.1 ▸ hclear) hmarker
  · exact .inl rfl

theorem grows_createDirAll (hmade : ∀ parent, parent <+: path → made parent) :
    Grows made tree (tree.createDirAll path) := by
  induction path using List.reverseRecOn with
  | nil => exact grows_put (.inl ⟨rfl, hmade _ List.prefix_rfl⟩)
  | append_singleton path name ih =>
    rw [Tree.createDirAll_snoc]
    have ih := ih fun parent h => hmade parent (h.trans (List.prefix_append _ _))
    exact ih.trans (grows_put (.inl ⟨rfl, hmade _ List.prefix_rfl⟩))

theorem not_clear_marker {directory : Path} {name : String} (h : isMarker name = true) :
    ¬Clear (directory ++ [name]) := by
  intro hclear
  rw [hclear name (by simp)] at h
  cases h

theorem grows_removeFile (h : ¬Clear path) : Grows made tree (tree.removeFile path) := by
  intro other hclear
  unfold Tree.removeFile
  split
  · exact .inl rfl
  · rw [Tree.entry_erase_of_ne]
    · exact .inl rfl
    · rintro rfl
      exact h hclear

theorem grows_removeDeadMarkers (alive : Text → Bool) (directory : Path) :
    Grows made tree (removeDeadMarkers alive tree directory) := by
  have hmarkers : ∀ marker ∈ tree.markers directory, ¬Clear marker := by
    intro marker hmem
    obtain ⟨name, rfl, hmarker, -⟩ := mem_markers.mp hmem
    exact not_clear_marker hmarker
  unfold removeDeadMarkers
  generalize tree.markers directory = markers at hmarkers
  induction markers generalizing tree with
  | nil => exact .refl
  | cons marker rest ih =>
    rw [List.foldl_cons]
    refine Grows.trans ?_ (ih fun marker hmem => hmarkers marker (by simp [hmem]))
    split
    · exact .refl
    · exact grows_removeFile (hmarkers marker (by simp))

theorem grows_writeMarkers {name : String} (hname : isMarker name = true) (directories : List Path) :
    Grows made tree (writeMarkers name directories tree).2 := by
  induction directories generalizing tree with
  | nil => exact .refl
  | cons directory rest ih =>
    unfold writeMarkers
    dsimp only
    have hwrite : Grows made tree (tree.writeFile (directory ++ [name])) :=
      grows_put (.inr (not_clear_marker hname))
    split
    · exact hwrite.trans ih
    · exact hwrite

theorem grows_foldl {α : Type} {f : Tree → α → Tree} (h : ∀ tree a, Grows made tree (f tree a))
    (l : List α) : Grows made tree (l.foldl f tree) := by
  induction l generalizing tree with
  | nil => exact .refl
  | cons a rest ih => exact (h tree a).trans ih

variable {alive : Text → Bool} {name : String} {mask : Mask}

theorem grows_attempt (hname : isMarker name = true) {attempts : Nat}
    (next : ∀ tree, Grows made tree (markInUse alive name mask attempts tree).2) :
    Grows made (tree.createDirAll mask.path) (markInUse alive name mask (attempts + 1) tree).2 := by
  unfold markInUse
  dsimp only
  split
  · exact .refl
  have written : Grows made (tree.createDirAll mask.path)
      (writeMarkers name mask.directories.reverse (tree.createDirAll mask.path)).2 :=
    grows_writeMarkers hname _
  refine written.trans ?_
  split
  · next heq =>
    rw [heq]
    exact grows_foldl (fun tree directory => grows_removeDeadMarkers alive directory) _
  · next heq =>
    rw [heq]
    exact next _

theorem grows_markInUse (hname : isMarker name = true)
    (hmade : ∀ parent, parent <+: mask.path → made parent) (attempts : Nat) (tree : Tree) :
    Grows made tree (markInUse alive name mask attempts tree).2 := by
  induction attempts generalizing tree with
  | zero => exact .refl
  | succ attempts ih => exact (grows_createDirAll hmade).trans (grows_attempt hname ih)

theorem entry_markInUse (hname : isMarker name = true) (hclear : Clear mask.path)
    (hnearest : tree.nearest mask.path = some .directory) (attempts : Nat) :
    (markInUse alive name mask (attempts + 1) tree).2.entry mask.path = some .directory := by
  have grows : Grows (fun _ => True) (tree.createDirAll mask.path)
      (markInUse alive name mask (attempts + 1) tree).2 :=
    grows_attempt hname (grows_markInUse hname (fun _ _ => trivial) attempts)
  exact grows.entry hclear (Tree.isDir_createDirAll hnearest)

theorem holdMask_tree (held : HeldMasks × Tree) :
    (holdMask alive name held mask).2 = (markInUse alive name mask markAttempts held.2).2 := by
  unfold holdMask
  split
  · next heq => rw [heq]
  · next heq => rw [heq]

theorem grows_holdMasks (hname : isMarker name = true) {plan : MaskPlan}
    (hmade : ∀ mask ∈ plan, ∀ parent, parent <+: mask.path → made parent)
    (held : HeldMasks × Tree) : Grows made held.2 (plan.foldl (holdMask alive name) held).2 := by
  induction plan generalizing held with
  | nil => exact .refl
  | cons mask rest ih =>
    have ih := ih fun mask hmem => hmade mask (by simp [hmem])
    refine Grows.trans ?_ (ih (holdMask alive name held mask))
    rw [holdMask_tree]
    exact grows_markInUse hname (hmade mask (by simp)) _ _

theorem grows_hold (hname : isMarker name = true) (plan : MaskPlan) :
    Grows (fun path => ∃ mask ∈ plan, path <+: mask.path) tree (plan.hold alive name tree).2 :=
  grows_holdMasks hname (fun mask hmem _ hpre => ⟨mask, hmem, hpre⟩) _

theorem entry_hold (hname : isMarker name = true) {plan : MaskPlan} (hmask : mask ∈ plan)
    (hclear : Clear mask.path) (hnearest : tree.nearest mask.path = some .directory) :
    (plan.hold alive name tree).2.entry mask.path = some .directory := by
  obtain ⟨before, after, rfl⟩ := List.append_of_mem hmask
  unfold MaskPlan.hold
  rw [List.foldl_append, List.foldl_cons]
  have earlier : Grows (fun _ => True) tree
      (before.foldl (holdMask alive name) (⟨[], []⟩, tree)).2 :=
    grows_holdMasks hname (fun _ _ _ _ => trivial) _
  have later : ∀ held : HeldMasks × Tree,
      Grows (fun _ => True) held.2 (after.foldl (holdMask alive name) held).2 :=
    grows_holdMasks hname fun _ _ _ _ => trivial
  refine (later _).entry hclear ?_
  rw [holdMask_tree]
  refine entry_markInUse hname hclear ?_ 3
  rcases earlier.nearest hclear with h | h
  · exact h.trans hnearest
  · exact h.2

end Beez.Sandbox
