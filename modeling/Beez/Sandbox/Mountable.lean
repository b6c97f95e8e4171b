import Beez.Sandbox.Enforced
import Beez.Sandbox.Held

/-! # Whether bubblewrap can perform every mount

It makes a missing mount point, with the directories above it, inside what it has built so far.
-/

open Beez.Lib

namespace Beez.Sandbox

/-! ## Performing mounts -/

/-- `target` is there once the earlier mounts are performed, or can be made there. -/
def reaches (tree : Tree) (earlier : List Mount) (target : Path) : Bool :=
  match serving earlier target with
  | none | some (.fresh _) => true
  | some (.bind source place writable) =>
    let host := source ++ target.drop place.length
    tree.isPresent host || writable && tree.nearest host == some .directory

def Mount.sourcePresent (tree : Tree) : Mount → Bool
  | bind source _ _ => tree.isPresent source
  | fresh _ => true

/-- Every mount of a list can be performed after the earlier ones. -/
def performs (tree : Tree) : List Mount → List Mount → Bool
  | _, [] => true
  | earlier, mount :: rest =>
    mount.sourcePresent tree && reaches tree earlier mount.target &&
      performs tree (earlier ++ [mount]) rest

variable {tree : Tree} {earlier mounts later : List Mount} {mount : Mount} {path target : Path}

theorem performs_append : performs tree earlier (mounts ++ later) =
    (performs tree earlier mounts && performs tree (earlier ++ mounts) later) := by
  induction mounts generalizing earlier with
  | nil => simp [performs]
  | cons mount rest ih => simp [performs, ih, Bool.and_assoc]

theorem performs_iff : performs tree earlier mounts = true ↔
    ∀ before mount after, mounts = before ++ mount :: after →
      mount.sourcePresent tree = true ∧ reaches tree (earlier ++ before) mount.target = true := by
  induction mounts generalizing earlier with
  | nil => simp [performs]
  | cons first rest ih =>
    simp only [performs, Bool.and_eq_true, ih]
    constructor
    · rintro ⟨hfirst, hrest⟩ before mount after heq
      cases before with
      | nil =>
        obtain ⟨rfl, rfl⟩ := List.cons.inj heq
        simpa using hfirst
      | cons head tail =>
        obtain ⟨rfl, rfl⟩ := List.cons.inj heq
        simpa using hrest tail mount after rfl
    · refine fun h => ⟨by simpa using h [] first rest rfl, fun before mount after heq => ?_⟩
      simpa using h (first :: before) mount after (by rw [heq]; rfl)

/-- A mount that shows the host under its own paths, or nothing of it. -/
def Plain (mount : Mount) : Prop :=
  (∃ target writable, mount = .bind target target writable) ∨ ∃ target, mount = .fresh target

/-- Under plain mounts, what is there on the host is there to mount on. -/
theorem reaches_of_plain (hplain : ∀ mount, serving earlier target = some mount → Plain mount)
    (hpresent : tree.isPresent target = true) : reaches tree earlier target = true := by
  unfold reaches
  cases hserving : serving earlier target with
  | none => rfl
  | some mount =>
    rcases hplain mount hserving with ⟨place, writable, rfl⟩ | ⟨place, rfl⟩
    · have hpre : place <+: target := target_of_serving hserving
      simp [shown_self hpre, hpresent]
    · rfl

/-- Under a mask nothing is there but the mask itself. -/
theorem reaches_mask {source place : Path}
    (hserving : serving earlier target = some (.bind source place false)) :
    reaches tree earlier target = tree.isPresent (source ++ target.drop place.length) := by
  simp [reaches, hserving]

theorem performs_of_plain (hplain : ∀ mount ∈ earlier ++ mounts, Plain mount)
    (hpresent : ∀ mount ∈ mounts, tree.isPresent mount.target = true) :
    performs tree earlier mounts = true := by
  rw [performs_iff]
  rintro before mount after rfl
  refine ⟨?_, reaches_of_plain (fun other hserving => ?_) (hpresent mount (by simp))⟩
  · rcases hplain mount (by simp) with ⟨place, writable, rfl⟩ | ⟨place, rfl⟩
    · exact hpresent (.bind place place writable) (by simp)
    · rfl
  · apply hplain
    have := mem_of_serving hserving
    simp only [List.mem_append, List.mem_cons] at this ⊢
    tauto

/-! ## Mounts in the order of their targets -/

/-- Each mount has a target before those of the later ones. -/
def Ordered (mounts : List Mount) : Prop := mounts.Pairwise fun a b => a.target < b.target

theorem Ordered.lt_of_mem {before after : List Mount} (h : Ordered (before ++ mount :: after))
    {other : Mount} (hmem : other ∈ before) : other.target < mount.target :=
  (List.pairwise_append.mp h).2.2 other hmem mount (by simp)

theorem Ordered.mem_before {before after : List Mount} (h : Ordered (before ++ mount :: after))
    {other : Mount} (hmem : other ∈ before ++ mount :: after) (hlt : other.target < mount.target) :
    other ∈ before := by
  rcases List.mem_append.mp hmem with hbefore | hrest
  · exact hbefore
  rcases List.mem_cons.mp hrest with rfl | hafter
  · exact absurd hlt (lt_irrefl _)
  · have := (List.pairwise_cons.mp (List.pairwise_append.mp h).2.1).1 other hafter
    exact absurd hlt this.asymm

variable {bridge : Bridge} {plan : MaskPlan}

theorem denyMounts_ordered {resolved : ResolvedSandbox} (h : resolved.writeDeny.Pairwise (· < ·)) :
    Ordered (denyMounts tree resolved bridge plan) := by
  unfold Ordered denyMounts
  rw [List.pairwise_filterMap]
  refine h.imp fun {a b} hlt mount hmount mount' hmount' => ?_
  rw [(denyMount_cases hmount).1, (denyMount_cases hmount').1]
  exact hlt

theorem hideMounts_ordered {resolved : ResolvedSandbox} (h : resolved.readDeny.Pairwise (· < ·)) :
    Ordered (hideMounts tree resolved) := by
  unfold Ordered hideMounts
  rw [List.pairwise_map]
  refine h.imp fun {a b} hlt => ?_
  rw [(hideMount_cases tree a).1, (hideMount_cases tree b).1]
  exact hlt

theorem lt_of_prefix_of_ne {parent : Path} (hpre : parent <+: path) (hne : parent ≠ path) :
    parent < path :=
  lt_of_le_of_ne (prefix_le hpre) hne

/-! ## When they can all be performed -/

/-- A Linux host with the directory of a bridge, and a policy that names no part of either the
bridge or the markers. -/
structure Usual (tree : Tree) (resolved : ResolvedSandbox) (bridge : Bridge) : Prop where
  dev : tree.isPresent ["dev"] = true
  proc : tree.isPresent ["proc"] = true
  tmp : tree.isPresent ["tmp"] = true
  null : tree.isPresent devNull = true
  directory : tree.isDir bridge.directory = true
  empty : tree.isDir bridge.empty = true
  vacant : tree.isEmpty bridge.empty = true
  clear : ∀ path ∈ resolved.readDeny ++ resolved.writeAllow ++ resolved.writeDeny, Clear path
  bridgeClear : Clear bridge.directory
  apart : ∀ denied ∈ resolved.writeDeny, ¬bridge.directory <+: denied

/-- No mask runs through what is no directory, and nothing is mounted inside one. -/
structure Mountable (tree : Tree) (resolved : ResolvedSandbox) (bridge : Bridge) (plan : MaskPlan) :
    Prop where
  masks : ∀ masked, plan.covers masked = true → tree.nearest masked = some .directory
  writeDeny : ∀ denied ∈ resolved.writeDeny, denyMount tree bridge plan denied ≠ none →
    ∀ masked, plan.covers masked = true → masked <+: denied → masked = denied
  readDeny : ∀ denied ∈ resolved.readDeny, ∀ masked, plan.covers masked = true →
    masked <+: denied → masked = denied ∨
      ∃ hidden ∈ resolved.readDeny, hidden <+: denied ∧ hidden ≠ denied
  bridge : ∀ masked, plan.covers masked = true → masked <+: bridge.directory →
    ∃ hidden ∈ resolved.readDeny, hidden <+: bridge.directory

section

variable {host : Tree} {resolved : Resolved tree}

/-- The plan of the sandbox on `tree`. -/
abbrev planOf (resolved : Resolved tree) : MaskPlan := MaskPlan.of tree resolved.toResolvedSandbox

/-- `host` is what holding the plan may leave of `tree`. -/
structure HeldOn (tree : Tree) (resolved : Resolved tree) (host : Tree) : Prop where
  grows : Grows (fun path => ∃ masked, (planOf resolved).covers masked = true ∧ path <+: masked)
    tree host
  made : ∀ masked, (planOf resolved).covers masked = true → Clear masked →
    tree.nearest masked = some .directory → host.entry masked = some .directory

theorem heldOn_hold (resolved : Resolved tree) (alive : Text → Bool) {name : String}
    (hname : isMarker name = true) :
    HeldOn tree resolved ((planOf resolved).hold alive name tree).2 := by
  constructor
  · intro path hclear
    refine (grows_hold hname (planOf resolved) path hclear).imp id ?_
    rintro ⟨hnone, hmade, mask, hmem, hpre⟩
    refine ⟨hnone, hmade, mask.path, ?_, hpre⟩
    exact List.any_eq_true.mpr ⟨mask, hmem, by simp⟩
  · intro masked hcovers hclear hnearest
    obtain ⟨mask, hmem, heq⟩ := List.any_eq_true.mp hcovers
    rw [beq_iff_eq] at heq
    subst heq
    exact entry_hold hname hmem hclear hnearest

/-- The mounts before the denies. -/
def firstMounts (tree : Tree) (resolved : ResolvedSandbox) : List Mount :=
  baseMounts resolved ++ writableMounts resolved ++ ancestorMounts tree resolved

theorem firstMounts_plain (resolved : ResolvedSandbox) :
    ∀ mount ∈ firstMounts tree resolved, Plain mount := by
  intro mount hmem
  simp only [firstMounts, List.mem_append] at hmem
  rcases hmem with (hbase | hwritable) | hancestor
  · simp only [baseMounts, List.mem_append, List.mem_cons, List.not_mem_nil, or_false] at hbase
    rcases hbase with (rfl | rfl | rfl) | htmp
    · exact .inl ⟨_, _, rfl⟩
    · exact .inr ⟨_, rfl⟩
    · exact .inr ⟨_, rfl⟩
    · split at htmp
      · cases htmp
      · exact .inr ⟨_, List.mem_singleton.mp htmp⟩
  · obtain ⟨path, -, rfl⟩ := List.mem_map.mp hwritable
    exact .inl ⟨_, _, rfl⟩
  · obtain ⟨path, -, rfl⟩ := List.mem_map.mp hancestor
    exact .inl ⟨_, _, rfl⟩

theorem clear_of_mem_protectedAncestors {resolved : ResolvedSandbox}
    (hclear : ∀ denied ∈ resolved.writeDeny, Clear denied)
    (hmem : path ∈ resolved.protectedAncestors) : Clear path := by
  have hmem := (List.mem_filter.mp (mem_dedup.mp hmem)).1
  obtain ⟨denied, hdenied, htail⟩ := List.mem_flatMap.mp hmem
  exact (hclear denied hdenied).above
    ((Path.mem_ancestors denied path).mp (List.mem_of_mem_tail htail))

theorem firstMounts_performed (held : HeldOn tree resolved host)
    (usual : Usual tree resolved.toResolvedSandbox bridge) :
    performs host [] (firstMounts tree resolved.toResolvedSandbox) = true := by
  have hclear : ∀ path ∈ resolved.writeDeny, Clear path := fun path h => usual.clear path (by simp [h])
  refine performs_of_plain (by simpa using firstMounts_plain resolved.toResolvedSandbox) ?_
  intro mount hmem
  simp only [firstMounts, List.mem_append] at hmem
  rcases hmem with (hbase | hwritable) | hancestor
  · simp only [baseMounts, List.mem_append, List.mem_cons, List.not_mem_nil, or_false] at hbase
    rcases hbase with (rfl | rfl | rfl) | htmp
    · have hroot : host.entry [] = some .directory := host.root
      simp [Mount.target, Tree.isPresent, hroot]
    · exact held.grows.present (by decide) usual.dev
    · exact held.grows.present (by decide) usual.proc
    · split at htmp
      · cases htmp
      · rw [List.mem_singleton.mp htmp]
        exact held.grows.present (by decide) usual.tmp
  · obtain ⟨path, hpath, rfl⟩ := List.mem_map.mp hwritable
    exact held.grows.present (usual.clear path (by simp [hpath]))
      (resolved.writeAllow_present path hpath)
  · obtain ⟨path, hpath, rfl⟩ := List.mem_map.mp hancestor
    obtain ⟨hmem, hpresent⟩ := List.mem_filter.mp hpath
    exact held.grows.present (clear_of_mem_protectedAncestors hclear hmem) hpresent

/-! ## What serves a path under a mask -/

theorem Ordered.serving (h : Ordered mounts) {first other : Mount}
    (hserving : serving mounts path = some first) (hmem : other ∈ mounts)
    (hcontains : other.target <+: path) : other = first ∨ other.target < first.target := by
  obtain ⟨before, after, rfl, hafter⟩ := lastMatch_eq_some hserving
  rcases List.mem_append.mp hmem with hbefore | hrest
  · exact .inr (h.lt_of_mem hbefore)
  rcases List.mem_cons.mp hrest with rfl | hlater
  · exact .inl rfl
  · have hmisses := hafter other hlater
    rw [(Path.startsWith_iff _ _).mpr hcontains] at hmisses
    cases hmisses

theorem covers_denied {masked : Path} (h : (planOf resolved).covers masked = true) :
    masked ∈ resolved.writeDeny ∧ resolved.insideWriteAllow masked = true :=
  ⟨(covers_iff.mp h).1, (covers_iff.mp h).2.1⟩

theorem denyMount_of_covers {masked : Path} (h : plan.covers masked = true) :
    denyMount tree bridge plan masked = some (.bind bridge.empty masked false) := by
  unfold denyMount
  rw [if_pos h]

/-- Below the empty directory nothing is there, and nothing can be made. -/
theorem not_reaches_of_mask (held : HeldOn tree resolved host)
    (usual : Usual tree resolved.toResolvedSandbox bridge) {masked : Path}
    (hserving : serving earlier target = some (.bind bridge.empty masked false))
    (hclear : Clear target) (hne : masked ≠ target) : reaches host earlier target = false := by
  have hpre : masked <+: target := target_of_serving hserving
  obtain ⟨rest, rfl⟩ := hpre
  have hrest : rest ≠ [] := by
    rintro rfl
    simp at hne
  obtain ⟨name, below, rfl⟩ := List.exists_cons_of_ne_nil hrest
  have hvacant : tree.entry (bridge.empty ++ name :: below) = none := by
    by_contra hentry
    have hchild : tree.entry (bridge.empty ++ [name]) ≠ none := by
      by_cases hbelow : below = []
      · rwa [hbelow] at hentry
      · rw [List.append_cons] at hentry
        rw [Tree.entry_ancestor hentry hbelow]
        simp
    exact hchild (Tree.isEmpty_iff.mp usual.vacant name)
  have hplace : Clear (bridge.empty ++ name :: below) := by
    intro part hpart
    simp only [Bridge.empty, List.append_assoc, List.mem_append] at hpart
    rcases hpart with hdirectory | hname | hbelow
    · exact usual.bridgeClear part hdirectory
    · rw [List.mem_singleton.mp hname]
      decide
    · exact hclear part (by simp only [List.mem_append]; exact .inr hbelow)
  rw [reaches_mask hserving]
  simp only [List.drop_left]
  rcases held.grows _ hplace with hsame | ⟨-, -, masked', hcovers, hinside⟩
  · simp [Tree.isPresent, hsame, hvacant]
  · refine absurd ?_ (usual.apart masked' (covers_denied hcovers).1)
    refine List.IsPrefix.trans ?_ hinside
    exact ⟨"empty" :: name :: below, by simp [Bridge.empty]⟩

/-- Where no other deny is mounted inside a mask, the mask serves what is under it. -/
theorem serving_mask {mounts : List Mount} (ordered : Ordered mounts)
    {masked : Path} (hmask : .bind bridge.empty masked false ∈ mounts) (hunder : masked <+: target)
    (hinside : ∀ mount ∈ mounts, mount.target <+: target → masked <+: mount.target →
      mount = .bind bridge.empty masked false) :
    serving (earlier ++ mounts) target = some (.bind bridge.empty masked false) := by
  obtain ⟨mount, hserving⟩ := exists_serving (List.mem_append_right earlier hmask) hunder
  rcases serving_append hserving with h | ⟨hnone, -⟩
  · have hcontains := target_of_serving h
    rcases List.prefix_or_prefix_of_prefix hunder hcontains with hbelow | habove
    · rw [hserving, hinside mount (mem_of_serving h) hcontains hbelow]
    · rcases ordered.serving h hmask hunder with heq | hlt
      · rw [hserving, heq]
      · exact absurd hlt (not_lt.mpr (prefix_le habove))
  · exact absurd hunder (hnone _ hmask)

/-! ## The condition is needed -/

theorem eq_of_same_target {resolved : ResolvedSandbox} {mount mount' : Mount}
    (h : mount ∈ denyMounts tree resolved bridge plan)
    (h' : mount' ∈ denyMounts tree resolved bridge plan) (heq : mount.target = mount'.target) :
    mount = mount' := by
  obtain ⟨denied, -, hmount⟩ := mem_denyMounts.mp h
  obtain ⟨denied', -, hmount'⟩ := mem_denyMounts.mp h'
  rw [(denyMount_cases hmount).1, (denyMount_cases hmount').1] at heq
  subst heq
  exact Option.some.inj (hmount.symm.trans hmount')

abbrev deniesOf (resolved : Resolved tree) (bridge : Bridge) : List Mount :=
  denyMounts tree resolved.toResolvedSandbox bridge (planOf resolved)

theorem sandboxMounts_performs : performs host [] (sandboxMounts tree resolved.toResolvedSandbox
    bridge (planOf resolved)) = true ↔
      performs host [] (firstMounts tree resolved.toResolvedSandbox) = true ∧
      performs host (firstMounts tree resolved.toResolvedSandbox) (deniesOf resolved bridge) = true ∧
      performs host (firstMounts tree resolved.toResolvedSandbox ++ deniesOf resolved bridge)
        (hideMounts tree resolved.toResolvedSandbox) = true ∧
      performs host (firstMounts tree resolved.toResolvedSandbox ++ deniesOf resolved bridge ++
        hideMounts tree resolved.toResolvedSandbox) [bridgeMount bridge] = true := by
  have hsplit : sandboxMounts tree resolved.toResolvedSandbox bridge (planOf resolved) =
      firstMounts tree resolved.toResolvedSandbox ++ deniesOf resolved bridge ++
        hideMounts tree resolved.toResolvedSandbox ++ [bridgeMount bridge] := rfl
  rw [hsplit, performs_append, performs_append, performs_append]
  simp only [List.nil_append, Bool.and_eq_true, and_assoc]

theorem mask_mem {masked : Path} (h : (planOf resolved).covers masked = true) :
    .bind bridge.empty masked false ∈ deniesOf resolved bridge :=
  mem_denyMounts.mpr ⟨masked, (covers_denied h).1, denyMount_of_covers h⟩

/-- No deny is mounted inside a mask, if all can be. The shortest that is cannot be reached. -/
theorem writeDeny_of_performs (held : HeldOn tree resolved host)
    (usual : Usual tree resolved.toResolvedSandbox bridge)
    (h : performs host (firstMounts tree resolved.toResolvedSandbox) (deniesOf resolved bridge) = true)
    {denied : Path} (hdenied : denied ∈ resolved.writeDeny)
    (hmounted : denyMount tree bridge (planOf resolved) denied ≠ none) {masked : Path}
    (hcovers : (planOf resolved).covers masked = true) (hunder : masked <+: denied) :
    masked = denied := by
  induction hlength : denied.length using Nat.strong_induction_on generalizing denied with
  | _ length ih =>
    by_contra hne
    obtain ⟨mount, hmount⟩ := Option.ne_none_iff_exists'.mp hmounted
    have htarget := (denyMount_cases hmount).1
    obtain ⟨before, after, hsplit⟩ :=
      List.append_of_mem (mem_denyMounts.mpr ⟨denied, hdenied, hmount⟩)
    have ordered : Ordered (deniesOf resolved bridge) :=
      denyMounts_ordered resolved.writeDeny_sorted
    rw [deniesOf, hsplit] at ordered
    have hbefore : .bind bridge.empty masked false ∈ before := by
      refine ordered.mem_before (hsplit ▸ mask_mem hcovers) ?_
      rw [htarget]
      exact lt_of_prefix_of_ne hunder hne
    have hserving : serving (firstMounts tree resolved.toResolvedSandbox ++ before) denied =
        some (.bind bridge.empty masked false) := by
      refine serving_mask (List.pairwise_append.mp ordered).1 hbefore hunder ?_
      intro other hother hcontains hinside
      have hmem : other ∈ deniesOf resolved bridge := by
        rw [deniesOf, hsplit]
        exact List.mem_append_left _ hother
      obtain ⟨denied', hdenied', hother'⟩ := mem_denyMounts.mp hmem
      have htarget' := (denyMount_cases hother').1
      have hlt := ordered.lt_of_mem hother
      rw [htarget, htarget'] at hlt
      rw [htarget'] at hcontains hinside
      have hshorter : denied'.length < length := by
        refine lt_of_le_of_ne (hlength ▸ hcontains.length_le) fun heq => ?_
        exact hlt.ne (hcontains.eq_of_length (heq.trans hlength.symm))
      have heq := ih _ hshorter hdenied' (by rw [hother']; simp) hinside rfl
      exact eq_of_same_target hmem (mask_mem hcovers) (htarget'.trans heq.symm)
    have hclear : Clear denied := usual.clear denied (by simp [hdenied])
    have hreaches := (performs_iff.mp h before mount after hsplit).2
    rw [htarget, not_reaches_of_mask held usual hserving hclear hne] at hreaches
    cases hreaches

/-- Past the denies, a mask serves what is under it unless a read deny hides it. -/
theorem serving_mask_of_unhidden {hides : List Mount} {masked : Path}
    (hnested : ∀ denied ∈ resolved.writeDeny,
      denyMount tree bridge (planOf resolved) denied ≠ none → masked <+: denied → masked = denied)
    (hcovers : (planOf resolved).covers masked = true) (hunder : masked <+: target)
    (hhides : ∀ mount ∈ hides, ¬mount.target <+: target) :
    serving (firstMounts tree resolved.toResolvedSandbox ++ deniesOf resolved bridge ++ hides) target =
      some (.bind bridge.empty masked false) := by
  have hmasks : serving (firstMounts tree resolved.toResolvedSandbox ++ deniesOf resolved bridge)
      target = some (.bind bridge.empty masked false) := by
    refine serving_mask (denyMounts_ordered resolved.writeDeny_sorted) (mask_mem hcovers) hunder ?_
    intro mount hmem hcontains hinside
    obtain ⟨denied, hdenied, hmount⟩ := mem_denyMounts.mp hmem
    have htarget := (denyMount_cases hmount).1
    rw [htarget] at hinside
    have heq := hnested denied hdenied (by rw [hmount]; simp) hinside
    exact eq_of_same_target hmem (mask_mem hcovers) (htarget.trans heq.symm)
  unfold serving
  rw [lastMatch_append_of_none]
  · exact hmasks
  · refine lastMatch_eq_none.mpr fun mount hmem => ?_
    rw [← Bool.not_eq_true, Path.startsWith_iff]
    exact hhides mount hmem

theorem bind_of_inside (hinside : resolved.insideWriteAllow path = true) {mount : Mount}
    (hserving : serving (firstMounts tree resolved.toResolvedSandbox) path = some mount) :
    ∃ place writable, mount = .bind place place writable := by
  obtain ⟨allowed, hallowed, hunder, -⟩ := resolved.insideWriteAllow_iff.mp hinside
  unfold firstMounts at hserving
  rcases serving_append hserving with h | ⟨-, hserving⟩
  · obtain ⟨ancestor, -, rfl⟩ := List.mem_map.mp (mem_of_serving h)
    exact ⟨_, _, rfl⟩
  rcases serving_append hserving with h | ⟨hnone, -⟩
  · obtain ⟨allowed, -, rfl⟩ := List.mem_map.mp (mem_of_serving h)
    exact ⟨_, _, rfl⟩
  · exact absurd hunder (hnone _ (List.mem_map_of_mem hallowed))

theorem not_file_of_covers {masked : Path} (h : (planOf resolved).covers masked = true) :
    tree.entry masked ≠ some .file := by
  intro hfile
  rcases (covers_iff.mp h).2.2 with hmissing | hmarked
  · simp [Tree.isPresent, hfile] at hmissing
  · obtain ⟨name, -, hentry⟩ := isMarked_iff.mp hmarked
    rw [Tree.entry_parent hentry] at hfile
    cases hfile

/-- Holding a plan makes nothing of a mask that has no directory to stand in. -/
theorem missing_of_blocked (held : HeldOn tree resolved host) {masked : Path}
    (hclear : Clear masked) (hcovers : (planOf resolved).covers masked = true)
    (hblocked : tree.nearest masked ≠ some .directory) :
    host.nearest masked = tree.nearest masked ∧ host.isPresent masked = false := by
  have hnearest : host.nearest masked = tree.nearest masked :=
    (held.grows.nearest hclear).resolve_right fun hdirectory => hblocked hdirectory.1
  refine ⟨hnearest, ?_⟩
  rw [Bool.eq_false_iff]
  intro hpresent
  simp only [Tree.isPresent, Bool.or_eq_true, beq_iff_eq] at hpresent
  rcases hpresent with hdirectory | hfile
  · exact hblocked (hnearest ▸ Tree.nearest_eq_directory_of_isDir hdirectory)
  · rcases held.grows masked hclear with hsame | ⟨-, hmade, -⟩
    · exact not_file_of_covers hcovers (hsame ▸ hfile)
    · rw [hfile] at hmade
      cases hmade

/-- Before its own mount, a mask is served by a mount of a place onto itself. -/
theorem bind_before_mask (held : HeldOn tree resolved host)
    (usual : Usual tree resolved.toResolvedSandbox bridge)
    (h : performs host (firstMounts tree resolved.toResolvedSandbox)
      (deniesOf resolved bridge) = true)
    {masked : Path} (hcovers : (planOf resolved).covers masked = true) {before after : List Mount}
    (hsplit : deniesOf resolved bridge = before ++ .bind bridge.empty masked false :: after) :
    ∃ place writable, serving (firstMounts tree resolved.toResolvedSandbox ++ before) masked =
      some (.bind place place writable) := by
  obtain ⟨hdenied, hinside⟩ := covers_denied hcovers
  have hroot : .bind [] [] false ∈ firstMounts tree resolved.toResolvedSandbox ++ before := by
    simp [firstMounts, baseMounts]
  obtain ⟨mount, hserving⟩ := exists_serving hroot (List.nil_prefix (l := masked))
  have hself : ∃ place writable, mount = .bind place place writable := by
    rcases serving_append hserving with hdeny | ⟨-, hfirst⟩
    · have hmem : mount ∈ deniesOf resolved bridge := by
        rw [hsplit]
        exact List.mem_append_left _ (mem_of_serving hdeny)
      obtain ⟨denied, -, hmount⟩ := mem_denyMounts.mp hmem
      rcases (denyMount_cases hmount).2 with ⟨hother, rfl⟩ | rfl
      · have hcontains : denied <+: masked := target_of_serving hserving
        have heq := writeDeny_of_performs held usual h hdenied
          (by rw [denyMount_of_covers hcovers]; simp) hother hcontains
        have ordered : Ordered (deniesOf resolved bridge) :=
          denyMounts_ordered resolved.writeDeny_sorted
        rw [hsplit] at ordered
        exact absurd heq (ordered.lt_of_mem (mem_of_serving hdeny)).ne
      · exact ⟨_, _, rfl⟩
    · exact bind_of_inside hinside hfirst
  obtain ⟨place, writable, rfl⟩ := hself
  exact ⟨place, writable, hserving⟩

theorem nearest_of_performs (held : HeldOn tree resolved host)
    (usual : Usual tree resolved.toResolvedSandbox bridge)
    (h : performs host (firstMounts tree resolved.toResolvedSandbox)
      (deniesOf resolved bridge) = true)
    {masked : Path} (hcovers : (planOf resolved).covers masked = true) :
    tree.nearest masked = some .directory := by
  by_contra hblocked
  have hclear : Clear masked := usual.clear masked (by simp [(covers_denied hcovers).1])
  obtain ⟨hnearest, hmissing⟩ := missing_of_blocked held hclear hcovers hblocked
  have hmem : .bind bridge.empty masked false ∈ deniesOf resolved bridge := mask_mem hcovers
  obtain ⟨before, after, hsplit⟩ := List.append_of_mem hmem
  obtain ⟨place, writable, hserving⟩ := bind_before_mask held usual h hcovers hsplit
  have hreaches := (performs_iff.mp h before _ after hsplit).2
  have hpre : place <+: masked := target_of_serving hserving
  have hrefused : reaches host (firstMounts tree resolved.toResolvedSandbox ++ before) masked =
      false := by
    simp only [reaches, hserving, shown_self hpre, hmissing, Bool.false_or, Bool.and_eq_false_iff]
    right
    rw [hnearest]
    simpa using hblocked
  rw [show Mount.target (.bind bridge.empty masked false) = masked from rfl, hrefused] at hreaches
  cases hreaches

theorem readDeny_of_performs (held : HeldOn tree resolved host)
    (usual : Usual tree resolved.toResolvedSandbox bridge)
    (h : performs host (firstMounts tree resolved.toResolvedSandbox ++ deniesOf resolved bridge)
      (hideMounts tree resolved.toResolvedSandbox) = true)
    {denied : Path} (hdenied : denied ∈ resolved.readDeny) {masked : Path}
    (hnested : ∀ other ∈ resolved.writeDeny,
      denyMount tree bridge (planOf resolved) other ≠ none → masked <+: other → masked = other)
    (hcovers : (planOf resolved).covers masked = true) (hunder : masked <+: denied) :
    masked = denied ∨ ∃ hidden ∈ resolved.readDeny, hidden <+: denied ∧ hidden ≠ denied := by
  by_contra hneither
  rw [not_or] at hneither
  obtain ⟨hne, hhidden⟩ := hneither
  obtain ⟨before, after, hsplit⟩ :=
    List.append_of_mem (mem_hideMounts.mpr ⟨denied, hdenied, rfl⟩ :
      hideMount tree denied ∈ hideMounts tree resolved.toResolvedSandbox)
  have ordered : Ordered (hideMounts tree resolved.toResolvedSandbox) :=
    hideMounts_ordered resolved.readDeny_sorted
  rw [hsplit] at ordered
  have hserving : serving (firstMounts tree resolved.toResolvedSandbox ++
      deniesOf resolved bridge ++ before) denied = some (.bind bridge.empty masked false) := by
    refine serving_mask_of_unhidden hnested hcovers hunder ?_
    intro mount hmem hcontains
    have hlt := ordered.lt_of_mem hmem
    obtain ⟨hidden, hmem', rfl⟩ := mem_hideMounts.mp (hsplit ▸ List.mem_append_left _ hmem)
    rw [(hideMount_cases tree hidden).1] at hcontains hlt
    rw [(hideMount_cases tree denied).1] at hlt
    exact hhidden ⟨hidden, hmem', hcontains, hlt.ne⟩
  have hreaches := (performs_iff.mp h before _ after hsplit).2
  rw [(hideMount_cases tree denied).1] at hreaches
  have hclear : Clear denied := usual.clear denied (by simp [hdenied])
  rw [not_reaches_of_mask held usual hserving hclear hne] at hreaches
  cases hreaches

theorem bridge_of_performs (held : HeldOn tree resolved host)
    (usual : Usual tree resolved.toResolvedSandbox bridge)
    (h : performs host (firstMounts tree resolved.toResolvedSandbox ++ deniesOf resolved bridge ++
      hideMounts tree resolved.toResolvedSandbox) [bridgeMount bridge] = true) {masked : Path}
    (hnested : ∀ other ∈ resolved.writeDeny,
      denyMount tree bridge (planOf resolved) other ≠ none → masked <+: other → masked = other)
    (hcovers : (planOf resolved).covers masked = true) (hunder : masked <+: bridge.directory) :
    ∃ hidden ∈ resolved.readDeny, hidden <+: bridge.directory := by
  by_contra hhidden
  have hserving : serving (firstMounts tree resolved.toResolvedSandbox ++
      deniesOf resolved bridge ++ hideMounts tree resolved.toResolvedSandbox) bridge.directory =
        some (.bind bridge.empty masked false) := by
    refine serving_mask_of_unhidden hnested hcovers hunder ?_
    intro mount hmem hcontains
    obtain ⟨hidden, hmem', rfl⟩ := mem_hideMounts.mp hmem
    rw [(hideMount_cases tree hidden).1] at hcontains
    exact hhidden ⟨hidden, hmem', hcontains⟩
  have hreaches := (performs_iff.mp h [] _ [] rfl).2
  rw [List.append_nil] at hreaches
  have hne : masked ≠ bridge.directory := by
    rintro rfl
    exact usual.apart _ (covers_denied hcovers).1 List.prefix_rfl
  rw [show (bridgeMount bridge).target = bridge.directory from rfl,
    not_reaches_of_mask held usual hserving usual.bridgeClear hne] at hreaches
  cases hreaches

theorem mountable_of_performs (held : HeldOn tree resolved host)
    (usual : Usual tree resolved.toResolvedSandbox bridge)
    (h : performs host [] (sandboxMounts tree resolved.toResolvedSandbox bridge
      (planOf resolved)) = true) :
    Mountable tree resolved.toResolvedSandbox bridge (planOf resolved) := by
  obtain ⟨-, hdenies, hhides, hbridge⟩ := sandboxMounts_performs.mp h
  have hnested : ∀ denied ∈ resolved.writeDeny,
      denyMount tree bridge (planOf resolved) denied ≠ none → ∀ masked,
        (planOf resolved).covers masked = true → masked <+: denied → masked = denied :=
    fun denied hdenied hmounted masked =>
      writeDeny_of_performs held usual hdenies hdenied hmounted
  refine ⟨fun masked => nearest_of_performs held usual hdenies, hnested, ?_, ?_⟩
  · intro denied hdenied masked hcovers hunder
    refine readDeny_of_performs held usual hhides hdenied ?_ hcovers hunder
    exact fun other hother hmounted => hnested other hother hmounted masked hcovers
  · intro masked hcovers hunder
    refine bridge_of_performs held usual hbridge ?_ hcovers hunder
    exact fun other hother hmounted => hnested other hother hmounted masked hcovers

/-! ## The condition is enough -/

theorem present_of_mounted (held : HeldOn tree resolved host)
    (usual : Usual tree resolved.toResolvedSandbox bridge)
    (masks : ∀ masked, (planOf resolved).covers masked = true →
      tree.nearest masked = some .directory) {denied : Path} (hdenied : denied ∈ resolved.writeDeny)
    (hmounted : denyMount tree bridge (planOf resolved) denied ≠ none) :
    host.isPresent denied = true := by
  have hclear : Clear denied := usual.clear denied (by simp [hdenied])
  by_cases hcovers : (planOf resolved).covers denied = true
  · simp [Tree.isPresent, held.made denied hcovers hclear (masks denied hcovers)]
  · refine held.grows.present hclear ?_
    by_contra hmissing
    rw [denyMount, if_neg hcovers, if_neg hmissing] at hmounted
    exact hmounted rfl

theorem empty_present (held : HeldOn tree resolved host)
    (usual : Usual tree resolved.toResolvedSandbox bridge) : host.isPresent bridge.empty = true := by
  have hclear : Clear bridge.empty := by
    intro name hname
    rcases List.mem_append.mp hname with hdirectory | hempty
    · exact usual.bridgeClear name hdirectory
    · rw [List.mem_singleton.mp hempty]
      decide
  have hempty : tree.entry bridge.empty = some .directory := by simpa [Tree.isDir] using usual.empty
  simp [Tree.isPresent, held.grows.entry hclear hempty]

theorem denies_performed (held : HeldOn tree resolved host)
    (usual : Usual tree resolved.toResolvedSandbox bridge)
    (mountable : Mountable tree resolved.toResolvedSandbox bridge (planOf resolved)) :
    performs host (firstMounts tree resolved.toResolvedSandbox) (deniesOf resolved bridge) = true := by
  rw [performs_iff]
  intro before mount after hsplit
  have ordered : Ordered (deniesOf resolved bridge) := denyMounts_ordered resolved.writeDeny_sorted
  obtain ⟨denied, hdenied, hmount⟩ :=
    mem_denyMounts.mp (show mount ∈ deniesOf resolved bridge by simp [hsplit])
  have hmounted : denyMount tree bridge (planOf resolved) denied ≠ none := by simp [hmount]
  have htarget := (denyMount_cases hmount).1
  have hpresent := present_of_mounted held usual mountable.masks hdenied hmounted
  refine ⟨?_, reaches_of_plain (fun other hserving => ?_) (by rwa [htarget])⟩
  · rcases (denyMount_cases hmount).2 with ⟨-, rfl⟩ | rfl
    · exact empty_present held usual
    · exact hpresent
  rcases serving_append hserving with hdeny | ⟨-, hfirst⟩
  · have hmem := mem_of_serving hdeny
    obtain ⟨denied', -, hother⟩ :=
      mem_denyMounts.mp (show other ∈ deniesOf resolved bridge by simp [hsplit, hmem])
    rcases (denyMount_cases hother).2 with ⟨hcovers, rfl⟩ | rfl
    · have hcontains : denied' <+: mount.target := target_of_serving hserving
      rw [htarget] at hcontains
      rw [hsplit] at ordered
      have hlt : denied' < mount.target := ordered.lt_of_mem hmem
      rw [htarget] at hlt
      exact absurd (mountable.writeDeny denied hdenied hmounted denied' hcovers hcontains) hlt.ne
    · exact .inl ⟨_, _, rfl⟩
  · exact firstMounts_plain _ other (mem_of_serving hfirst)

/-- What a mask would serve is there, or a read deny hides it. -/
theorem reaches_past_denies (held : HeldOn tree resolved host)
    (usual : Usual tree resolved.toResolvedSandbox bridge) {hides : List Mount}
    (hpresent : host.isPresent target = true)
    (hhides : ∀ mount ∈ hides, mount.target <+: target → ∃ place, mount = .fresh place)
    (hmask : ∀ masked, (planOf resolved).covers masked = true → masked <+: target →
      masked = target ∨ ∃ mount ∈ hides, mount.target <+: target) :
    reaches host (firstMounts tree resolved.toResolvedSandbox ++ deniesOf resolved bridge ++ hides)
      target = true := by
  unfold reaches
  cases hserving : serving (firstMounts tree resolved.toResolvedSandbox ++
    deniesOf resolved bridge ++ hides) target with
  | none => rfl
  | some mount =>
    rcases serving_append hserving with hhide | ⟨hunhidden, hserving⟩
    · obtain ⟨place, rfl⟩ := hhides mount (mem_of_serving hhide) (target_of_serving hhide)
      rfl
    rcases serving_append hserving with hdeny | ⟨-, hfirst⟩
    · obtain ⟨denied, -, hmount⟩ := mem_denyMounts.mp (mem_of_serving hdeny)
      rcases (denyMount_cases hmount).2 with ⟨hcovers, rfl⟩ | rfl
      · have hcontains : denied <+: target := target_of_serving hdeny
        rcases hmask denied hcovers hcontains with rfl | ⟨mount, hmem, hcontains⟩
        · simp [empty_present held usual]
        · exact absurd hcontains (hunhidden mount hmem)
      · have hcontains : denied <+: target := target_of_serving hdeny
        simp [shown_self hcontains, hpresent]
    · rcases firstMounts_plain _ mount (mem_of_serving hfirst) with
        ⟨place, writable, rfl⟩ | ⟨place, rfl⟩
      · have hcontains : place <+: target := target_of_serving hfirst
        simp [shown_self hcontains, hpresent]
      · rfl

theorem hideMount_fresh {denied : Path} (hentry : tree.isPresent path = true)
    (hpre : denied <+: path) (h : denied ≠ path ∨ tree.isDir path = true) :
    hideMount tree denied = .fresh denied := by
  unfold hideMount
  rw [if_pos]
  obtain ⟨rest, rfl⟩ := hpre
  by_cases hnil : rest = []
  · subst hnil
    simpa using h
  · have hpart : tree.entry (denied ++ rest) ≠ none := by
      intro hnone
      simp [Tree.isPresent, hnone] at hentry
    simp [Tree.isDir, Tree.entry_ancestor hpart hnil]

theorem hides_performed (held : HeldOn tree resolved host)
    (usual : Usual tree resolved.toResolvedSandbox bridge)
    (mountable : Mountable tree resolved.toResolvedSandbox bridge (planOf resolved)) :
    performs host (firstMounts tree resolved.toResolvedSandbox ++ deniesOf resolved bridge)
      (hideMounts tree resolved.toResolvedSandbox) = true := by
  rw [performs_iff]
  intro before mount after hsplit
  have ordered : Ordered (hideMounts tree resolved.toResolvedSandbox) :=
    hideMounts_ordered resolved.readDeny_sorted
  have hmem : mount ∈ hideMounts tree resolved.toResolvedSandbox := by simp [hsplit]
  obtain ⟨denied, hdenied, rfl⟩ := mem_hideMounts.mp hmem
  have hclear : Clear denied := usual.clear denied (by simp [hdenied])
  have hentry := resolved.readDeny_present denied hdenied
  refine ⟨?_, ?_⟩
  · rcases (hideMount_cases tree denied).2 with h | h
    · rw [h]
      rfl
    · rw [h]
      exact held.grows.present (by decide) usual.null
  rw [(hideMount_cases tree denied).1]
  refine reaches_past_denies held usual (held.grows.present hclear hentry) ?_ ?_
  · intro other hother hcontains
    rw [hsplit] at ordered
    have hlt := ordered.lt_of_mem hother
    obtain ⟨hidden, -, rfl⟩ := mem_hideMounts.mp (hsplit ▸ List.mem_append_left _ hother)
    rw [(hideMount_cases tree hidden).1] at hcontains hlt
    rw [(hideMount_cases tree denied).1] at hlt
    exact ⟨hidden, hideMount_fresh hentry hcontains (.inl hlt.ne)⟩
  · intro masked hcovers hunder
    refine (mountable.readDeny denied hdenied masked hcovers hunder).imp id ?_
    rintro ⟨hidden, hhidden, hpre, hne⟩
    refine ⟨hideMount tree hidden, ?_, ?_⟩
    · rw [hsplit] at ordered
      refine ordered.mem_before (hsplit ▸ mem_hideMounts.mpr ⟨hidden, hhidden, rfl⟩) ?_
      rw [(hideMount_cases tree hidden).1, (hideMount_cases tree denied).1]
      exact lt_of_prefix_of_ne hpre hne
    · rwa [(hideMount_cases tree hidden).1]

theorem performs_of_mountable (held : HeldOn tree resolved host)
    (usual : Usual tree resolved.toResolvedSandbox bridge)
    (mountable : Mountable tree resolved.toResolvedSandbox bridge (planOf resolved)) :
    performs host [] (sandboxMounts tree resolved.toResolvedSandbox bridge
      (planOf resolved)) = true := by
  have hdirectory : tree.entry bridge.directory = some .directory := by
    simpa [Tree.isDir] using usual.directory
  have hpresent : host.isPresent bridge.directory = true := by
    simp [Tree.isPresent, held.grows.entry usual.bridgeClear hdirectory]
  have hentry : tree.isPresent bridge.directory = true := by simp [Tree.isPresent, hdirectory]
  refine sandboxMounts_performs.mpr ⟨firstMounts_performed held usual,
    denies_performed held usual mountable, hides_performed held usual mountable, ?_⟩
  have hreaches : reaches host (firstMounts tree resolved.toResolvedSandbox ++
      deniesOf resolved bridge ++ hideMounts tree resolved.toResolvedSandbox)
        bridge.directory = true := by
    refine reaches_past_denies held usual hpresent ?_ ?_
    · intro mount hmem hcontains
      obtain ⟨hidden, -, rfl⟩ := mem_hideMounts.mp hmem
      rw [(hideMount_cases tree hidden).1] at hcontains
      exact ⟨hidden, hideMount_fresh hentry hcontains (.inr usual.directory)⟩
    · intro masked hcovers hunder
      right
      obtain ⟨hidden, hhidden, hpre⟩ := mountable.bridge masked hcovers hunder
      refine ⟨hideMount tree hidden, mem_hideMounts.mpr ⟨hidden, hhidden, rfl⟩, ?_⟩
      rwa [(hideMount_cases tree hidden).1]
  have hsource : (bridgeMount bridge).sourcePresent host = true := hpresent
  have htarget : (bridgeMount bridge).target = bridge.directory := rfl
  rw [performs, hsource, htarget, hreaches]
  rfl

end

/-! ## A worktree -/

/-- A host with a working tree of Git that is linked to a repository elsewhere by a `.git` file. -/
def worktree : Tree where
  nodes := [([], .directory), (["dev"], .directory), (["dev", "null"], .file), (["proc"], .directory),
    (["tmp"], .directory), (["tmp", "beez-sandbox-1-0"], .directory),
    (["tmp", "beez-sandbox-1-0", "empty"], .directory), (["work"], .directory),
    (["work", ".git"], .file)]
  root := by decide
  closed := by decide

/-- The sandbox of a task that works in the tree and must not write its Git hooks. -/
def worktreeTask : Resolved worktree :=
  .resolve worktree ⟨false, [], [["work"]], [["work", ".git", "hooks"]], none, ["work"],
    ["bin", "sh"]⟩

theorem worktree_usual :
    Usual worktree worktreeTask.toResolvedSandbox ⟨["tmp", "beez-sandbox-1-0"]⟩ := by
  constructor <;> decide

end Beez.Sandbox
