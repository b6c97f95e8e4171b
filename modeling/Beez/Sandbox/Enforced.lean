import Beez.Sandbox.Bubblewrap

/-! # What the mounts of a sandbox enforce

Mounts are performed in the order of the arguments, and a path is served by the last one whose
target contains it.
-/

open Beez.Lib

namespace Beez.Sandbox

/-! ## What a sandboxed process reaches -/

/-- The mount that serves a path of the sandbox. -/
def serving (mounts : List Mount) (path : Path) : Option Mount :=
  lastMatch (fun mount => path.startsWith mount.target) mounts

/-- The host path that `mount` shows at `path`, and whether it may be written there. -/
def Mount.shows (path : Path) : Mount → Option (Path × Bool)
  | bind source target writable => some (source ++ path.drop target.length, writable)
  | fresh _ => none

def shown (mounts : List Mount) (path : Path) : Option (Path × Bool) :=
  (serving mounts path).bind (·.shows path)

/-- Some path of the sandbox shows the host path. -/
def Readable (mounts : List Mount) (host : Path) : Prop :=
  ∃ path writable, shown mounts path = some (host, writable)

/-- Some path of the sandbox shows the host path and may be written. -/
def Writable (mounts : List Mount) (host : Path) : Prop :=
  ∃ path, shown mounts path = some (host, true)

variable {mounts earlier later : List Mount} {mount : Mount} {path host : Path}

theorem serving_append (h : serving (earlier ++ later) path = some mount) :
    serving later path = some mount ∨
      (∀ other ∈ later, ¬other.target <+: path) ∧ serving earlier path = some mount := by
  refine (lastMatch_append_eq_some h).imp id fun ⟨hnone, hsome⟩ => ⟨fun other hmem => ?_, hsome⟩
  rw [← Path.startsWith_iff, lastMatch_eq_none.mp hnone other hmem]
  simp

theorem target_of_serving (h : serving mounts path = some mount) : mount.target <+: path := by
  unfold serving at h
  have := applies_of_lastMatch h
  rwa [Path.startsWith_iff] at this

theorem mem_of_serving (h : serving mounts path = some mount) : mount ∈ mounts :=
  mem_of_lastMatch h

theorem exists_serving (hmem : mount ∈ mounts) (hunder : mount.target <+: path) :
    ∃ other, serving mounts path = some other :=
  exists_lastMatch hmem ((Path.startsWith_iff _ _).mpr hunder)

theorem shown_eq_some {writable : Bool} (h : shown mounts path = some (host, writable)) :
    ∃ source target, serving mounts path = some (.bind source target writable) ∧
      host = source ++ path.drop target.length := by
  unfold shown at h
  obtain ⟨mount, hserving, hshows⟩ := Option.bind_eq_some_iff.mp h
  cases mount with
  | fresh target => cases hshows
  | bind source target writable' =>
    simp only [Mount.shows, Option.some.injEq, Prod.mk.injEq] at hshows
    obtain ⟨rfl, rfl⟩ := hshows
    exact ⟨source, target, hserving, rfl⟩

/-- A bind of a directory onto itself shows each path as itself. -/
theorem shown_self {target : Path} (h : target <+: path) :
    target ++ path.drop target.length = path := by
  obtain ⟨rest, rfl⟩ := h
  simp

/-! ## The mounts of one sandbox -/

variable {tree : Tree} {bridge : Bridge} {plan : MaskPlan}

theorem mem_denyMounts {resolved : ResolvedSandbox} :
    mount ∈ denyMounts tree resolved bridge plan ↔
      ∃ denied ∈ resolved.writeDeny, denyMount tree bridge plan denied = some mount := by
  simp [denyMounts]

theorem mem_hideMounts {resolved : ResolvedSandbox} :
    mount ∈ hideMounts tree resolved ↔ ∃ denied ∈ resolved.readDeny, hideMount tree denied = mount := by
  simp [hideMounts]

theorem denyMount_cases {denied : Path} (h : denyMount tree bridge plan denied = some mount) :
    mount.target = denied ∧
      (plan.covers denied = true ∧ mount = .bind bridge.empty denied false ∨
        mount = .bind denied denied false) := by
  unfold denyMount at h
  split at h
  · next hcovers =>
    cases h
    exact ⟨rfl, .inl ⟨hcovers, rfl⟩⟩
  split at h
  · cases h
    exact ⟨rfl, .inr rfl⟩
  · cases h

theorem hideMount_cases (tree : Tree) (denied : Path) : (hideMount tree denied).target = denied ∧
    (hideMount tree denied = .fresh denied ∨ hideMount tree denied = .bind devNull denied false) := by
  unfold hideMount
  split
  · exact ⟨rfl, .inl rfl⟩
  · exact ⟨rfl, .inr rfl⟩

theorem bind_cases {resolved : ResolvedSandbox} {source target : Path} {writable : Bool}
    (h : .bind source target writable ∈ sandboxMounts tree resolved bridge plan) :
    source = target ∨ (source = bridge.empty ∨ source = devNull) ∧ writable = false := by
  simp only [sandboxMounts, List.mem_append, List.mem_singleton] at h
  rcases h with ((((hbase | hwritable) | hancestor) | hdeny) | hhide) | hbridge
  · simp only [baseMounts, List.mem_append, List.mem_cons, Mount.bind.injEq, List.not_mem_nil,
      reduceCtorEq, or_false] at hbase
    rcases hbase with ⟨rfl, rfl, -⟩ | htmp
    · exact .inl rfl
    · split at htmp
      · cases htmp
      · simp at htmp
  · obtain ⟨path, -, h⟩ := List.mem_map.mp hwritable
    cases h
    exact .inl rfl
  · obtain ⟨path, -, h⟩ := List.mem_map.mp hancestor
    cases h
    exact .inl rfl
  · obtain ⟨denied, -, h⟩ := mem_denyMounts.mp hdeny
    rcases (denyMount_cases h).2 with ⟨-, h⟩ | h
    · cases h
      exact .inr ⟨.inl rfl, rfl⟩
    · cases h
      exact .inl rfl
  · obtain ⟨denied, -, h⟩ := mem_hideMounts.mp hhide
    rcases (hideMount_cases tree denied).2 with h' | h'
    · rw [h'] at h
      cases h
    · rw [h'] at h
      cases h
      exact .inr ⟨.inr rfl, rfl⟩
  · cases hbridge
    exact .inl rfl

/-- What a process may write is shown under its own path. -/
theorem shown_writable {resolved : ResolvedSandbox}
    (h : shown (sandboxMounts tree resolved bridge plan) path = some (host, true)) :
    host = path ∧ ∃ target, serving (sandboxMounts tree resolved bridge plan) path =
      some (.bind target target true) := by
  obtain ⟨source, target, hserving, rfl⟩ := shown_eq_some h
  rcases bind_cases (mem_of_serving hserving) with rfl | ⟨-, hfalse⟩
  · exact ⟨shown_self (target_of_serving hserving), source, hserving⟩
  · cases hfalse

/-! ## Read denies -/

/-- Past the bridge, a path under a read deny is served by the mount of one. -/
theorem serving_hidden {resolved : ResolvedSandbox} {denied : Path}
    (hdenied : denied ∈ resolved.readDeny) (hunder : denied <+: path)
    (h : serving (sandboxMounts tree resolved bridge plan) path = some mount) :
    mount = bridgeMount bridge ∨
      ∃ denied, mount = .fresh denied ∨ mount = .bind devNull denied false := by
  unfold sandboxMounts at h
  rcases serving_append h with hbridge | ⟨-, h⟩
  · exact .inl (List.mem_singleton.mp (mem_of_serving hbridge))
  rcases serving_append h with hhide | ⟨hnone, -⟩
  · obtain ⟨denied, -, rfl⟩ := mem_hideMounts.mp (mem_of_serving hhide)
    exact .inr ⟨denied, (hideMount_cases tree denied).2⟩
  · refine absurd ?_ (hnone _ (mem_hideMounts.mpr ⟨denied, hdenied, rfl⟩))
    rwa [(hideMount_cases tree denied).1]

/-- A host path under a read deny is shown nowhere, apart from the directory of the bridge and
from `/dev/null`, which masks denied files. -/
theorem not_readable {resolved : ResolvedSandbox} {denied : Path}
    (hdenied : denied ∈ resolved.readDeny) (hunder : denied <+: host)
    (hbridge : ¬bridge.directory <+: host) (hnull : ¬devNull <+: host) :
    ¬Readable (sandboxMounts tree resolved bridge plan) host := by
  rintro ⟨path, writable, hshown⟩
  obtain ⟨source, target, hserving, rfl⟩ := shown_eq_some hshown
  rcases bind_cases (mem_of_serving hserving) with rfl | ⟨rfl | rfl, -⟩
  · have hpre : source <+: path := target_of_serving hserving
    rw [shown_self hpre] at hunder hbridge hnull
    rcases serving_hidden hdenied hunder hserving with h | ⟨_, h | h⟩
    · cases h
      exact hbridge hpre
    · cases h
    · cases h
      exact hnull hpre
  · exact hbridge ((List.prefix_append _ _).trans (List.prefix_append _ _))
  · exact hnull (List.prefix_append _ _)

/-! ## Write denies -/

theorem present_above {parent : Path} (h : tree.isPresent path = true) (hpre : parent <+: path) :
    tree.isPresent parent = true := by
  obtain ⟨rest, rfl⟩ := hpre
  by_cases hnil : rest = []
  · rwa [hnil, List.append_nil] at h
  · have hentry : tree.entry (parent ++ rest) ≠ none := by
      intro hnone
      simp [Tree.isPresent, hnone] at h
    simp [Tree.isPresent, Tree.entry_ancestor hentry hnil]

theorem writable_cases {resolved : ResolvedSandbox} {source target : Path}
    (h : .bind source target true ∈ sandboxMounts tree resolved bridge plan) :
    target = bridge.directory ∨ ∃ allowed ∈ resolved.writeAllow, allowed <+: target := by
  simp only [sandboxMounts, List.mem_append, List.mem_singleton] at h
  rcases h with ((((hbase | hwritable) | hancestor) | hdeny) | hhide) | hbridge
  · simp only [baseMounts, List.mem_append, List.mem_cons, Mount.bind.injEq, List.not_mem_nil,
      reduceCtorEq, or_false, and_false, false_or] at hbase
    split at hbase
    · cases hbase
    · simp at hbase
  · obtain ⟨allowed, hmem, h⟩ := List.mem_map.mp hwritable
    cases h
    exact .inr ⟨_, hmem, List.prefix_rfl⟩
  · obtain ⟨ancestor, hmem, h⟩ := List.mem_map.mp hancestor
    cases h
    have hinside := List.mem_filter.mp (mem_dedup.mp (List.mem_filter.mp hmem).1)
    obtain ⟨allowed, hallowed, hpre, -⟩ := resolved.insideWriteAllow_iff.mp hinside.2
    exact .inr ⟨allowed, hallowed, hpre⟩
  · obtain ⟨denied, -, h⟩ := mem_denyMounts.mp hdeny
    rcases (denyMount_cases h).2 with ⟨-, h⟩ | h
    · cases h
    · cases h
  · obtain ⟨denied, -, h⟩ := mem_hideMounts.mp hhide
    rcases (hideMount_cases tree denied).2 with h' | h'
    · rw [h'] at h
      cases h
    · rw [h'] at h
      cases h
  · cases hbridge
    exact .inl rfl

theorem writable_allowed {resolved : ResolvedSandbox}
    (h : Writable (sandboxMounts tree resolved bridge plan) host) :
    bridge.directory <+: host ∨ ∃ allowed ∈ resolved.writeAllow, allowed <+: host := by
  obtain ⟨path, hshown⟩ := h
  obtain ⟨rfl, target, hserving⟩ := shown_writable hshown
  have hpre : target <+: host := target_of_serving hserving
  rcases writable_cases (mem_of_serving hserving) with rfl | ⟨allowed, hmem, hallowed⟩
  · exact .inl hpre
  · exact .inr ⟨allowed, hmem, hallowed.trans hpre⟩

theorem unmounted_outside {resolved : Resolved tree} {denied : Path}
    (hdenied : denied ∈ resolved.writeDeny)
    (h : denyMount tree bridge (MaskPlan.of tree resolved.toResolvedSandbox) denied = none) :
    tree.isPresent denied = false ∧ resolved.insideWriteAllow denied = false := by
  unfold denyMount at h
  split at h
  · cases h
  next hcovers =>
  split at h
  · cases h
  next hpresent =>
  rw [Bool.not_eq_true] at hpresent
  refine ⟨hpresent, ?_⟩
  by_contra hinside
  exact hcovers (covers_iff.mpr ⟨hdenied, by simpa using hinside, .inl hpresent⟩)

/-- A host path under a write deny is not writable, apart from the directory of the bridge. -/
theorem not_writable {resolved : Resolved tree} {denied : Path}
    (hdenied : denied ∈ resolved.writeDeny) (hunder : denied <+: host)
    (hbridge : ¬bridge.directory <+: host) :
    ¬Writable (sandboxMounts tree resolved.toResolvedSandbox bridge
      (MaskPlan.of tree resolved.toResolvedSandbox)) host := by
  intro hwritable
  obtain ⟨path, hshown⟩ := id hwritable
  obtain ⟨rfl, target, hserving⟩ := shown_writable hshown
  cases hmount : denyMount tree bridge (MaskPlan.of tree resolved.toResolvedSandbox) denied with
  | none =>
    obtain ⟨hmissing, houtside⟩ := unmounted_outside hdenied hmount
    obtain ⟨allowed, hallowed, hpre⟩ := (writable_allowed hwritable).resolve_left hbridge
    have hpresent := resolved.writeAllow_present allowed hallowed
    rcases List.prefix_or_prefix_of_prefix hpre hunder with h | h
    · rw [Bool.eq_false_iff, ne_eq, ResolvedSandbox.insideWriteAllow_iff] at houtside
      refine houtside ⟨allowed, hallowed, h, ?_⟩
      rintro rfl
      rw [hmissing] at hpresent
      cases hpresent
    · rw [present_above hpresent h] at hmissing
      cases hmissing
  | some mount =>
    have hmem := mem_denyMounts.mpr ⟨denied, hdenied, hmount⟩
    unfold sandboxMounts at hserving
    rcases serving_append hserving with h | ⟨-, hserving⟩
    · cases List.mem_singleton.mp (mem_of_serving h)
      exact hbridge (target_of_serving h)
    rcases serving_append hserving with h | ⟨-, hserving⟩
    · obtain ⟨denied, -, h⟩ := mem_hideMounts.mp (mem_of_serving h)
      rcases (hideMount_cases tree denied).2 with h' | h'
      · rw [h'] at h
        cases h
      · rw [h'] at h
        cases h
    rcases serving_append hserving with h | ⟨hnone, -⟩
    · obtain ⟨denied, -, h⟩ := mem_denyMounts.mp (mem_of_serving h)
      rcases (denyMount_cases h).2 with ⟨-, h⟩ | h
      · cases h
      · cases h
    · refine hnone mount hmem ?_
      rwa [(denyMount_cases hmount).1]

/-! ## Write allows -/

theorem writable_of_serving {target : Path}
    (h : serving mounts host = some (.bind target target true)) : Writable mounts host := by
  have hpre : target <+: host := target_of_serving h
  refine ⟨host, ?_⟩
  rw [shown, h]
  simp [Mount.shows, shown_self hpre]

theorem writable_of_allowed {resolved : ResolvedSandbox} {allowed : Path}
    (hallowed : allowed ∈ resolved.writeAllow) (hunder : allowed <+: host)
    (hwrite : ∀ denied ∈ resolved.writeDeny, ¬denied <+: host)
    (hread : ∀ denied ∈ resolved.readDeny, ¬denied <+: host) :
    Writable (sandboxMounts tree resolved bridge plan) host := by
  have hmem : .bind allowed allowed true ∈ writableMounts resolved := List.mem_map_of_mem hallowed
  have hall : .bind allowed allowed true ∈ sandboxMounts tree resolved bridge plan := by
    simp [sandboxMounts, hmem]
  obtain ⟨mount, hserving⟩ := exists_serving hall hunder
  suffices ∃ target, mount = .bind target target true by
    obtain ⟨target, rfl⟩ := this
    exact writable_of_serving hserving
  unfold sandboxMounts at hserving
  rcases serving_append hserving with h | ⟨-, hserving⟩
  · exact ⟨_, List.mem_singleton.mp (mem_of_serving h)⟩
  rcases serving_append hserving with h | ⟨-, hserving⟩
  · obtain ⟨denied, hdenied, rfl⟩ := mem_hideMounts.mp (mem_of_serving h)
    refine absurd (target_of_serving h) ?_
    rw [(hideMount_cases tree denied).1]
    exact hread denied hdenied
  rcases serving_append hserving with h | ⟨-, hserving⟩
  · obtain ⟨denied, hdenied, hmount⟩ := mem_denyMounts.mp (mem_of_serving h)
    refine absurd (target_of_serving h) ?_
    rw [(denyMount_cases hmount).1]
    exact hwrite denied hdenied
  rcases serving_append hserving with h | ⟨-, hserving⟩
  · obtain ⟨ancestor, -, rfl⟩ := List.mem_map.mp (mem_of_serving h)
    exact ⟨ancestor, rfl⟩
  rcases serving_append hserving with h | ⟨hnone, -⟩
  · obtain ⟨allowed, -, rfl⟩ := List.mem_map.mp (mem_of_serving h)
    exact ⟨allowed, rfl⟩
  · exact absurd hunder (hnone _ hmem)

/-! ## Protected ancestors -/

/-- What may stand over a protected ancestor: a mount that refuses writes, a directory of the
sandbox's own in place of a read deny, or the bridge. -/
def Harmless (resolved : ResolvedSandbox) (bridge : Bridge) (mount : Mount) : Prop :=
  (∃ source target, mount = .bind source target false) ∨
    (∃ denied ∈ resolved.readDeny, mount = .fresh denied) ∨ mount = bridgeMount bridge

/-- A protected ancestor that exists is a mount target, and every later mount that contains it is
harmless. -/
theorem ancestor_pinned {resolved : ResolvedSandbox} {ancestor : Path}
    (hmem : ancestor ∈ resolved.protectedAncestors) (hpresent : tree.isPresent ancestor = true) :
    ∃ earlier later, sandboxMounts tree resolved bridge plan =
        earlier ++ .bind ancestor ancestor true :: later ∧
      ∀ mount ∈ later, mount.target <+: ancestor → Harmless resolved bridge mount := by
  have hfiltered : ancestor ∈ resolved.protectedAncestors.filter tree.isPresent :=
    List.mem_filter.mpr ⟨hmem, hpresent⟩
  obtain ⟨before, after, hsplit⟩ := List.append_of_mem hfiltered
  have hsorted : (before ++ ancestor :: after).Pairwise (· < ·) := by
    rw [← hsplit]
    exact (dedup_sorted _).filter _
  refine ⟨baseMounts resolved ++ writableMounts resolved ++
    before.map fun path => .bind path path true, (after.map fun path => .bind path path true) ++
      denyMounts tree resolved bridge plan ++ hideMounts tree resolved ++ [bridgeMount bridge], ?_, ?_⟩
  · simp [sandboxMounts, ancestorMounts, hsplit]
  · intro mount hlater hcontains
    simp only [List.mem_append, List.mem_singleton] at hlater
    rcases hlater with ((hlater | hdeny) | hhide) | rfl
    · obtain ⟨path, hpath, rfl⟩ := List.mem_map.mp hlater
      have hlt : ancestor < path :=
        (List.pairwise_cons.mp (List.pairwise_append.mp hsorted).2.1).1 path hpath
      exact absurd (prefix_le hcontains) (not_le.mpr hlt)
    · obtain ⟨denied, -, h⟩ := mem_denyMounts.mp hdeny
      rcases (denyMount_cases h).2 with ⟨-, rfl⟩ | rfl
      · exact .inl ⟨_, _, rfl⟩
      · exact .inl ⟨_, _, rfl⟩
    · obtain ⟨denied, hdenied, rfl⟩ := mem_hideMounts.mp hhide
      rcases (hideMount_cases tree denied).2 with h | h
      · exact .inr (.inl ⟨denied, hdenied, h⟩)
      · exact .inl ⟨_, _, h⟩
    · exact .inr (.inr rfl)

/-! ## The whole policy -/

/-- The mounts enforce the policy, apart from the directory of the bridge, which is bound last,
and from `/dev/null`, which stands in for denied files. -/
structure Enforces (tree : Tree) (resolved : ResolvedSandbox) (bridge : Bridge)
    (mounts : List Mount) : Prop where
  readDeny : ∀ denied ∈ resolved.readDeny, ∀ host, denied <+: host →
    ¬bridge.directory <+: host → ¬devNull <+: host → ¬Readable mounts host
  writeDeny : ∀ denied ∈ resolved.writeDeny, ∀ host, denied <+: host →
    ¬bridge.directory <+: host → ¬Writable mounts host
  writable : ∀ host, Writable mounts host →
    bridge.directory <+: host ∨ ∃ allowed ∈ resolved.writeAllow, allowed <+: host
  writeAllow : ∀ allowed ∈ resolved.writeAllow, ∀ host, allowed <+: host →
    (∀ denied ∈ resolved.writeDeny, ¬denied <+: host) →
    (∀ denied ∈ resolved.readDeny, ¬denied <+: host) → Writable mounts host
  ancestors : ∀ ancestor ∈ resolved.protectedAncestors, tree.isPresent ancestor = true →
    ∃ earlier later, mounts = earlier ++ .bind ancestor ancestor true :: later ∧
      ∀ mount ∈ later, mount.target <+: ancestor → Harmless resolved bridge mount

theorem arguments_enforce (tree : Tree) (resolved : Resolved tree) (bridge : Bridge) (beez : Path)
    (programArguments : List Text) :
    Enforces tree resolved.toResolvedSandbox bridge
      (mountsOf (bwrapArguments tree resolved.toResolvedSandbox bridge beez programArguments
        (MaskPlan.of tree resolved.toResolvedSandbox))) := by
  rw [mountsOf_bwrapArguments]
  exact {
    readDeny := fun denied hdenied host => not_readable hdenied
    writeDeny := fun denied hdenied host => not_writable hdenied
    writable := fun host => writable_allowed
    writeAllow := fun allowed hallowed host => writable_of_allowed hallowed
    ancestors := fun ancestor => ancestor_pinned }

def bridgedTree : Tree where
  nodes := [([], .directory), (["tmp"], .directory), (["tmp", "beez-sandbox-1-0"], .directory),
    (["tmp", "beez-sandbox-1-0", "http.sock"], .file)]
  root := by decide
  closed := by decide

/-- A sandbox that may not read the temporary directory. -/
def tmpDenied : Resolved bridgedTree :=
  .resolve bridgedTree ⟨false, [["tmp"]], [], [], none, [], ["bin", "sh"]⟩

/-- The bridge is bound last, so a read deny of the temporary directory does not hide it. -/
theorem bridge_readable : ["tmp"] ∈ tmpDenied.readDeny ∧
    ["tmp"] <+: ["tmp", "beez-sandbox-1-0", "http.sock"] ∧
    Readable (mountsOf (bwrapArguments bridgedTree tmpDenied.toResolvedSandbox
      ⟨["tmp", "beez-sandbox-1-0"]⟩ ["bin", "beez"] []
      (MaskPlan.of bridgedTree tmpDenied.toResolvedSandbox)))
      ["tmp", "beez-sandbox-1-0", "http.sock"] :=
  ⟨by decide, by decide, ["tmp", "beez-sandbox-1-0", "http.sock"], true, by decide⟩

end Beez.Sandbox
