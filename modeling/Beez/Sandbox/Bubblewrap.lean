import Beez.Lib.LastMatch
import Beez.Sandbox.Masks

/-! # The arguments of bubblewrap and what they mount -/

open Beez.Lib

namespace Beez.Sandbox

/-- Where the sockets are that forward to the proxies. -/
structure Bridge where
  directory : Path
deriving DecidableEq, Repr

/-- A directory with nothing in it, to mask paths that must stay unwritable. -/
def Bridge.empty (bridge : Bridge) : Path := bridge.directory ++ ["empty"]

def Bridge.httpSocket (bridge : Bridge) : Path := bridge.directory ++ ["http.sock"]

def Bridge.socksSocket (bridge : Bridge) : Path := bridge.directory ++ ["socks.sock"]

def httpPort : Nat := 3128

def socksPort : Nat := 1080

/-! ## Arguments -/

inductive Flag where
  | newSession | dieWithParent | unshareNet | unsharePid | roBind | bind | dev | proc | tmpfs | chdir
  | separator | sandboxInit | relay | exec
deriving DecidableEq, Repr

def Flag.text : Flag → String
  | newSession => "--new-session"
  | dieWithParent => "--die-with-parent"
  | unshareNet => "--unshare-net"
  | unsharePid => "--unshare-pid"
  | roBind => "--ro-bind"
  | bind => "--bind"
  | dev => "--dev"
  | proc => "--proc"
  | tmpfs => "--tmpfs"
  | chdir => "--chdir"
  | separator => "--"
  | sandboxInit => "sandbox-init"
  | relay => "--relay"
  | exec => "--exec"

inductive Argument where
  | flag (flag : Flag)
  | path (path : Path)
  /-- `relay_argument(port, socket)`. -/
  | relay (port : Nat) (socket : Path)
  | text (text : Text)
deriving DecidableEq, Repr

def devNull : Path := ["dev", "null"]

def option (flag : Flag) (value : Path) : List Argument := [.flag flag, .path value]

def bind (mode : Flag) (source target : Path) : List Argument :=
  option mode source ++ [.path target]

/-- Every `bwrap` argument, ending with the program to run inside the sandbox. -/
def bwrapArguments (tree : Tree) (resolved : ResolvedSandbox) (bridge : Bridge) (beez : Path)
    (programArguments : List Text) (plan : MaskPlan) : List Argument :=
  [.flag .newSession, .flag .dieWithParent, .flag .unshareNet, .flag .unsharePid] ++
    bind .roBind [] [] ++ option .dev ["dev"] ++ option .proc ["proc"] ++
    (if ["tmp"] ∈ resolved.writeAllow then [] else option .tmpfs ["tmp"]) ++
    resolved.writeAllow.flatMap (fun path => bind .bind path path) ++
    -- A parent bound onto itself becomes a mount point, which the kernel refuses to rename.
    resolved.protectedAncestors.flatMap (fun path =>
      if tree.isPresent path then bind .bind path path else []) ++
    resolved.writeDeny.flatMap (fun path =>
      if plan.covers path then bind .roBind bridge.empty path
      else if tree.isPresent path then bind .roBind path path
      else []) ++
    resolved.readDeny.flatMap (fun path =>
      if tree.isDir path then option .tmpfs path else bind .roBind devNull path) ++
    bind .bind bridge.directory bridge.directory ++
    option .chdir resolved.workingDirectory ++
    [.flag .separator, .path beez, .flag .sandboxInit, .flag .relay,
      .relay httpPort bridge.httpSocket, .flag .relay, .relay socksPort bridge.socksSocket] ++
    (resolved.executables.getD []).flatMap (option .exec) ++
    [.flag .separator, .path resolved.program] ++ programArguments.map .text

/-! ## Mounts -/

inductive Mount where
  | bind (source target : Path) (writable : Bool)
  /-- A file system of the sandbox's own: `--tmpfs`, `--dev` or `--proc`. -/
  | fresh (target : Path)
deriving DecidableEq, Repr

def Mount.target : Mount → Path
  | bind _ target _ => target
  | fresh target => target

/-- The mounts that `bwrap` reads from its arguments, in their order. -/
def mountsOf : List Argument → List Mount
  | .flag .roBind :: .path source :: .path target :: rest => .bind source target false :: mountsOf rest
  | .flag .bind :: .path source :: .path target :: rest => .bind source target true :: mountsOf rest
  | .flag .dev :: .path target :: rest => .fresh target :: mountsOf rest
  | .flag .proc :: .path target :: rest => .fresh target :: mountsOf rest
  | .flag .tmpfs :: .path target :: rest => .fresh target :: mountsOf rest
  | .flag .separator :: _ => []
  | _ :: rest => mountsOf rest
  | [] => []

def baseMounts (resolved : ResolvedSandbox) : List Mount :=
  [.bind [] [] false, .fresh ["dev"], .fresh ["proc"]] ++
    if ["tmp"] ∈ resolved.writeAllow then [] else [.fresh ["tmp"]]

def writableMounts (resolved : ResolvedSandbox) : List Mount :=
  resolved.writeAllow.map fun path => .bind path path true

def ancestorMounts (tree : Tree) (resolved : ResolvedSandbox) : List Mount :=
  (resolved.protectedAncestors.filter tree.isPresent).map fun path => .bind path path true

def denyMount (tree : Tree) (bridge : Bridge) (plan : MaskPlan) (path : Path) : Option Mount :=
  if plan.covers path then some (.bind bridge.empty path false)
  else if tree.isPresent path then some (.bind path path false)
  else none

def denyMounts (tree : Tree) (resolved : ResolvedSandbox) (bridge : Bridge) (plan : MaskPlan) :
    List Mount :=
  resolved.writeDeny.filterMap (denyMount tree bridge plan)

def hideMount (tree : Tree) (path : Path) : Mount :=
  if tree.isDir path then .fresh path else .bind devNull path false

def hideMounts (tree : Tree) (resolved : ResolvedSandbox) : List Mount :=
  resolved.readDeny.map (hideMount tree)

def bridgeMount (bridge : Bridge) : Mount := .bind bridge.directory bridge.directory true

def sandboxMounts (tree : Tree) (resolved : ResolvedSandbox) (bridge : Bridge) (plan : MaskPlan) :
    List Mount :=
  baseMounts resolved ++ writableMounts resolved ++ ancestorMounts tree resolved ++
    denyMounts tree resolved bridge plan ++ hideMounts tree resolved ++ [bridgeMount bridge]

/-- Arguments that mean the same mounts whatever follows them. -/
def Means (arguments : List Argument) (mounts : List Mount) : Prop :=
  ∀ rest, mountsOf (arguments ++ rest) = mounts ++ mountsOf rest

theorem Means.append {first second : List Argument} {mounts mounts' : List Mount}
    (h : Means first mounts) (h' : Means second mounts') :
    Means (first ++ second) (mounts ++ mounts') := by
  intro rest
  rw [List.append_assoc, h, h', List.append_assoc]

theorem Means.flatMap {arguments : Path → List Argument} {mounts : Path → List Mount}
    (h : ∀ path, Means (arguments path) (mounts path)) (paths : List Path) :
    Means (paths.flatMap arguments) (paths.flatMap mounts) := by
  induction paths with
  | nil => exact fun _ => rfl
  | cons path rest ih => exact (h path).append ih

theorem means_roBind (source target : Path) :
    Means (bind .roBind source target) [.bind source target false] := fun _ => rfl

theorem means_bind (source target : Path) :
    Means (bind .bind source target) [.bind source target true] := fun _ => rfl

theorem means_tmpfs (target : Path) : Means (option .tmpfs target) [.fresh target] := fun _ => rfl

theorem means_nil : Means [] [] := fun _ => rfl

theorem means_deny (tree : Tree) (bridge : Bridge) (plan : MaskPlan) (path : Path) :
    Means (if plan.covers path then bind .roBind bridge.empty path
      else if tree.isPresent path then bind .roBind path path else [])
      (denyMount tree bridge plan path).toList := by
  unfold denyMount
  split
  · exact means_roBind _ _
  split
  · exact means_roBind _ _
  · exact means_nil

theorem means_hide (tree : Tree) (path : Path) :
    Means (if tree.isDir path then option .tmpfs path else bind .roBind devNull path)
      [hideMount tree path] := by
  unfold hideMount
  split
  · exact means_tmpfs _
  · exact means_roBind _ _

theorem means_ancestor (tree : Tree) (path : Path) :
    Means (if tree.isPresent path then bind .bind path path else [])
      (if tree.isPresent path then [.bind path path true] else []) := by
  split
  · exact means_bind _ _
  · exact means_nil

theorem means_writable (resolved : ResolvedSandbox) :
    Means (resolved.writeAllow.flatMap fun path => bind .bind path path)
      (writableMounts resolved) := by
  unfold writableMounts
  rw [List.map_eq_flatMap]
  exact Means.flatMap (fun path => means_bind path path) _

theorem means_ancestors (tree : Tree) (resolved : ResolvedSandbox) :
    Means (resolved.protectedAncestors.flatMap fun path =>
      if tree.isPresent path then bind .bind path path else []) (ancestorMounts tree resolved) := by
  have each : ancestorMounts tree resolved = resolved.protectedAncestors.flatMap fun path =>
      if tree.isPresent path then [.bind path path true] else [] := by
    unfold ancestorMounts
    induction resolved.protectedAncestors with
    | nil => rfl
    | cons path rest ih =>
      rw [List.filter_cons, List.flatMap_cons, ← ih]
      split
      · rfl
      · rfl
  rw [each]
  exact Means.flatMap (means_ancestor tree) _

theorem means_denies (tree : Tree) (resolved : ResolvedSandbox) (bridge : Bridge)
    (plan : MaskPlan) :
    Means (resolved.writeDeny.flatMap fun path =>
      if plan.covers path then bind .roBind bridge.empty path
      else if tree.isPresent path then bind .roBind path path else [])
      (denyMounts tree resolved bridge plan) := by
  unfold denyMounts
  rw [List.filterMap_eq_flatMap_toList]
  exact Means.flatMap (means_deny tree bridge plan) _

theorem means_hides (tree : Tree) (resolved : ResolvedSandbox) :
    Means (resolved.readDeny.flatMap fun path =>
      if tree.isDir path then option .tmpfs path else bind .roBind devNull path)
      (hideMounts tree resolved) := by
  unfold hideMounts
  rw [List.map_eq_flatMap]
  exact Means.flatMap (means_hide tree) _

theorem means_base (resolved : ResolvedSandbox) :
    Means ([.flag .newSession, .flag .dieWithParent, .flag .unshareNet, .flag .unsharePid] ++
      bind .roBind [] [] ++ option .dev ["dev"] ++ option .proc ["proc"] ++
      if ["tmp"] ∈ resolved.writeAllow then [] else option .tmpfs ["tmp"]) (baseMounts resolved) := by
  refine Means.append (fun _ => rfl) ?_
  split
  · exact means_nil
  · exact means_tmpfs _

theorem mountsOf_bwrapArguments (tree : Tree) (resolved : ResolvedSandbox) (bridge : Bridge)
    (beez : Path) (programArguments : List Text) (plan : MaskPlan) :
    mountsOf (bwrapArguments tree resolved bridge beez programArguments plan) =
      sandboxMounts tree resolved bridge plan := by
  have mounts := (((((means_base resolved).append (means_writable resolved)).append
    (means_ancestors tree resolved)).append (means_denies tree resolved bridge plan)).append
    (means_hides tree resolved)).append (means_bind bridge.directory bridge.directory)
  unfold bwrapArguments
  rw [List.append_assoc, List.append_assoc, List.append_assoc, List.append_assoc, mounts]
  exact List.append_nil _

end Beez.Sandbox
