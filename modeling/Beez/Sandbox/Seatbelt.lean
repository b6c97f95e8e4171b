import Beez.Lib.Decimal
import Beez.Sandbox.Enforced

/-! # The Seatbelt profile, and where both backends agree -/

open Beez.Lib

namespace Beez.Sandbox

/-! ## Rules -/

inductive Action where
  | default | processFork | processInfo | signal | sysctlRead | machLookup | ipcPosix | pseudoTty
  | userPreferenceRead | fileIoctl | fileRead | fileReadMetadata | fileWrite | fileWriteUnlink
  | networkBind | networkInbound | networkOutbound | processExec
deriving DecidableEq, Repr

def Action.text : Action → String
  | default => "default"
  | processFork => "process-fork"
  | processInfo => "process-info*"
  | signal => "signal"
  | sysctlRead => "sysctl-read"
  | machLookup => "mach-lookup"
  | ipcPosix => "ipc-posix*"
  | pseudoTty => "pseudo-tty"
  | userPreferenceRead => "user-preference-read"
  | fileIoctl => "file-ioctl"
  | fileRead => "file-read*"
  | fileReadMetadata => "file-read-metadata"
  | fileWrite => "file-write*"
  | fileWriteUnlink => "file-write-unlink"
  | networkBind => "network-bind"
  | networkInbound => "network-inbound"
  | networkOutbound => "network-outbound"
  | processExec => "process-exec*"

inductive Filter where
  | subpath (path : Path)
  | literal (path : Path)
  /-- `^/dev/ttys[0-9]+$`. -/
  | terminals
  /-- `^/dev/fd/[0-9]+$`. -/
  | descriptors
  | sameSandbox
  | localIp (address : Text)
  | remoteIp (address : Text)
deriving DecidableEq, Repr

/-- A rule without filters applies everywhere. -/
structure Rule where
  allow : Bool
  action : Action
  filters : List Filter
deriving DecidableEq, Repr

/-- Quotes a path as an SBPL string. -/
def quote (path : Path) : Text :=
  '"' :: (path.display.flatMap fun c => if c = '"' ∨ c = '\\' then ['\\', c] else [c]) ++ ['"']

def Filter.text : Filter → Text
  | subpath path => "subpath ".toList ++ quote path
  | literal path => "literal ".toList ++ quote path
  | terminals => "regex #\"^/dev/ttys[0-9]+$\"".toList
  | descriptors => "regex #\"^/dev/fd/[0-9]+$\"".toList
  | sameSandbox => "target same-sandbox".toList
  | localIp address => "local ip \"".toList ++ address ++ ['"']
  | remoteIp address => "remote ip \"".toList ++ address ++ ['"']

def Rule.text (rule : Rule) : Text :=
  (if rule.allow then "(allow ".toList else "(deny ".toList) ++ rule.action.text.toList ++
    rule.filters.flatMap (fun filter => " (".toList ++ filter.text ++ ")".toList) ++ ")\n".toList

def writeRule (allow : Bool) (action : Action) (filter : Path → Filter) (paths : List Path) :
    List Rule :=
  if paths = [] then [] else [⟨allow, action, paths.map filter⟩]

def localhostPort (port : Nat) : Text := "localhost:".toList ++ decimal port

def firstRules : List Rule :=
  [⟨false, .default, []⟩, ⟨true, .processFork, []⟩, ⟨true, .processInfo, [.sameSandbox]⟩,
    ⟨true, .signal, [.sameSandbox]⟩, ⟨true, .sysctlRead, []⟩, ⟨true, .machLookup, []⟩,
    ⟨true, .ipcPosix, []⟩, ⟨true, .pseudoTty, []⟩, ⟨true, .userPreferenceRead, []⟩,
    ⟨true, .fileIoctl, []⟩, ⟨true, .fileRead, []⟩]

def deviceRule : Rule :=
  ⟨true, .fileWrite, [.literal devNull, .literal ["dev", "zero"], .literal ["dev", "tty"],
    .literal ["dev", "ptmx"], .literal ["dev", "dtracehelper"], .terminals, .descriptors]⟩

def lastRules (tree : Tree) (resolved : ResolvedSandbox) (httpPort socksPort : Nat) : List Rule :=
  [⟨true, .networkBind, [.localIp "localhost:*".toList]⟩,
    ⟨true, .networkInbound, [.localIp "localhost:*".toList]⟩,
    ⟨true, .networkOutbound, [.remoteIp (localhostPort httpPort), .remoteIp (localhostPort socksPort)]⟩] ++
    (if resolved.localhost then [⟨true, .networkOutbound, [.remoteIp "localhost:*".toList]⟩] else []) ++
    [⟨true, .processExec, (resolved.executables.getD []).map fun path =>
      if tree.isDir path then .subpath path else .literal path⟩]

def profileRules (tree : Tree) (resolved : ResolvedSandbox) (httpPort socksPort : Nat) : List Rule :=
  firstRules ++ writeRule false .fileRead .subpath resolved.readDeny ++
    -- Path lookups through a denied directory still need its metadata.
    [⟨true, .fileReadMetadata, []⟩] ++
    writeRule true .fileWrite .subpath resolved.writeAllow ++ [deviceRule] ++
    writeRule false .fileWrite .subpath resolved.writeDeny ++
    writeRule false .fileWriteUnlink .literal resolved.protectedAncestors ++
    lastRules tree resolved httpPort socksPort

/-- The Seatbelt profile for a resolved policy. Later rules win over earlier ones. -/
def profile (tree : Tree) (resolved : ResolvedSandbox) (httpPort socksPort : Nat) : Text :=
  "(version 1)\n".toList ++
    (profileRules tree resolved httpPort socksPort).flatMap Rule.text

example : (Rule.text ⟨false, .fileWriteUnlink, [.literal ["work", ".git"]]⟩) =
    "(deny file-write-unlink (literal \"/work/.git\"))\n".toList := by decide

/-! ## What a profile allows -/

inductive Operation where
  | readData | readMetadata | writeData | unlink
deriving DecidableEq, Repr

def Action.covers : Action → Operation → Bool
  | default, _ => true
  | fileRead, .readData | fileRead, .readMetadata => true
  | fileReadMetadata, .readMetadata => true
  | fileWrite, .writeData | fileWrite, .unlink => true
  | fileWriteUnlink, .unlink => true
  | _, _ => false

def Filter.matches : Filter → Path → Bool
  | subpath directory, path => path.startsWith directory
  | literal place, path => path == place
  | terminals, ["dev", name] =>
    (Text.stripPrefix "ttys".toList name.toList).any Text.isDigits
  | descriptors, ["dev", "fd", name] => Text.isDigits name.toList
  | _, _ => false

def Rule.applies (operation : Operation) (path : Path) (rule : Rule) : Bool :=
  rule.action.covers operation && (rule.filters == [] || rule.filters.any (·.matches path))

/-- What the last rule that applies says, or `none` where no rule does. -/
def decides (rules : List Rule) (operation : Operation) (path : Path) : Option Bool :=
  (lastMatch (Rule.applies operation path) rules).map (·.allow)

def Allows (rules : List Rule) (operation : Operation) (path : Path) : Prop :=
  decides rules operation path = some true

variable {rules earlier later : List Rule} {operation : Operation} {path host : Path}

theorem decides_append : decides (earlier ++ later) operation path =
    (decides later operation path).or (decides earlier operation path) := by
  unfold decides
  rw [lastMatch_append]
  cases lastMatch (Rule.applies operation path) later with
  | none => rfl
  | some rule => rfl

theorem decides_eq_none (h : ∀ rule ∈ rules, rule.action.covers operation = false) :
    decides rules operation path = none := by
  unfold decides
  rw [lastMatch_eq_none.mpr fun rule hmem => ?_, Option.map_none]
  rw [Rule.applies, h rule hmem, Bool.false_and]

theorem decides_writeRule (allow : Bool) (action : Action) (paths : List Path) :
    decides (writeRule allow action .subpath paths) operation path =
      if action.covers operation = true ∧ ∃ directory ∈ paths, directory <+: path then some allow
      else none := by
  unfold writeRule
  split
  · next hnil => simp [hnil, decides, lastMatch]
  · next hnil =>
    have happlies : Rule.applies operation path ⟨allow, action, paths.map .subpath⟩ = true ↔
        action.covers operation = true ∧ ∃ directory ∈ paths, directory <+: path := by
      simp [Rule.applies, hnil, Filter.matches, Path.startsWith_iff]
    by_cases h : Rule.applies operation path ⟨allow, action, paths.map .subpath⟩ = true
    · rw [if_pos (happlies.mp h)]
      simp [decides, lastMatch, h]
    · rw [if_neg fun hand => h (happlies.mpr hand)]
      simp [decides, lastMatch, h]

theorem decides_writeRule_misses (allow : Bool) {action : Action} (filter : Path → Filter)
    (paths : List Path) (h : action.covers operation = false) :
    decides (writeRule allow action filter paths) operation path = none := by
  refine decides_eq_none fun rule hmem => ?_
  unfold writeRule at hmem
  split at hmem
  · cases hmem
  · rw [List.mem_singleton.mp hmem]
    exact h

theorem decides_lastRules {tree : Tree} {resolved : ResolvedSandbox} {httpPort socksPort : Nat}
    (hread : operation = .readData ∨ operation = .writeData) :
    decides (lastRules tree resolved httpPort socksPort) operation path = none := by
  refine decides_eq_none fun rule hmem => ?_
  simp only [lastRules, List.mem_append, List.mem_cons, List.not_mem_nil, or_false] at hmem
  rcases hmem with ((rfl | rfl | rfl) | hlocal) | rfl
  · rcases hread with rfl | rfl <;> rfl
  · rcases hread with rfl | rfl <;> rfl
  · rcases hread with rfl | rfl <;> rfl
  · split at hlocal
    · rw [List.mem_singleton.mp hlocal]
      rcases hread with rfl | rfl <;> rfl
    · cases hlocal
  · rcases hread with rfl | rfl <;> rfl

section

variable {tree : Tree} {resolved : ResolvedSandbox} {httpPort socksPort : Nat}

/-- Reads are allowed unless denied. -/
theorem allows_read : Allows (profileRules tree resolved httpPort socksPort) .readData path ↔
    ∀ denied ∈ resolved.readDeny, ¬denied <+: path := by
  have hwrite : ∀ allow paths, decides (writeRule allow .fileWrite .subpath paths) .readData path =
      none := fun allow paths => decides_writeRule_misses allow _ paths rfl
  have hunlink : ∀ paths, decides (writeRule false .fileWriteUnlink .literal paths) .readData path =
      none := fun paths => decides_writeRule_misses false _ paths rfl
  have hdevice : decides [deviceRule] .readData path = none :=
    decides_eq_none (by simp [deviceRule, Action.covers])
  have hmetadata : decides [⟨true, .fileReadMetadata, []⟩] .readData path = none :=
    decides_eq_none (by simp [Action.covers])
  have hfirst : decides firstRules .readData path = some true := rfl
  unfold Allows profileRules
  simp only [decides_append, decides_lastRules (.inl rfl), hunlink, hwrite, hdevice, hmetadata,
    hfirst, decides_writeRule, Option.none_or]
  split
  · next h =>
    obtain ⟨-, denied, hmem, hunder⟩ := h
    simp only [Option.some_or, Option.some.injEq, Bool.false_eq_true, false_iff]
    exact fun hclear => hclear denied hmem hunder
  · next h =>
    simp only [Option.none_or, true_iff]
    exact fun denied hmem hunder => h ⟨rfl, denied, hmem, hunder⟩

theorem deviceRule_misses (hdev : ¬["dev"] <+: path) :
    ∀ filter ∈ deviceRule.filters, filter.matches path = false := by
  have hliteral : ∀ rest, Filter.matches (.literal ("dev" :: rest)) path = false := by
    intro rest
    rw [Filter.matches, beq_eq_false_iff_ne]
    rintro rfl
    exact hdev ⟨rest, rfl⟩
  intro filter hmem
  simp only [deviceRule, List.mem_cons, List.not_mem_nil, or_false] at hmem
  rcases hmem with rfl | rfl | rfl | rfl | rfl | rfl | rfl
  · exact hliteral _
  · exact hliteral _
  · exact hliteral _
  · exact hliteral _
  · exact hliteral _
  · unfold Filter.matches
    split <;> simp_all
  · unfold Filter.matches
    split <;> simp_all

/-- Outside `/dev` writes are denied unless allowed, and a write deny wins. -/
theorem allows_write (hdev : ¬["dev"] <+: path) :
    Allows (profileRules tree resolved httpPort socksPort) .writeData path ↔
      (∃ allowed ∈ resolved.writeAllow, allowed <+: path) ∧
        ∀ denied ∈ resolved.writeDeny, ¬denied <+: path := by
  have hread : ∀ allow paths, decides (writeRule allow .fileRead .subpath paths) .writeData path =
      none := fun allow paths => decides_writeRule_misses allow _ paths rfl
  have hunlink : ∀ paths,
      decides (writeRule false .fileWriteUnlink .literal paths) .writeData path = none :=
    fun paths => decides_writeRule_misses false _ paths rfl
  have hdevice : decides [deviceRule] .writeData path = none := by
    unfold decides
    rw [lastMatch_eq_none.mpr fun rule hmem => ?_, Option.map_none]
    rw [List.mem_singleton.mp hmem, Rule.applies, List.any_eq_false.mpr]
    · rfl
    · exact fun filter hfilter => by simp [deviceRule_misses hdev filter hfilter]
  have hmetadata : decides [⟨true, .fileReadMetadata, []⟩] .writeData path = none :=
    decides_eq_none (by simp [Action.covers])
  have hfirst : decides firstRules .writeData path = some false := rfl
  unfold Allows profileRules
  simp only [decides_append, decides_lastRules (.inr rfl), hunlink, hread, hdevice, hmetadata,
    hfirst, decides_writeRule, Option.none_or]
  split
  · next h =>
    obtain ⟨-, denied, hmem, hunder⟩ := h
    simp only [Option.some_or, Option.some.injEq, Bool.false_eq_true, false_iff]
    exact fun hclear => hclear.2 denied hmem hunder
  next hdeny =>
  have hclear : ∀ denied ∈ resolved.writeDeny, ¬denied <+: path :=
    fun denied hmem hunder => hdeny ⟨rfl, denied, hmem, hunder⟩
  split
  · next h => simpa using ⟨h.2, hclear⟩
  · next h =>
    simp only [Option.none_or, Option.some.injEq, Bool.false_eq_true, false_iff]
    exact fun hallowed => h ⟨rfl, hallowed.1⟩

end

/-! ## Both backends -/

/-- A host path outside what the Linux backend replaces or adds. -/
structure Ordinary (bridge : Bridge) (host : Path) : Prop where
  dev : ¬["dev"] <+: host
  proc : ¬["proc"] <+: host
  tmp : ¬["tmp"] <+: host
  bridge : ¬bridge.directory <+: host

variable {tree : Tree} {bridge : Bridge} {resolved : ResolvedSandbox} {plan : MaskPlan}

/-- Where no read deny and no mask contains it, Linux shows a host path. -/
theorem readable_of_clear (ordinary : Ordinary bridge host)
    (hread : ∀ denied ∈ resolved.readDeny, ¬denied <+: host)
    (hmask : ∀ denied ∈ resolved.writeDeny, plan.covers denied = true → ¬denied <+: host) :
    Readable (sandboxMounts tree resolved bridge plan) host := by
  have hroot : .bind [] [] false ∈ sandboxMounts tree resolved bridge plan := by
    simp [sandboxMounts, baseMounts]
  obtain ⟨mount, hserving⟩ := exists_serving hroot (List.nil_prefix (l := host))
  have hpre := target_of_serving hserving
  suffices ∃ target writable, mount = .bind target target writable by
    obtain ⟨target, writable, rfl⟩ := this
    refine ⟨host, writable, ?_⟩
    rw [shown, hserving]
    simp [Mount.shows, shown_self (show target <+: host from hpre)]
  have hmem := mem_of_serving hserving
  simp only [sandboxMounts, List.mem_append, List.mem_singleton] at hmem
  rcases hmem with ((((hbase | hwritable) | hancestor) | hdeny) | hhide) | rfl
  · simp only [baseMounts, List.mem_append, List.mem_cons, List.not_mem_nil, or_false] at hbase
    rcases hbase with (rfl | rfl | rfl) | htmp
    · exact ⟨_, _, rfl⟩
    · exact absurd hpre ordinary.dev
    · exact absurd hpre ordinary.proc
    · split at htmp
      · cases htmp
      · cases List.mem_singleton.mp htmp
        exact absurd hpre ordinary.tmp
  · obtain ⟨path, -, rfl⟩ := List.mem_map.mp hwritable
    exact ⟨_, _, rfl⟩
  · obtain ⟨path, -, rfl⟩ := List.mem_map.mp hancestor
    exact ⟨_, _, rfl⟩
  · obtain ⟨denied, hdenied, h⟩ := mem_denyMounts.mp hdeny
    rcases (denyMount_cases h).2 with ⟨hcovers, rfl⟩ | rfl
    · exact absurd hpre (hmask denied hdenied hcovers)
    · exact ⟨_, _, rfl⟩
  · obtain ⟨denied, hdenied, rfl⟩ := mem_hideMounts.mp hhide
    rw [(hideMount_cases tree denied).1] at hpre
    exact absurd hpre (hread denied hdenied)
  · exact absurd hpre ordinary.bridge

theorem Writable.readable {mounts : List Mount} (h : Writable mounts host) : Readable mounts host :=
  h.imp fun _ hshown => ⟨true, hshown⟩

/-- What both backends say of one host path. -/
structure Agree (resolved : ResolvedSandbox) (plan : MaskPlan) (mounts : List Mount)
    (rules : List Rule) (host : Path) : Prop where
  read : Readable mounts host → Allows rules .readData host
  /-- Linux may hide a path that an empty directory masks. -/
  unmasked : (∀ denied ∈ resolved.writeDeny, plan.covers denied = true → ¬denied <+: host) →
    Allows rules .readData host → Readable mounts host
  /-- Linux lets no path be modified that it hides. -/
  modify : Writable mounts host ↔
    Allows rules .writeData host ∧ ∀ denied ∈ resolved.readDeny, ¬denied <+: host

theorem backends_agree (tree : Tree) (resolved : Resolved tree) (bridge : Bridge) (beez : Path)
    (programArguments : List Text) (httpPort socksPort : Nat) (host : Path)
    (ordinary : Ordinary bridge host) :
    Agree resolved.toResolvedSandbox (MaskPlan.of tree resolved.toResolvedSandbox)
      (mountsOf (bwrapArguments tree resolved.toResolvedSandbox bridge beez programArguments
        (MaskPlan.of tree resolved.toResolvedSandbox)))
      (profileRules tree resolved.toResolvedSandbox httpPort socksPort) host := by
  have hnull : ¬devNull <+: host := fun h => ordinary.dev (List.IsPrefix.trans ⟨["null"], rfl⟩ h)
  rw [mountsOf_bwrapArguments]
  refine ⟨fun hreadable => ?_, fun hmask hallows => ?_, fun hwritable => ⟨?_, ?_⟩, ?_⟩
  · rw [allows_read]
    exact fun denied hdenied hunder =>
      not_readable hdenied hunder ordinary.bridge hnull hreadable
  · exact readable_of_clear ordinary (allows_read.mp hallows) hmask
  · rw [allows_write ordinary.dev]
    refine ⟨(writable_allowed hwritable).resolve_left ordinary.bridge, ?_⟩
    exact fun denied hdenied hunder => not_writable hdenied hunder ordinary.bridge hwritable
  · exact fun denied hdenied hunder =>
      not_readable hdenied hunder ordinary.bridge hnull hwritable.readable
  · rintro ⟨hallows, hread⟩
    obtain ⟨⟨allowed, hallowed, hunder⟩, hwrite⟩ := (allows_write ordinary.dev).mp hallows
    exact writable_of_allowed hallowed hunder hwrite hread

/-! ## Where they differ -/

def homeTree : Tree where
  nodes := [([], .directory), (["home"], .directory), (["home", "secrets"], .directory),
    (["home", "secrets", "key"], .file)]
  root := by decide
  closed := by decide

/-- A sandbox that may write the home directory and not read the secrets in it. -/
def secretsDenied : Resolved homeTree :=
  .resolve homeTree ⟨false, [["home", "secrets"]], [["home"]], [], none, ["home"], ["bin", "sh"]⟩

theorem key_ordinary : Ordinary ⟨["tmp", "beez-sandbox-1-0"]⟩ ["home", "secrets", "key"] := by
  constructor <;> decide

theorem backends_agree_key :
    Ordinary ⟨["tmp", "beez-sandbox-1-0"]⟩ ["home", "secrets", "key"] ∧
    Agree secretsDenied.toResolvedSandbox (MaskPlan.of homeTree secretsDenied.toResolvedSandbox)
      (mountsOf (bwrapArguments homeTree secretsDenied.toResolvedSandbox
        ⟨["tmp", "beez-sandbox-1-0"]⟩ ["bin", "beez"] []
        (MaskPlan.of homeTree secretsDenied.toResolvedSandbox)))
      (profileRules homeTree secretsDenied.toResolvedSandbox 3128 1080)
      ["home", "secrets", "key"] :=
  ⟨key_ordinary, backends_agree homeTree secretsDenied ⟨["tmp", "beez-sandbox-1-0"]⟩ ["bin", "beez"]
    [] 3128 1080 _ key_ordinary⟩

/-- A path that may be written and not read is modified on macOS and hidden on Linux. -/
theorem secrets_differ :
    Ordinary ⟨["tmp", "beez-sandbox-1-0"]⟩ ["home", "secrets", "key"] ∧
    Allows (profileRules homeTree secretsDenied.toResolvedSandbox 3128 1080) .writeData
      ["home", "secrets", "key"] ∧
    ¬Writable (mountsOf (bwrapArguments homeTree secretsDenied.toResolvedSandbox
      ⟨["tmp", "beez-sandbox-1-0"]⟩ ["bin", "beez"] []
      (MaskPlan.of homeTree secretsDenied.toResolvedSandbox))) ["home", "secrets", "key"] := by
  refine ⟨key_ordinary, ?_, fun hwritable => ?_⟩
  · rw [allows_write key_ordinary.dev]
    decide
  · rw [mountsOf_bwrapArguments] at hwritable
    have hdenied : ["home", "secrets"] ∈ secretsDenied.readDeny := by decide
    exact not_readable hdenied (by decide) (by decide) (by decide) hwritable.readable

end Beez.Sandbox
