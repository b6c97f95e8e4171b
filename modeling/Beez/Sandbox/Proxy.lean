import Beez.Lib.Program
import Beez.Policy
import Beez.Text

/-! # The allowlist of the proxies -/

open Beez.Lib

namespace Beez

/-- `rule.matches(host, port)`. -/
def DomainRule.matches (rule : DomainRule) (host : Text) (port : BitVec 16) : Bool :=
  if rule.port.any (· != port) then false
  else
    let host := Text.toAsciiLowercase (Text.trimEndMatches ['.'] host)
    if rule.wildcard then
      (Text.stripSuffix rule.host.toList host).any fun before =>
        before.getLast? == some '.' && decide (before.length > 1)
    else host == rule.host.toList

example : (DomainRule.mk "npmjs.org" true none).matches "Registry.npmjs.org.".toList 443 = true := by
  decide
example : (DomainRule.mk "npmjs.org" true none).matches ".npmjs.org".toList 443 = false := by decide

namespace Sandbox

/-! ## Addresses -/

inductive IpAddr where
  | v4 (address : BitVec 32)
  | v6 (address : BitVec 128)
deriving DecidableEq, Repr

structure SocketAddr where
  ip : IpAddr
  port : BitVec 16
deriving DecidableEq, Repr

/-- `is_local` for an IPv4 address. -/
def isLocalV4 (address : BitVec 32) : Bool :=
  address.extractLsb' 24 8 == 127 || address.extractLsb' 16 16 == 0xA9FE || address == 0 ||
    address == 0xFFFFFFFF

/-- `address.to_ipv4_mapped()`. -/
def toIpv4Mapped (address : BitVec 128) : Option (BitVec 32) :=
  if address.extractLsb' 32 96 = 0xFFFF then some (address.extractLsb' 0 32) else none

def isLocal : IpAddr → Bool
  | .v4 address => isLocalV4 address
  | .v6 address =>
    match toIpv4Mapped address with
    | some mapped => isLocalV4 mapped
    | none =>
      let leading := address.extractLsb' 112 16
      address == 1 || address == 0 || leading &&& 0xFFC0#16 == 0xFE80#16

/-- A loopback, link-local, unspecified or broadcast IPv4 address. -/
def ReservedV4 (address : BitVec 32) : Prop :=
  address.toNat / 2 ^ 24 = 127 ∨ address.toNat / 2 ^ 16 = 169 * 2 ^ 8 + 254 ∨ address.toNat = 0 ∨
    address.toNat = 2 ^ 32 - 1

/-- An address that reaches this machine or its link. -/
inductive Reserved : IpAddr → Prop where
  | v4 {address} : ReservedV4 address → Reserved (.v4 address)
  | mapped {address : BitVec 128} {inner : BitVec 32} : ReservedV4 inner →
      address.toNat = 0xFFFF * 2 ^ 32 + inner.toNat → Reserved (.v6 address)
  | loopback : Reserved (.v6 1)
  | unspecified : Reserved (.v6 0)
  /-- The ten leading bits of `fe80::/10`. -/
  | link {address : BitVec 128} : address.toNat / 2 ^ 118 = 0xFE80 / 2 ^ 6 → Reserved (.v6 address)

theorem isLocalV4_iff (address : BitVec 32) : isLocalV4 address = true ↔ ReservedV4 address := by
  have hlt := address.isLt
  simp only [isLocalV4, ReservedV4, Bool.or_eq_true, beq_iff_eq, ← BitVec.toNat_inj,
    BitVec.extractLsb'_toNat, Nat.shiftRight_eq_div_pow]
  simp
  omega

theorem and_link (leading : BitVec 16) :
    leading &&& 0xFFC0#16 = 0xFE80#16 ↔ leading.toNat / 2 ^ 6 = 0xFE80 / 2 ^ 6 := by
  have hmask : 0xFFC0#16 = BitVec.allOnes 16 <<< 6 := by decide
  have hcut : leading &&& 0xFFC0#16 = (leading >>> 6) <<< 6 := by
    rw [hmask, ← BitVec.shiftLeft_ushiftRight]
  have hlt := leading.isLt
  rw [hcut, ← BitVec.toNat_inj]
  simp [Nat.shiftRight_eq_div_pow, Nat.shiftLeft_eq]
  omega

theorem toIpv4Mapped_iff (address : BitVec 128) (inner : BitVec 32) :
    toIpv4Mapped address = some inner ↔ address.toNat = 0xFFFF * 2 ^ 32 + inner.toNat := by
  have hlt := address.isLt
  have hinner := inner.isLt
  simp only [toIpv4Mapped, Option.ite_none_right_eq_some, Option.some.injEq, ← BitVec.toNat_inj,
    BitVec.extractLsb'_toNat, Nat.shiftRight_eq_div_pow]
  simp
  omega

theorem isLocal_iff (address : IpAddr) : isLocal address = true ↔ Reserved address := by
  cases address with
  | v4 address =>
    refine (isLocalV4_iff address).trans ⟨.v4, ?_⟩
    rintro (h | _)
    exact h
  | v6 address =>
    cases hmapped : toIpv4Mapped address with
    | some inner =>
      rw [isLocal, hmapped]
      have hvalue := (toIpv4Mapped_iff _ _).mp hmapped
      have hlt := inner.isLt
      refine (isLocalV4_iff inner).trans ⟨fun h => .mapped h hvalue, ?_⟩
      rintro (_ | ⟨hreserved, hother⟩ | _ | _ | hlink)
      · rw [hvalue, Nat.add_left_cancel_iff] at hother
        rwa [BitVec.eq_of_toNat_eq hother]
      · simp at hvalue
        omega
      · simp at hvalue
        omega
      · omega
    | none =>
      have hlt := address.isLt
      rw [isLocal, hmapped]
      simp only [Bool.or_eq_true, beq_iff_eq, and_link]
      simp only [BitVec.extractLsb'_toNat, Nat.shiftRight_eq_div_pow]
      constructor
      · rintro ((rfl | rfl) | h)
        · exact .loopback
        · exact .unspecified
        · exact .link (by omega)
      · rintro (_ | ⟨hreserved, hother⟩ | _ | _ | hlink)
        · rw [(toIpv4Mapped_iff _ _).mpr hother] at hmapped
          cases hmapped
        · simp
        · simp
        · exact .inr (by omega)

/-! ## What a proxy does with its client -/

/-- The categories of `io::ErrorKind` that the proxies tell apart. -/
inductive ErrorKind where
  | notFound | permissionDenied | invalidData | unexpectedEof | interrupted | other
deriving DecidableEq, Repr

/-- What a proxy asks of its client, of the network or of the system, except for a read. -/
inductive Op where
  | setReadTimeout (seconds : Option Nat)
  | send (bytes : List Byte)
  | flush
  | connect (address : SocketAddr)
  | forward (bytes : List Byte)
  | pipe
deriving DecidableEq, Repr

/-- The target of a denied connection. -/
inductive Target where
  | name (host : Text) (port : BitVec 16)
  | address (host : Text) (address : IpAddr)
deriving DecidableEq, Repr

/-- A line on the standard error of Beez. -/
inductive Diagnostic where
  | denied (target : Target)
  | literalIpv4
  | literalIpv6
deriving DecidableEq, Repr

/-- One connection of a client, with the answers that are still to come: what each read of it
yields, and how each of the `Op`s ends. A read after the last is the end of the stream, and an
`Op` after the last outcome succeeds. -/
structure Exchange where
  reads : List (Except ErrorKind (List Byte))
  outcomes : List (Option ErrorKind)
  log : List (Op × Option ErrorKind)
  reported : List Target
  diagnostics : List Diagnostic

abbrev ProxyM := ExceptT ErrorKind (StateM Exchange)

/-- Runs `x` and hands its error to the caller. -/
def caught {α : Type} (x : ProxyM α) : ProxyM (Except ErrorKind α) :=
  fun exchange => (.ok (x exchange).1, (x exchange).2)

def Exchange.did (exchange : Exchange) (op : Op) : Exchange :=
  { exchange with
    outcomes := exchange.outcomes.tail
    log := exchange.log ++ [(op, exchange.outcomes.headD none)] }

def perform (op : Op) : ProxyM Unit := fun exchange =>
  match exchange.outcomes.headD none with
  | none => (.ok (), exchange.did op)
  | some error => (.error error, exchange.did op)

def diagnose (diagnostic : Diagnostic) : ProxyM Unit :=
  modify fun exchange => { exchange with diagnostics := exchange.diagnostics ++ [diagnostic] }

/-! ## Reads -/

/-- `stream.read(&mut chunk)` with a buffer of `size` bytes: what it yields, and the reads left. -/
def readSome (size : Nat) : List (Except ErrorKind (List Byte)) →
    Except ErrorKind (List Byte) × List (Except ErrorKind (List Byte))
  | [] => (.ok [], [])
  | .error error :: rest => (.error error, rest)
  | .ok bytes :: rest =>
    (.ok (bytes.take size), if bytes.length ≤ size then rest else .ok (bytes.drop size) :: rest)

/-- `stream.read_exact(&mut bytes)`, with the bytes that came so far. -/
def readFully (read : List Byte) (size : Nat) : List (Except ErrorKind (List Byte)) →
    Except ErrorKind (List Byte) × List (Except ErrorKind (List Byte))
  | [] => (if size = 0 then .ok read else .error .unexpectedEof, [])
  | next :: rest =>
    if size = 0 then (.ok read, next :: rest)
    else match next with
      | .error .interrupted => readFully read size rest
      | .error error => (.error error, rest)
      | .ok [] => (.error .unexpectedEof, rest)
      | .ok bytes =>
        if bytes.length ≤ size then readFully (read ++ bytes) (size - bytes.length) rest
        else (.ok (read ++ bytes.take size), .ok (bytes.drop size) :: rest)

def readExact (size : Nat) : ProxyM (List Byte) := fun exchange =>
  let (result, reads) := readFully [] size exchange.reads
  (result, { exchange with reads })

/-! ## The rules -/

structure Rules where
  domains : List DomainRule
  localhost : Bool
deriving Repr

/-- Writes one line per denied target. -/
def report (target : Target) : ProxyM Unit := do
  let exchange ← get
  if target ∉ exchange.reported then
    modify fun exchange => { exchange with reported := target :: exchange.reported }
    diagnose (.denied target)

/-- True when a rule allows the target. Reports each denied target once. -/
def permits (rules : Rules) (host : Text) (port : BitVec 16) : ProxyM Bool :=
  if rules.domains.any (·.matches host port) then pure true
  else do
    report (.name host port)
    pure false

def permitsAddress (rules : Rules) (host : Text) (address : IpAddr) : ProxyM Bool :=
  if rules.localhost || !isLocal address then pure true
  else do
    report (.address host address)
    pure false

/-- `(host, port).to_socket_addrs()`. -/
abbrev Resolver := Text → BitVec 16 → Except ErrorKind (List SocketAddr)

def connectFirst (rules : Rules) (host : Text) (lastError : ErrorKind) :
    List SocketAddr → ProxyM Unit
  | [] => throw lastError
  | address :: rest => do
    if !(← permitsAddress rules host address.ip) then
      connectFirst rules host .permissionDenied rest
    else match ← caught (perform (.connect address)) with
      | .ok () => pure ()
      | .error error => connectFirst rules host error rest

/-- Connects to the first allowed address of `host`. -/
def connect (rules : Rules) (resolver : Resolver) (host : Text) (port : BitVec 16) :
    ProxyM Unit := do
  connectFirst rules host .notFound (← liftM (resolver host port))

end Sandbox

end Beez
