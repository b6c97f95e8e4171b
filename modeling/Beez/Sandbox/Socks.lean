import Beez.Sandbox.Http

/-! # The SOCKS5 proxy

It takes domain-name targets only, so that the allowlist can match.
-/

namespace Beez.Sandbox

def socksVersion : Byte := 5
def socksNoAuth : Byte := 0
def socksNoAcceptableAuth : Byte := 0xFF
def socksConnect : Byte := 1
def socksAddressIpv4 : Byte := 1
def socksAddressDomain : Byte := 3
def socksAddressIpv6 : Byte := 4
def socksSucceeded : Byte := 0
def socksGeneralFailure : Byte := 1
def socksNotAllowed : Byte := 2
def socksHostUnreachable : Byte := 4
def socksCommandUnsupported : Byte := 7
def socksAddressUnsupported : Byte := 8

def socksAnswer (status : Byte) : List Byte :=
  [socksVersion, status, 0, socksAddressIpv4, 0, 0, 0, 0, 0, 0]

def socksReply (status : Byte) : ProxyM Unit := do
  perform (.send (socksAnswer status))
  perform .flush

/-- The byte at `index` of a read that filled its buffer. -/
def byteAt (bytes : List Byte) (index : Nat) : Byte := bytes.getD index 0

/-- Agrees to use no authentication. `false` means that the client already got a refusal. -/
def negotiateAuth : ProxyM Bool := do
  let greeting ← readExact 2
  if byteAt greeting 0 ≠ socksVersion then throw .invalidData
  let methods ← readExact (byteAt greeting 1).toNat
  if socksNoAuth ∉ methods then
    perform (.send [socksVersion, socksNoAcceptableAuth])
    return false
  perform (.send [socksVersion, socksNoAuth])
  return true

/-- Reads the host of a domain-name target. -/
def readName : ProxyM Text := do
  let length ← readExact 1
  let name ← readExact (byteAt length 0).toNat
  return Text.fromUtf8Lossy name

/-- Refuses a target with a literal address, which the allowlist can never match. -/
def refuseLiteral (size : Nat) (diagnostic : Diagnostic) :
    ProxyM (Option (Text × BitVec 16)) := do
  let _ ← readExact size
  diagnose diagnostic
  socksReply socksNotAllowed
  return none

/-- Reads the requested host and port. `none` means that the client already got a refusal. -/
def readTarget : ProxyM (Option (Text × BitVec 16)) := do
  let request ← readExact 4
  let addressType := byteAt request 3
  if byteAt request 1 ≠ socksConnect then
    socksReply socksCommandUnsupported
    return none
  else if addressType = socksAddressDomain then
    let host ← readName
    let port ← readExact 2
    return some (host, byteAt port 0 ++ byteAt port 1)
  else if addressType = socksAddressIpv4 then refuseLiteral 6 .literalIpv4
  else if addressType = socksAddressIpv6 then refuseLiteral 18 .literalIpv6
  else
    socksReply socksAddressUnsupported
    return none

/-- The reply to a client whose connection failed. -/
def failureStatus : ErrorKind → Byte
  | .notFound => socksHostUnreachable
  | .permissionDenied => socksNotAllowed
  | _ => socksGeneralFailure

def serveSocks (rules : Rules) (resolver : Resolver) : ProxyM Unit := do
  perform (.setReadTimeout (some handshakeTimeout))
  if !(← negotiateAuth) then return
  match ← readTarget with
  | none => return
  | some (host, port) => do
    if !(← permits rules host port) then socksReply socksNotAllowed
    else match ← caught (connect rules resolver host port) with
      | .error error => do
        let _ ← caught (socksReply (failureStatus error))
        throw error
      | .ok () => do
        perform (.setReadTimeout none)
        socksReply socksSucceeded
        perform .pipe

end Beez.Sandbox
