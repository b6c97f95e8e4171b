import Beez.Sandbox.Proxy

/-! # The HTTP proxy, including `CONNECT` tunnels -/

namespace Beez.Sandbox

/-- Bounds the handshake only. -/
def handshakeTimeout : Nat := 30

/-! ## The request head -/

def headLimit : Nat := 64 * 1024

/-- The bytes of `\r\n\r\n`. -/
def headEnd : List Byte := [13, 10, 13, 10]

/-- `buffer.windows(4).position(|window| window == b"\r\n\r\n")`. -/
def headEndAt : List Byte → Option Nat
  | [] => none
  | b :: rest =>
    if headEnd.isPrefixOf (b :: rest) then some 0 else (headEndAt rest).map (· + 1)

/-- The head and the bytes that followed it, with the reads left. -/
def takeHead (buffer : List Byte) (reads : List (Except ErrorKind (List Byte))) :
    Except ErrorKind (List Byte × List Byte) × List (Except ErrorKind (List Byte)) :=
  match readSome 4096 reads with
  | (.error error, rest) => (.error error, rest)
  | (.ok [], rest) => (.error .unexpectedEof, rest)
  | (.ok (b :: bytes), rest) =>
    let grown := buffer ++ b :: bytes
    match headEndAt grown with
    | some index => (.ok (grown.take (index + 4), grown.drop (index + 4)), rest)
    | none =>
      if grown.length > headLimit then (.error .invalidData, rest) else takeHead grown rest
termination_by headLimit - buffer.length
decreasing_by
  simp only [grown, List.length_append, List.length_cons] at *
  omega

def readHead : ProxyM (List Byte × List Byte) := fun exchange =>
  let (result, reads) := takeHead [] exchange.reads
  (result, { exchange with reads })

/-- Splits `host:port` or `[v6]:port`, defaulting to `defaultPort`. -/
def splitAuthority (authority : Text) (defaultPort : BitVec 16) : Option (Text × BitVec 16) := do
  let authority := ((Text.rsplitOnce '@' authority).map (·.2)).getD authority
  match Text.stripPrefix ['['] authority with
  | some rest =>
    let (host, port) ← Text.splitOnce ']' rest
    match Text.stripPrefix [':'] port with
    | some port => return (host, ← Text.parseU16 port)
    | none => return (host, defaultPort)
  | none =>
    match Text.rsplitOnce ':' authority with
    | some (host, port) => return (host, ← Text.parseU16 port)
    | none => return (authority, defaultPort)

example : splitAuthority "user:secret@example.com".toList 80 = some ("example.com".toList, 80) := by
  decide
example : splitAuthority "[::1]:3000".toList 80 = some ("::1".toList, 3000) := by decide

/-- Forces the upstream to close after one response, so that the connection cannot be reused for
a different host. -/
def rewriteHead (head : Text) : Text :=
  let lines := Text.splitLines head
  let kept := lines.tail.filter fun line =>
    let name := Text.toAsciiLowercase (Text.trim (line.takeWhile (· != ':')))
    line != [] && name != "connection".toList && name != "proxy-connection".toList
  lines.headD [] ++ "\r\n".toList ++ kept.flatMap (· ++ "\r\n".toList) ++
    "Connection: close\r\n\r\n".toList

/-- The target a request names, and the head to forward when it is not a tunnel. -/
structure Request where
  host : Text
  port : BitVec 16
  forward : Option Text
deriving DecidableEq

/-- Reads the target out of a request head, or `none` when the head is malformed. -/
def parseRequest (head : List Byte) : Option Request := do
  let head ← Text.fromUtf8 head
  let requestLine := Text.splitOn ' ' ((Text.splitLines head).headD [])
  let method ← requestLine[0]?
  let target ← requestLine[1]?
  if Text.toAsciiLowercase method = "connect".toList then
    let (host, port) ← splitAuthority target 443
    return ⟨host, port, none⟩
  let rest ← (Text.stripPrefix "http://".toList target).orElse fun _ =>
    Text.stripPrefix "HTTP://".toList target
  let authority := rest.takeWhile (· ∉ ['/', '?', '#'])
  let (host, port) ← splitAuthority authority 80
  return ⟨host, port, some (rewriteHead head)⟩

/-! ## Serving -/

def response (status : String) : List Byte :=
  Text.toUtf8 ("HTTP/1.1 ".toList ++ status.toList ++
    "\r\nContent-Length: 0\r\nConnection: close\r\n\r\n".toList)

def respond (status : String) : ProxyM Unit := do
  perform (.send (response status))
  perform .flush

/-- What follows once the upstream is connected. -/
def tunnel (forward : Option Text) (earlyBody : List Byte) : ProxyM Unit := do
  perform (.setReadTimeout none)
  match forward with
  | some head => perform (.forward (Text.toUtf8 head))
  | none => do
    perform (.send (Text.toUtf8 "HTTP/1.1 200 Connection Established\r\n\r\n".toList))
    perform .flush
  perform (.forward earlyBody)
  perform .pipe

def serveHttp (rules : Rules) (resolver : Resolver) : ProxyM Unit := do
  perform (.setReadTimeout (some handshakeTimeout))
  match ← caught readHead with
  | .error error => do
    let _ ← caught (respond "400 Bad Request")
    throw error
  | .ok (head, earlyBody) =>
    match parseRequest head with
    | none => respond "400 Bad Request"
    | some request => do
      if !(← permits rules request.host request.port) then respond "403 Forbidden"
      else match ← caught (connect rules resolver request.host request.port) with
        | .ok () => tunnel request.forward earlyBody
        | .error .permissionDenied => respond "403 Forbidden"
        | .error error => do
          let _ ← caught (respond "502 Bad Gateway")
          throw error

end Beez.Sandbox
