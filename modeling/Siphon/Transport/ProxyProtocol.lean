import Siphon.Library.BigEndian
import Siphon.Sip.Parser
import Siphon.Transport.Address

/-!
# The PROXY protocol

A front that hands a connection on says in a header, a line of text in version 1 and a binary block
in version 2, whose connection it is.  The header is read before anything else, and what was read
past it is replayed.
-/

namespace Siphon.ProxyProtocol

/-- The addresses of the standard library: `IpAddr::from_str`. -/
class StdAddr where
  parseIp : Text → Option IpAddr

/-! ### Verdicts -/

/-- The version 1 signature, `PROXY ` in ASCII. -/
def v1Prefix : Bytes := [0x50, 0x52, 0x4F, 0x58, 0x59, 0x20]

def v2Signature : Bytes :=
  [0x0D, 0x0A, 0x0D, 0x0A, 0x00, 0x0D, 0x0A, 0x51, 0x55, 0x49, 0x54, 0x0A]

def v1MaxLen : ℕ := 108

def v2HeaderLen : ℕ := 16

def v2MaxBody : ℕ := 1024

def v2CmdProxy : UInt8 := 0x01

def v2CmdLocal : UInt8 := 0x00

def v2Tcp4 : UInt8 := 0x11

def v2Tcp6 : UInt8 := 0x21

def pp2TypeSsl : UInt8 := 0x20

def pp2SubtypeSslVersion : UInt8 := 0x21

def pp2ClientSsl : UInt8 := 0x01

/-- What the client negotiated with the front. -/
structure EdgeTls where
  usedTls : Bool
  clientCertVerified : Bool
  version : Option Text
deriving DecidableEq

structure ProxiedAddresses where
  source : SocketAddr
  destination : SocketAddr
  edgeTls : Option EdgeTls
deriving DecidableEq

/-- The verdict on the bytes seen so far. -/
inductive ProxyHeader where
  | decided (addresses : ProxiedAddresses) (consumed : ℕ)
  | needMore
  | noAddresses (consumed : ℕ)
  | invalid
deriving DecidableEq

def ProxyHeader.consumed : ProxyHeader → Option ℕ
  | .decided _ n => some n
  | .noAddresses n => some n
  | _ => none

/-! ### Version 1 -/

section

variable [StdAddr]

/-- One address and port, of the family the header declares. -/
def socketAddr (ip port : Text) (family : UInt8) : Option SocketAddr := do
  let ip ← StdAddr.parseIp ip
  let matchesFamily := match ip with
    | .v4 _ => family == v2Tcp4
    | .v6 _ => family == v2Tcp6
  if !matchesFamily then none
  else
    let port ← Decimal.parse (2 ^ 16) port
    some ⟨ip, UInt16.ofNat port⟩

def parseV1Addresses (consumed : ℕ) (family : UInt8) : List Text → ProxyHeader
  | [sourceIp, destinationIp, sourcePort, destinationPort] =>
    match socketAddr sourceIp sourcePort family with
    | none => .invalid
    | some source =>
      match socketAddr destinationIp destinationPort family with
      | none => .invalid
      | some destination => .decided ⟨source, destination, none⟩ consumed
  | _ => .invalid

def parseV1Fields (consumed : ℕ) : List Text → ProxyHeader
  | proxy :: family :: fields =>
    if proxy ≠ "PROXY".toList then .invalid
    else if family = "TCP4".toList then parseV1Addresses consumed v2Tcp4 fields
    else if family = "TCP6".toList then parseV1Addresses consumed v2Tcp6 fields
    else if family = "UNKNOWN".toList then .noAddresses consumed
    else .invalid
  | _ => .invalid

def parseV1 (buffer : Bytes) : ProxyHeader :=
  match Slice.position crlf buffer with
  | none => if v1MaxLen ≤ buffer.length then .invalid else .needMore
  | some lineEnd =>
    let consumed := lineEnd + 2
    if v1MaxLen < consumed then .invalid
    else
      match Utf8.decode (buffer.take lineEnd) with
      | none => .invalid
      | some line => parseV1Fields consumed (line.splitOn ' ')

end

/-! ### Version 2 -/

/-- The version among the fields of a TLS description; the last one counts. -/
def sslVersion (version : Option Text) (nested : Bytes) : Option Text :=
  match nested with
  | subType :: high :: low :: tail =>
    let length := BigEndian.decode [high, low]
    if tail.length < length then version
    else
      let version :=
        if subType = pp2SubtypeSslVersion then Utf8.decode (tail.take length) else version
      sslVersion version (tail.drop length)
  | _ => version
termination_by nested.length
decreasing_by
  simp only [List.length_drop, List.length_cons]
  omega

/-- The TLS description: the `client` byte, the `verify` word and the fields. -/
def parseSslValue (value : Bytes) : EdgeTls where
  usedTls := value.headD 0 &&& pp2ClientSsl != 0
  clientCertVerified := 5 ≤ value.length && (value.drop 1).take 4 == [0, 0, 0, 0]
  version := sslVersion none (value.drop 5)

/-- The TLS description among the fields after the addresses. -/
def parseSslTlv (rest : Bytes) : Option EdgeTls :=
  match rest with
  | tlvType :: high :: low :: tail =>
    let length := BigEndian.decode [high, low]
    if tail.length < length then none
    else if tlvType = pp2TypeSsl then some (parseSslValue (tail.take length))
    else parseSslTlv (tail.drop length)
  | _ => none
termination_by rest.length
decreasing_by
  simp only [List.length_drop, List.length_cons]
  omega

def slice (body : Bytes) (start stop : ℕ) : Bytes :=
  (body.drop start).take (stop - start)

def portAt (body : Bytes) (start : ℕ) : UInt16 :=
  UInt16.ofNat (BigEndian.decode (slice body start (start + 2)))

def ipv4At (body : Bytes) (start : ℕ) : IpAddr :=
  .v4 (BitVec.ofNat 32 (BigEndian.decode (slice body start (start + 4))))

def ipv6At (body : Bytes) (start : ℕ) : IpAddr :=
  .v6 (BitVec.ofNat 128 (BigEndian.decode (slice body start (start + 16))))

/-- The verdict on the addresses of a complete header. -/
def parseV2Addresses (family : UInt8) (consumed : ℕ) (body : Bytes) : ProxyHeader :=
  if family = v2Tcp4 then
    if body.length < 12 then .invalid
    else
      .decided ⟨⟨ipv4At body 0, portAt body 8⟩, ⟨ipv4At body 4, portAt body 10⟩,
        parseSslTlv (body.drop 12)⟩ consumed
  else if family = v2Tcp6 then
    if body.length < 36 then .invalid
    else
      .decided ⟨⟨ipv6At body 0, portAt body 32⟩, ⟨ipv6At body 16, portAt body 34⟩,
        parseSslTlv (body.drop 36)⟩ consumed
  else .noAddresses consumed

/-- The verdict on the command of a complete header. -/
def parseV2Command (verCmd family : UInt8) (consumed : ℕ) (body : Bytes) : ProxyHeader :=
  let command := verCmd &&& 0x0F
  if command = v2CmdLocal then .noAddresses consumed
  else if command = v2CmdProxy then parseV2Addresses family consumed body
  else .invalid

def parseV2 (buffer : Bytes) : ProxyHeader :=
  if buffer.length < v2HeaderLen then .needMore
  else
    let verCmd := buffer.getD 12 0
    if verCmd >>> 4 ≠ 0x02 then .invalid
    else
      let bodyLen := BigEndian.decode (slice buffer 14 16)
      if v2MaxBody < bodyLen then .invalid
      else
        let consumed := v2HeaderLen + bodyLen
        if buffer.length < consumed then .needMore
        else
          parseV2Command verCmd (buffer.getD 13 0) consumed (slice buffer v2HeaderLen consumed)

/-! ### The head of a connection -/

def startsWithOrIsPrefixOf (buffer signature : Bytes) : Bool :=
  if signature.length ≤ buffer.length then signature.isPrefixOf buffer
  else buffer.isPrefixOf signature

inductive IoErrorKind where
  | unexpectedEof
  | timedOut
  | other
deriving DecidableEq

structure IoError where
  kind : IoErrorKind
  text : String
deriving DecidableEq

/-- What a read of the connection gives: bytes, none of them if the peer has closed, or an error. -/
abbrev ReadResult := Except IoError Bytes

section

variable [StdAddr]

def parse (buffer : Bytes) : ProxyHeader :=
  if v2Signature.isPrefixOf buffer then parseV2 buffer
  else if v1Prefix.isPrefixOf buffer then parseV1 buffer
  else if startsWithOrIsPrefixOf buffer v1Prefix || startsWithOrIsPrefixOf buffer v2Signature then
    .needMore
  else .invalid

/-- Read a header: the verdict, every byte read, and the reads that are left.  The deadline passes
when there are no more. -/
def readProxyHeader (buffer : Bytes) (reads : List ReadResult) :
    Except IoError (ProxyHeader × Bytes) × List ReadResult :=
  match parse buffer, reads with
  | .needMore, [] => (.error ⟨.timedOut, "no PROXY header within the read deadline"⟩, [])
  | .needMore, .error error :: reads => (.error error, reads)
  | .needMore, .ok [] :: reads =>
    (.error ⟨.unexpectedEof, "peer closed before sending a PROXY header"⟩, reads)
  | .needMore, .ok chunk :: reads => readProxyHeader (buffer ++ chunk) reads
  | verdict, reads => (.ok (verdict, buffer), reads)

/-- Apply a verdict: the address to key on, the client's TLS, and the bytes to replay. -/
def ProxyHeader.apply (peer : SocketAddr) (buffer : Bytes) :
    ProxyHeader → Option (SocketAddr × Option EdgeTls × Bytes)
  | .decided addresses consumed => some (addresses.source, addresses.edgeTls, buffer.drop consumed)
  | .noAddresses consumed => some (peer, none, buffer.drop consumed)
  | .invalid => none
  | .needMore => none

/-- Read a header where a connection is accepted and apply its verdict; nothing if the connection
is over. -/
def acceptProxied (peer : SocketAddr) (reads : List ReadResult) :
    Option (SocketAddr × Option EdgeTls × Bytes) × List ReadResult :=
  match readProxyHeader [] reads with
  | (.ok (verdict, buffer), reads) => (verdict.apply peer buffer, reads)
  | (.error _, reads) => (none, reads)

end

end Siphon.ProxyProtocol
