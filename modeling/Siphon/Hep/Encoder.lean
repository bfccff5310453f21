import Siphon.Library.IndexMap
import Siphon.Library.Reader
import Siphon.Transport.Address

/-!
# HEP packets

A captured message goes to a collector as a packet: the magic and a total length, then chunks, each
with a vendor, a type and a length of its own.  Lengths are numbers of sixteen bits.
-/

namespace Siphon.Hep

open BigEndian

/-! ### Constants -/

def hep3Magic : Bytes := [0x48, 0x45, 0x50, 0x33]

def chunkHeaderLen : UInt16 := 6

def genericVendor : UInt16 := 0x0000

def chunkIpFamily : UInt16 := 0x0001

def chunkIpProtocol : UInt16 := 0x0002

def chunkIpv4Src : UInt16 := 0x0003

def chunkIpv4Dst : UInt16 := 0x0004

def chunkIpv6Src : UInt16 := 0x0005

def chunkIpv6Dst : UInt16 := 0x0006

def chunkSrcPort : UInt16 := 0x0007

def chunkDstPort : UInt16 := 0x0008

def chunkTimestampSec : UInt16 := 0x0009

def chunkTimestampUsec : UInt16 := 0x000a

def chunkProtocolType : UInt16 := 0x000b

def chunkAgentId : UInt16 := 0x000c

def chunkPayload : UInt16 := 0x000f

def chunkCorrelationId : UInt16 := 0x0011

def ipprotoUdp : UInt8 := 17

def ipprotoTcp : UInt8 := 6

def ipprotoSctp : UInt8 := 132

def afInet : UInt8 := 2

def afInet6 : UInt8 := 10

def protoSip : UInt8 := 1

/-! ### Chunks -/

/-- A chunk with its header, of which the length is given. -/
def putChunk (typeId length : UInt16) (value : Bytes) : Bytes :=
  encode 2 genericVendor.toNat ++ encode 2 typeId.toNat
    ++ encode 2 length.toNat ++ value

def putChunkU8 (typeId : UInt16) (value : UInt8) : Bytes :=
  putChunk typeId (chunkHeaderLen + 1) [value]

def putChunkU16 (typeId value : UInt16) : Bytes :=
  putChunk typeId (chunkHeaderLen + 2) (encode 2 value.toNat)

def putChunkU32 (typeId : UInt16) (value : UInt32) : Bytes :=
  putChunk typeId (chunkHeaderLen + 4) (encode 4 value.toNat)

def putChunkBytes (typeId : UInt16) (value : Bytes) : Bytes :=
  putChunk typeId (chunkHeaderLen + UInt16.ofNat value.length) value

/-! ### Packets -/

/-- What is known of a captured message. -/
structure CaptureInfo where
  source : SocketAddr
  destination : SocketAddr
  transport : Transport
  timestampSecs : UInt32
  timestampUsecs : UInt32
  agentId : UInt32
  payload : Bytes
  callId : Option Bytes

def octetsV4 (bits : BitVec 32) : Bytes :=
  encode 4 bits.toNat

def octetsV6 (bits : BitVec 128) : Bytes :=
  encode 16 bits.toNat

/-- The address `::ffff:a.b.c.d`. -/
def toIpv6Mapped (bits : BitVec 32) : BitVec 128 :=
  BitVec.ofNat 128 (0xffff * 2 ^ 32 + bits.toNat)

def isIpv6 (addr : SocketAddr) : Bool :=
  match addr.ip with
  | .v6 _ => true
  | .v4 _ => false

def totalLen (info : CaptureInfo) : UInt16 :=
  let addrChunksLen :=
    if isIpv6 info.source then 2 * (chunkHeaderLen + 16) else 2 * (chunkHeaderLen + 4)
  let fixedChunksLen := (chunkHeaderLen + 1) + (chunkHeaderLen + 1) + addrChunksLen
    + (chunkHeaderLen + 2) + (chunkHeaderLen + 2) + (chunkHeaderLen + 4) + (chunkHeaderLen + 4)
    + (chunkHeaderLen + 1) + (chunkHeaderLen + 4)
  let payloadChunkLen := chunkHeaderLen + UInt16.ofNat info.payload.length
  let correlationChunkLen :=
    (info.callId.map fun callId => chunkHeaderLen + UInt16.ofNat callId.length).getD 0
  4 + 2 + fixedChunksLen + payloadChunkLen + correlationChunkLen

def ipProto : Transport → UInt8
  | .tcp | .tls | .webSocket | .webSocketSecure => ipprotoTcp
  | .sctp => ipprotoSctp
  | .udp => ipprotoUdp

/-- The address chunks.  If one of the addresses is an IPv6 address, the other is mapped. -/
def putAddresses : IpAddr → IpAddr → Bytes
  | .v4 src, .v4 dst =>
    putChunkBytes chunkIpv4Src (octetsV4 src) ++ putChunkBytes chunkIpv4Dst (octetsV4 dst)
  | .v6 src, .v6 dst =>
    putChunkBytes chunkIpv6Src (octetsV6 src) ++ putChunkBytes chunkIpv6Dst (octetsV6 dst)
  | .v4 src, .v6 dst =>
    putChunkBytes chunkIpv6Src (octetsV6 (toIpv6Mapped src))
      ++ putChunkBytes chunkIpv6Dst (octetsV6 dst)
  | .v6 src, .v4 dst =>
    putChunkBytes chunkIpv6Src (octetsV6 src)
      ++ putChunkBytes chunkIpv6Dst (octetsV6 (toIpv6Mapped dst))

def putCallId : Option Bytes → Bytes
  | some callId => putChunkBytes chunkCorrelationId callId
  | none => []

def encodeHep3 (info : CaptureInfo) : Bytes :=
  hep3Magic ++ encode 2 (totalLen info).toNat
    ++ putChunkU8 chunkIpFamily (if isIpv6 info.source then afInet6 else afInet)
    ++ putChunkU8 chunkIpProtocol (ipProto info.transport)
    ++ putAddresses info.source.ip info.destination.ip
    ++ putChunkU16 chunkSrcPort info.source.port
    ++ putChunkU16 chunkDstPort info.destination.port
    ++ putChunkU32 chunkTimestampSec info.timestampSecs
    ++ putChunkU32 chunkTimestampUsec info.timestampUsecs
    ++ putChunkU8 chunkProtocolType protoSip
    ++ putChunkU32 chunkAgentId info.agentId
    ++ putChunkBytes chunkPayload info.payload
    ++ putCallId info.callId

/-! ### Reading a packet -/

structure Chunk where
  vendor : ℕ
  typeId : ℕ
  value : Bytes

def readChunk : Reader Chunk := do
  let vendor ← Reader.number 2
  let typeId ← Reader.number 2
  let length ← Reader.number 2
  Reader.ensure (6 ≤ length)
  let value ← Reader.take (length - 6)
  return ⟨vendor, typeId, value⟩

/-- The chunks of some bytes by their types, with as many steps as said.  A chunk whose length is
less than that of its header has no value, and the loop fails on it. -/
def parseChunksFrom : ℕ → Bytes → IndexMap ℕ Bytes → Option (IndexMap ℕ Bytes)
  | 0, _, map => some map
  | fuel + 1, data, map =>
    if 6 ≤ data.length then
      let typeId := decode ((data.drop 2).take 2)
      let length := decode ((data.drop 4).take 2)
      if data.length < length then some map
      else if length < 6 then none
      else
        let value := (data.take length).drop 6
        parseChunksFrom fuel (data.drop length) (map.insert typeId value)
    else some map

def parseChunks (data : Bytes) : Option (IndexMap ℕ Bytes) :=
  parseChunksFrom data.length data IndexMap.empty

end Siphon.Hep
