import Siphon.Hep.Encoder

/-!
# Well-formed HEP packets

A packet is the magic, the announced length and a list of chunks.
-/

namespace Siphon.Hep

open List BigEndian

/-! ### Chunks -/

def chunk (typeId : UInt16) (value : Bytes) : Chunk :=
  ⟨0, typeId.toNat, value⟩

def Chunk.encode (c : Chunk) : Bytes :=
  putChunkBytes (UInt16.ofNat c.typeId) c.value

variable (typeId : UInt16)

theorem length_putChunkBytes (value : Bytes) :
  (putChunkBytes typeId value).length = 6 + value.length
  := by
  simp [putChunkBytes, putChunk]
  omega

theorem encode_chunk (value : Bytes) :
  (chunk typeId value).encode = putChunkBytes typeId value
  := by
  simp [Chunk.encode, chunk]

variable {value : Bytes}

theorem toNat_chunkLength (h : value.length + 6 < 2 ^ 16) :
  (chunkHeaderLen + UInt16.ofNat value.length).toNat = value.length + 6
  := by
  rw [UInt16.toNat_add, UInt16.toNat_ofNat']
  simp only [chunkHeaderLen, UInt16.reduceToNat]
  omega

theorem reads_chunk (h : value.length + 6 < 2 ^ 16) :
  readChunk.Reads (putChunkBytes typeId value) (chunk typeId value)
  := by
  unfold putChunkBytes putChunk readChunk
  rw [append_assoc, append_assoc, toNat_chunkLength h]
  apply Reader.Reads.bind (Reader.reads_number (by decide))
  apply Reader.Reads.bind (Reader.reads_number typeId.toNat_lt)
  apply Reader.Reads.bind (Reader.reads_number h)
  apply Reader.Reads.bind_nil (Reader.reads_ensure (by omega))
  apply Reader.Reads.bind_last (Reader.reads_take (by omega))
  exact Reader.Reads.pure _

theorem parseChunksFrom_chunk (h : value.length + 6 < 2 ^ 16) (fuel : ℕ) (rest : Bytes)
    (map : IndexMap ℕ Bytes) :
  parseChunksFrom (fuel + 1) (putChunkBytes typeId value ++ rest) map
    = parseChunksFrom fuel rest (map.insert typeId.toNat value)
  := by
  have hlength := length_putChunkBytes typeId value
  have hdata : (putChunkBytes typeId value ++ rest).length
      = 6 + value.length + rest.length := by
    rw [length_append, hlength]
  have htypeId : decode (((putChunkBytes typeId value ++ rest).drop 2).take 2)
      = typeId.toNat :=
    @decode_encode_of_lt 2 _ typeId.toNat_lt
  have hchunk : decode (((putChunkBytes typeId value ++ rest).drop 4).take 2)
      = value.length + 6 :=
    (@decode_encode_of_lt 2 _ (UInt16.toNat_lt _)).trans (toNat_chunkLength h)
  have hvalue : ((putChunkBytes typeId value ++ rest).take (value.length + 6)).drop 6 = value := by
    rw [take_left' (by omega)]
    rfl
  have hrest : (putChunkBytes typeId value ++ rest).drop (value.length + 6) = rest :=
    drop_left' (by omega)
  rw [parseChunksFrom, if_pos (by omega), htypeId, hchunk]
  rw [if_neg (by omega), if_neg (by omega), hvalue, hrest]

variable {chunks : List (UInt16 × Bytes)}

theorem parseChunksFrom_flatMap {fuel : ℕ} (h : ∀ c ∈ chunks, c.2.length + 6 < 2 ^ 16)
    (hfuel : chunks.length ≤ fuel) (map : IndexMap ℕ Bytes) :
  parseChunksFrom fuel (chunks.flatMap fun c => putChunkBytes c.1 c.2) map
    = some (chunks.foldl (fun map c => map.insert c.1.toNat c.2) map)
  := by
  induction chunks generalizing fuel map with
  | nil =>
    cases fuel with
    | zero | succ => rfl
  | cons c chunks ih =>
    obtain ⟨fuel, rfl⟩ := Nat.exists_eq_add_of_lt (Nat.lt_of_succ_le hfuel)
    rw [flatMap_cons, parseChunksFrom_chunk c.1 (h c mem_cons_self)]
    exact ih (fun d hd => h d (mem_cons_of_mem _ hd)) (Nat.le_add_right ..) _

/-! ### Packets -/

def addressChunks : IpAddr → IpAddr → List (UInt16 × Bytes)
  | .v4 src, .v4 dst => [(chunkIpv4Src, octetsV4 src), (chunkIpv4Dst, octetsV4 dst)]
  | .v6 src, .v6 dst => [(chunkIpv6Src, octetsV6 src), (chunkIpv6Dst, octetsV6 dst)]
  | .v4 src, .v6 dst =>
    [(chunkIpv6Src, octetsV6 (toIpv6Mapped src)), (chunkIpv6Dst, octetsV6 dst)]
  | .v6 src, .v4 dst =>
    [(chunkIpv6Src, octetsV6 src), (chunkIpv6Dst, octetsV6 (toIpv6Mapped dst))]

def sentChunks (info : CaptureInfo) : List (UInt16 × Bytes) :=
  [(chunkIpFamily, [if isIpv6 info.source then afInet6 else afInet]),
      (chunkIpProtocol, [ipProto info.transport])]
    ++ addressChunks info.source.ip info.destination.ip
    ++ [(chunkSrcPort, encode 2 info.source.port.toNat),
      (chunkDstPort, encode 2 info.destination.port.toNat),
      (chunkTimestampSec, encode 4 info.timestampSecs.toNat),
      (chunkTimestampUsec, encode 4 info.timestampUsecs.toNat),
      (chunkProtocolType, [protoSip]),
      (chunkAgentId, encode 4 info.agentId.toNat),
      (chunkPayload, info.payload)]
    ++ (info.callId.map fun callId => (chunkCorrelationId, callId)).toList

variable (info : CaptureInfo)

theorem encodeHep3_eq :
  encodeHep3 info = hep3Magic ++ encode 2 (totalLen info).toNat
    ++ (sentChunks info).flatMap fun c => putChunkBytes c.1 c.2
  := by
  have haddresses : putAddresses info.source.ip info.destination.ip
      = (addressChunks info.source.ip info.destination.ip).flatMap
        fun c => putChunkBytes c.1 c.2 := by
    cases info.source.ip <;> cases info.destination.ip <;> simp [putAddresses, addressChunks]
  have hcallId : putCallId info.callId
      = ((info.callId.map fun callId => (chunkCorrelationId, callId)).toList).flatMap
        fun c => putChunkBytes c.1 c.2 := by
    cases info.callId <;> simp [putCallId]
  unfold encodeHep3
  rw [haddresses, hcallId, sentChunks]
  simp only [flatMap_append, flatMap_cons, flatMap_nil, append_assoc, append_nil]
  rfl

/-! ### Lengths -/

/-- The length of the address chunks, with IPv6 addresses or without. -/
def addressesLength (ipv6 : Bool) : ℕ :=
  if ipv6 then 44 else 20

def packetLength (ipv6 : Bool) (info : CaptureInfo) : ℕ :=
  79 + addressesLength ipv6 + info.payload.length
    + (info.callId.map fun callId => 6 + callId.length).getD 0

theorem length_putAddresses :
  (putAddresses info.source.ip info.destination.ip).length
    = addressesLength (isIpv6 info.source || isIpv6 info.destination)
  := by
  rw [isIpv6, isIpv6]
  cases info.source.ip <;> cases info.destination.ip <;>
    simp [putAddresses, length_putChunkBytes, octetsV4, octetsV6, addressesLength]

theorem length_encodeHep3 :
  (encodeHep3 info).length = packetLength (isIpv6 info.source || isIpv6 info.destination) info
  := by
  have hcallId : (putCallId info.callId).length
      = (info.callId.map fun callId => 6 + callId.length).getD 0 := by
    cases info.callId <;> simp [putCallId, length_putChunkBytes]
  simp only [encodeHep3, length_append, length_encode, length_putAddresses, hcallId,
    length_putChunkBytes, putChunkU8, putChunkU16, putChunkU32, putChunk, hep3Magic,
    length_cons, length_nil, packetLength]
  omega

theorem toNat_totalLen :
  (totalLen info).toNat = packetLength (isIpv6 info.source) info % 2 ^ 16
  := by
  unfold totalLen packetLength
  cases isIpv6 info.source <;> cases info.callId <;>
    simp [chunkHeaderLen, addressesLength, UInt16.toNat_add] <;> omega

/-! ### Well-formed packets -/

def asIpv6 : IpAddr → BitVec 128
  | .v4 bits => toIpv6Mapped bits
  | .v6 bits => bits

/-- The family and the addresses of a capture are among the chunks, and chunks of the other kind
are not. -/
def ReadsAddresses (info : CaptureInfo) (chunks : IndexMap ℕ Bytes) : Prop :=
  match info.source.ip, info.destination.ip with
  | .v4 src, .v4 dst =>
    chunks.get? chunkIpFamily.toNat = some [afInet]
      ∧ chunks.get? chunkIpv4Src.toNat = some (octetsV4 src)
      ∧ chunks.get? chunkIpv4Dst.toNat = some (octetsV4 dst)
      ∧ chunks.get? chunkIpv6Src.toNat = none ∧ chunks.get? chunkIpv6Dst.toNat = none
  | src, dst =>
    chunks.get? chunkIpFamily.toNat = some [afInet6]
      ∧ chunks.get? chunkIpv6Src.toNat = some (octetsV6 (asIpv6 src))
      ∧ chunks.get? chunkIpv6Dst.toNat = some (octetsV6 (asIpv6 dst))
      ∧ chunks.get? chunkIpv4Src.toNat = none ∧ chunks.get? chunkIpv4Dst.toNat = none

/-- The fields of a capture are among the chunks. -/
structure ReadsBack (info : CaptureInfo) (chunks : IndexMap ℕ Bytes) : Prop where
  addresses : ReadsAddresses info chunks
  ipProtocol : chunks.get? chunkIpProtocol.toNat = some [ipProto info.transport]
  srcPort : (chunks.get? chunkSrcPort.toNat).map decode = some info.source.port.toNat
  dstPort : (chunks.get? chunkDstPort.toNat).map decode
    = some info.destination.port.toNat
  timestampSec : (chunks.get? chunkTimestampSec.toNat).map decode
    = some info.timestampSecs.toNat
  timestampUsec : (chunks.get? chunkTimestampUsec.toNat).map decode
    = some info.timestampUsecs.toNat
  protocolType : chunks.get? chunkProtocolType.toNat = some [protoSip]
  agentId : (chunks.get? chunkAgentId.toNat).map decode = some info.agentId.toNat
  payload : chunks.get? chunkPayload.toNat = some info.payload
  correlationId : chunks.get? chunkCorrelationId.toNat = info.callId

/-- A packet of a capture is well formed: its announced length is its length, its chunks leave
nothing over, and the fields of the capture are read back from them. -/
structure WellFormed (info : CaptureInfo) (packet : Bytes) : Prop where
  length : decode ((packet.drop 4).take 2) = packet.length
  tiles : (Reader.walk readChunk (packet.drop 6)).isSome = true
  readsBack : ∃ chunks, parseChunks (packet.drop 6) = some chunks ∧ ReadsBack info chunks

theorem drop_encodeHep3 :
  (encodeHep3 info).drop 6 = (sentChunks info).flatMap fun c => putChunkBytes c.1 c.2
  := by
  rw [encodeHep3_eq]
  exact drop_left' rfl

theorem announced_encodeHep3 :
  decode (((encodeHep3 info).drop 4).take 2)
    = packetLength (isIpv6 info.source) info % 2 ^ 16
  := by
  rw [← toNat_totalLen, encodeHep3_eq]
  exact @decode_encode_of_lt 2 _ (UInt16.toNat_lt _)

variable {info : CaptureInfo}

theorem length_of_mem_sentChunks {c : UInt16 × Bytes} (h : c ∈ sentChunks info) :
  c.2.length + 6 ≤ (encodeHep3 info).length
  := by
  have hsub : (putChunkBytes c.1 c.2).length ≤ ((encodeHep3 info).drop 6).length := by
    rw [drop_encodeHep3, List.flatMap]
    apply List.Sublist.length_le
    exact sublist_flatten_of_mem (mem_map_of_mem h)
  rw [length_putChunkBytes, length_drop] at hsub
  omega

theorem putChunkBytes_ne_nil :
  ∀ c ∈ chunks, putChunkBytes c.1 c.2 ≠ []
  := by
  intro c _ hnil
  have hlength := length_putChunkBytes c.1 c.2
  rw [hnil, length_nil] at hlength
  omega

theorem walk_encodeHep3 (h : ∀ c ∈ sentChunks info, c.2.length + 6 < 2 ^ 16) :
  Reader.walk readChunk ((encodeHep3 info).drop 6)
    = some ((sentChunks info).map fun c => chunk c.1 c.2)
  := by
  have hencode : (sentChunks info).flatMap (fun c => putChunkBytes c.1 c.2)
      = ((sentChunks info).map fun c => chunk c.1 c.2).flatMap Chunk.encode := by
    rw [flatMap_map]
    simp only [encode_chunk]
  rw [drop_encodeHep3, hencode]
  apply Reader.walk_flatMap
  · intro c hc
    obtain ⟨d, hd, rfl⟩ := mem_map.mp hc
    rw [encode_chunk]
    exact putChunkBytes_ne_nil d hd
  · intro c hc
    obtain ⟨d, hd, rfl⟩ := mem_map.mp hc
    rw [encode_chunk]
    exact reads_chunk d.1 (h d hd)

theorem get?_foldl_insert (chunks : List (UInt16 × Bytes)) (map : IndexMap ℕ Bytes) (k : ℕ) :
  (chunks.foldl (fun map c => map.insert c.1.toNat c.2) map).get? k
    = chunks.foldl (fun found c => if k = c.1.toNat then some c.2 else found) (map.get? k)
  := by
  induction chunks generalizing map with
  | nil => rfl
  | cons c chunks ih => rw [foldl_cons, ih, foldl_cons, IndexMap.get?_insert]

theorem foldl_addressChunks {k : ℕ} (h : k < 3 ∨ 6 < k) (src dst : IpAddr) (found : Option Bytes) :
  (addressChunks src dst).foldl (fun found c => if k = c.1.toNat then some c.2 else found) found
    = found
  := by
  have h3 : k ≠ 3 := by omega
  have h4 : k ≠ 4 := by omega
  have h5 : k ≠ 5 := by omega
  have h6 : k ≠ 6 := by omega
  cases src <;> cases dst <;>
    simp [addressChunks, chunkIpv4Src, chunkIpv4Dst, chunkIpv6Src, chunkIpv6Dst, h3, h4, h5, h6]

theorem readsBack_sentChunks (h : isIpv6 info.destination = true → isIpv6 info.source = true) :
  ReadsBack info ((sentChunks info).foldl (fun map c => map.insert c.1.toNat c.2) IndexMap.empty)
  := by
  have hport (port : UInt16) : decode (encode 2 port.toNat) = port.toNat :=
    decode_encode_of_lt port.toNat_lt
  have hword (n : UInt32) : decode (encode 4 n.toNat) = n.toNat :=
    decode_encode_of_lt n.toNat_lt
  refine ⟨?_, ?_, ?_, ?_, ?_, ?_, ?_, ?_, ?_, ?_⟩
  · unfold ReadsAddresses
    simp only [get?_foldl_insert, sentChunks]
    cases hsrc : info.source.ip <;> cases hdst : info.destination.ip <;> cases info.callId <;>
      simp [isIpv6, hsrc, hdst, addressChunks, asIpv6, chunkIpFamily, chunkIpProtocol,
        chunkIpv4Src, chunkIpv4Dst, chunkIpv6Src, chunkIpv6Dst, chunkSrcPort, chunkDstPort,
        chunkTimestampSec, chunkTimestampUsec, chunkProtocolType, chunkAgentId, chunkPayload,
        chunkCorrelationId, IndexMap.empty, IndexMap.get?] at h ⊢
  all_goals
    simp only [get?_foldl_insert, sentChunks, foldl_append]
    rw [foldl_addressChunks (by decide)]
    cases info.callId <;>
      simp [chunkIpFamily, chunkIpProtocol, chunkSrcPort, chunkDstPort, hport, hword,
        chunkTimestampSec, chunkTimestampUsec, chunkProtocolType, chunkAgentId, chunkPayload,
        chunkCorrelationId, IndexMap.empty, IndexMap.get?]

/-- The packet of a capture is well formed if and only if the capture does not go from an IPv4 to
an IPv6 address and the packet's length is a number of sixteen bits. -/
theorem encodeHep3_wellFormed_iff (info : CaptureInfo) :
  WellFormed info (encodeHep3 info)
    ↔ (isIpv6 info.destination = true → isIpv6 info.source = true)
      ∧ packetLength (isIpv6 info.source) info < 2 ^ 16
  := by
  have hlength := length_encodeHep3 info
  have hannounced := announced_encodeHep3 info
  constructor
  · intro h
    have heq := h.length
    rw [hannounced, hlength] at heq
    cases hsrc : isIpv6 info.source <;> cases hdst : isIpv6 info.destination <;>
      simp [hsrc, hdst, packetLength, addressesLength] at heq ⊢ <;> omega
  rintro ⟨hkind, hfits⟩
  have hsame : (isIpv6 info.source || isIpv6 info.destination) = isIpv6 info.source := by
    cases hsrc : isIpv6 info.source with
    | true => rfl
    | false => simpa [hsrc] using hkind
  rw [hsame] at hlength
  have hchunks : ∀ c ∈ sentChunks info, c.2.length + 6 < 2 ^ 16 := by
    intro c hc
    have hle := length_of_mem_sentChunks hc
    omega
  refine ⟨?_, ?_, ?_⟩
  · rw [hannounced, hlength, Nat.mod_eq_of_lt hfits]
  · rw [walk_encodeHep3 hchunks]
    rfl
  · refine ⟨_, ?_, readsBack_sentChunks hkind⟩
    rw [drop_encodeHep3]
    exact parseChunksFrom_flatMap hchunks (Reader.length_le_flatMap putChunkBytes_ne_nil) _

/-- A capture of an empty message, sent from an IPv4 to an IPv6 address. -/
def fromV4ToV6 : CaptureInfo :=
  ⟨⟨.v4 0xC0000201, 5060⟩, ⟨.v6 0x20010db8000000000000000000000001, 5060⟩, .udp, 0, 0, 1, [], none⟩

def longCapture : CaptureInfo :=
  ⟨⟨.v4 0xC0000201, 5060⟩, ⟨.v4 0xC0000202, 5060⟩, .tcp, 0, 0, 1, List.replicate 65500 0x20, none⟩

/-- The packet of a capture from an IPv4 to an IPv6 address announces 24 bytes less than it has,
and has IPv6 addresses in the IPv4 family; that of a long message announces what is left of its
length in sixteen bits. -/
theorem announced_ne_length :
  ¬ WellFormed fromV4ToV6 (encodeHep3 fromV4ToV6)
    ∧ decode (((encodeHep3 fromV4ToV6).drop 4).take 2) = 99
    ∧ (encodeHep3 fromV4ToV6).length = 123
    ∧ (sentChunks fromV4ToV6).take 3
      = [(chunkIpFamily, [afInet]), (chunkIpProtocol, [ipprotoUdp]),
        (chunkIpv6Src, octetsV6 (toIpv6Mapped 0xC0000201))]
    ∧ ¬ WellFormed longCapture (encodeHep3 longCapture)
    ∧ decode (((encodeHep3 longCapture).drop 4).take 2) = 63
    ∧ (encodeHep3 longCapture).length = 65599
  := by
  have hmixed : decode (((encodeHep3 fromV4ToV6).drop 4).take 2) = 99 := by
    rfl
  have hmixed' : (encodeHep3 fromV4ToV6).length = 123 := by
    rfl
  have hpayload : longCapture.payload.length = 65500 := length_replicate
  have hlong : decode (((encodeHep3 longCapture).drop 4).take 2) = 63 := by
    rw [announced_encodeHep3, packetLength, hpayload]
    rfl
  have hlong' : (encodeHep3 longCapture).length = 65599 := by
    rw [length_encodeHep3, packetLength, hpayload]
    rfl
  refine ⟨?_, hmixed, hmixed', rfl, ?_, hlong, hlong'⟩
  · intro h
    have heq := h.length
    rw [hmixed, hmixed'] at heq
    cases heq
  · intro h
    have heq := h.length
    rw [hlong, hlong'] at heq
    cases heq

end Siphon.Hep
