import Siphon.Li.Pdu

/-!
# Streams of PDUs

A receiver takes a stream of PDUs apart by the two lengths in their headers.
-/

namespace Siphon.Li

open List Reader BigEndian Attribute

/-! ### What the receiver reads -/

def PduType.ofCode : ℕ → Option PduType
  | 1 => some .x2
  | 2 => some .x3
  | 3 => some .keepalive
  | 4 => some .keepaliveAck
  | _ => none

def PayloadFormat.ofCode : ℕ → Option PayloadFormat
  | 1 => some .etsi102232
  | 2 => some .threeGpp33128
  | 3 => some .threeGpp33108
  | 4 => some .proprietary
  | 5 => some .ipV4
  | 6 => some .ipV6
  | 7 => some .ethernet
  | 8 => some .rtp
  | 9 => some .sip
  | 10 => some .dhcp
  | 11 => some .radius
  | 12 => some .gtpU
  | 13 => some .msrp
  | 14 => some .threeGpp33108EpsIri
  | 15 => some .mime
  | 16 => some .threeGppUnstructured
  | _ => none

def PayloadDirection.ofCode : ℕ → Option PayloadDirection
  | 0 => some .reservedForKeepalive
  | 1 => some .unknown
  | 2 => some .sentToTarget
  | 3 => some .sentFromTarget
  | 4 => some .moreThanOneDirection
  | 5 => some .notApplicable
  | _ => none

theorem PduType.ofCode_code (pduType : PduType) :
  ofCode pduType.code = some pduType ∧ pduType.code < 2 ^ 16
  := by
  cases pduType <;> decide

theorem PayloadFormat.ofCode_code (format : PayloadFormat) :
  ofCode format.code = some format ∧ format.code < 2 ^ 16
  := by
  cases format <;> decide

theorem PayloadDirection.ofCode_code (direction : PayloadDirection) :
  ofCode direction.code = some direction ∧ direction.code < 2 ^ 16
  := by
  cases direction <;> decide

/-- A number that stands for a value. -/
def readCode {α : Type} (ofCode : ℕ → Option α) : Reader α := do
  let code ← Reader.number 2
  Reader.ofOption (ofCode code)

def readAttribute : Reader Attribute := do
  let attributeType ← Reader.number 2
  let length ← Reader.number 2
  let value ← Reader.take length
  return ⟨UInt16.ofNat attributeType, value⟩

/-- The next PDU, by its header length and its payload length. -/
def readPdu : Reader Pdu := do
  let version ← Reader.take 2
  Reader.ensure (version = [majorVersion, minorVersion])
  let pduType ← readCode PduType.ofCode
  let headerLength ← Reader.number 4
  Reader.ensure (40 ≤ headerLength)
  let payloadLength ← Reader.number 4
  let payloadFormat ← readCode PayloadFormat.ofCode
  let payloadDirection ← readCode PayloadDirection.ofCode
  let xId ← Reader.octets 16
  let correlationId ← Reader.octets 8
  let attributes ← Reader.take (headerLength - 40)
  let attributes ← Reader.ofOption (Reader.walk readAttribute attributes)
  let payload ← Reader.take payloadLength
  return ⟨pduType, payloadFormat, payloadDirection, xId, correlationId, attributes, payload⟩

/-! ### One PDU -/

theorem reads_code {α : Type} {ofCode : ℕ → Option α} {code : ℕ} {a : α}
    (h : ofCode code = some a ∧ code < 2 ^ 16) :
  (readCode ofCode).Reads (encode 2 code) a
  := by
  apply (reads_number h.2).bind_last
  rw [h.1]
  exact reads_ofOption a

theorem reads_version :
  (Reader.take 2).Reads [majorVersion, minorVersion] [majorVersion, minorVersion]
  := reads_take rfl

theorem reads_attribute {attr : Attribute} (h : attr.value.length < 2 ^ 16) :
  readAttribute.Reads attr.writeTo attr
  := by
  unfold writeTo readAttribute
  rw [if_pos h, append_assoc]
  apply Reads.bind (reads_number attr.attributeType.toNat_lt)
  apply Reads.bind (reads_number h)
  apply Reads.bind_last (reads_take rfl)
  rw [UInt16.ofNat_toNat]
  exact Reads.pure attr

theorem length_writeTo (attr : Attribute) :
  attr.writeTo.length = attr.encodedLength
  := by
  simp [writeTo, encodedLength]
  omega

theorem length_attributes (pdu : Pdu) :
  (pdu.attributes.flatMap writeTo).length = pdu.attributesLength
  := by
  rw [length_flatMap, Pdu.attributesLength]
  simp only [length_writeTo]

def Pdu.wire (pdu : Pdu) : Bytes :=
  pdu.write (mandatoryHeaderLength + UInt32.ofNat pdu.attributesLength)
    (UInt32.ofNat pdu.payload.length)

/-- What the encoder checks. -/
structure Pdu.Accepted (pdu : Pdu) : Prop where
  attributes : ∀ attr ∈ pdu.attributes, attr.value.length < 2 ^ 16
  payload : pdu.payload.length < 2 ^ 32
  attributesLength : pdu.attributesLength < 2 ^ 32

variable {pdu : Pdu}

theorem Pdu.encode_ok {bytes : Bytes} (h : pdu.encode = .ok bytes) :
  pdu.Accepted ∧ bytes = pdu.wire
  := by
  unfold Pdu.encode at h
  dsimp only at h
  split at h
  · cases h
  split at h
  · cases h
  rename_i hfind
  split at h
  · cases h
  rename_i hpayload
  split at h
  · cases h
  rename_i hattributes
  refine ⟨⟨?_, not_le.mp hpayload, not_le.mp hattributes⟩, ?_⟩
  · intro attr hattr
    simpa using List.find?_eq_none.mp hfind attr hattr
  · injection h with h
    exact h.symm

theorem walk_attributes (h : pdu.Accepted) :
  Reader.walk readAttribute (pdu.attributes.flatMap writeTo) = some pdu.attributes
  := by
  apply walk_flatMap
  · intro attr _ hnil
    have hlength := length_writeTo attr
    rw [hnil, length_nil, encodedLength] at hlength
    omega
  · intro attr hattr
    exact reads_attribute (h.attributes attr hattr)

theorem Pdu.Accepted.encode_eq (h : pdu.Accepted)
    (hformat : pdu.payloadFormat.allowedOn pdu.pduType = true) :
  pdu.encode = .ok pdu.wire
  := by
  have hfind : pdu.attributes.find? (fun attr => 2 ^ 16 ≤ attr.value.length) = none := by
    rw [List.find?_eq_none]
    intro attr hattr
    simpa using h.attributes attr hattr
  rw [Pdu.encode, if_neg (by simp [hformat]), hfind]
  rw [if_neg (not_le.mpr h.payload), if_neg (not_le.mpr h.attributesLength)]
  rfl

theorem reads_write (h : pdu.Accepted) {headerLength payloadLength : UInt32}
    (hheader : headerLength.toNat = 40 + pdu.attributesLength)
    (hpayload : payloadLength.toNat = pdu.payload.length) :
  readPdu.Reads (pdu.write headerLength payloadLength) pdu
  := by
  unfold Pdu.write readPdu
  simp only [append_assoc]
  apply Reads.bind reads_version
  apply Reads.bind_nil (reads_ensure rfl)
  apply Reads.bind (reads_code pdu.pduType.ofCode_code)
  apply Reads.bind (reads_number headerLength.toNat_lt)
  apply Reads.bind_nil (reads_ensure (by omega))
  apply Reads.bind (reads_number payloadLength.toNat_lt)
  apply Reads.bind (reads_code pdu.payloadFormat.ofCode_code)
  apply Reads.bind (reads_code pdu.payloadDirection.ofCode_code)
  apply Reads.bind (reads_octets pdu.xId)
  apply Reads.bind (reads_octets pdu.correlationId)
  apply Reads.bind (reads_take (by rw [length_attributes]; omega))
  rw [walk_attributes h]
  apply Reads.bind_nil (reads_ofOption _)
  apply Reads.bind_last (reads_take hpayload.symm)
  exact Reads.pure pdu

theorem refuses_write {headerLength : UInt32} (hheader : headerLength.toNat < 40)
    (payloadLength : UInt32) :
  readPdu.Refuses (pdu.write headerLength payloadLength)
  := by
  apply Reads.bind_refuses reads_version
  apply Reads.bind_refuses_nil (reads_ensure rfl)
  apply Reads.bind_refuses (reads_code pdu.pduType.ofCode_code)
  apply Reads.bind_refuses (reads_number headerLength.toNat_lt)
  apply Refuses.bind
  exact refuses_ensure (by omega) _

/-! ### Streams -/

def LengthsDescribe (bytes : Bytes) : Prop :=
  40 ≤ decode ((bytes.drop 4).take 4)
    ∧ decode ((bytes.drop 4).take 4) + decode ((bytes.drop 8).take 4)
      = bytes.length

section

variable (pdu : Pdu) (headerLength payloadLength : UInt32)
include headerLength

theorem length_write :
  (pdu.write headerLength payloadLength).length
    = 40 + pdu.attributesLength + pdu.payload.length
  := by
  simp only [Pdu.write, length_append, length_cons, length_nil,
    length_encode, pdu.xId.2, pdu.correlationId.2, length_attributes]

theorem decode_headerLength :
  decode (((pdu.write headerLength payloadLength).drop 4).take 4) = headerLength.toNat
  := @decode_encode_of_lt 4 _ headerLength.toNat_lt

theorem lengthsDescribe_write_iff :
  LengthsDescribe (pdu.write headerLength payloadLength)
    ↔ 40 ≤ headerLength.toNat ∧ headerLength.toNat + payloadLength.toNat
      = 40 + pdu.attributesLength + pdu.payload.length
  := by
  have hpayload : decode (((pdu.write headerLength payloadLength).drop 8).take 4)
      = payloadLength.toNat :=
    @decode_encode_of_lt 4 _ payloadLength.toNat_lt
  rw [LengthsDescribe, decode_headerLength, hpayload, length_write]

end

theorem toNat_headerLength {n : ℕ} (h : n < 2 ^ 32) :
  (mandatoryHeaderLength + UInt32.ofNat n).toNat
    = if 40 + n < 2 ^ 32 then 40 + n else 40 + n - 2 ^ 32
  := by
  rw [UInt32.toNat_add, UInt32.toNat_ofNat']
  simp only [mandatoryHeaderLength, UInt32.reduceToNat]
  split <;> omega

theorem Pdu.Accepted.payloadLength (h : pdu.Accepted) :
  (UInt32.ofNat pdu.payload.length).toNat = pdu.payload.length
  := UInt32.toNat_ofNat_of_lt' h.payload

theorem Pdu.Accepted.reads (h : pdu.Accepted) (hfits : 40 + pdu.attributesLength < 2 ^ 32) :
  readPdu.Reads pdu.wire pdu ∧ LengthsDescribe pdu.wire
  := by
  have hheader := toNat_headerLength h.attributesLength
  rw [if_pos hfits] at hheader
  refine ⟨reads_write h hheader h.payloadLength, ?_⟩
  rw [Pdu.wire, lengthsDescribe_write_iff, hheader, h.payloadLength]
  omega

theorem Pdu.Accepted.refuses (h : pdu.Accepted) (hlong : ¬ 40 + pdu.attributesLength < 2 ^ 32) :
  readPdu.Refuses pdu.wire ∧ ¬ LengthsDescribe pdu.wire
  := by
  have hlength := h.attributesLength
  have hheader := toNat_headerLength hlength
  rw [if_neg hlong] at hheader
  refine ⟨refuses_write (by omega) _, ?_⟩
  rw [Pdu.wire, lengthsDescribe_write_iff, hheader]
  omega

theorem eq_map_wire {pdus : List Pdu} {encodings : List Bytes}
    (h : List.Forall₂ (fun pdu bytes => pdu.encode = .ok bytes) pdus encodings) :
  encodings = pdus.map Pdu.wire ∧ ∀ pdu ∈ pdus, pdu.Accepted
  := by
  induction h with
  | nil => simp
  | cons hencode _ ih =>
  obtain ⟨haccepted, rfl⟩ := Pdu.encode_ok hencode
  obtain ⟨rfl, hall⟩ := ih
  exact ⟨rfl, forall_mem_cons.mpr ⟨haccepted, hall⟩⟩

theorem wire_ne_nil (pdu : Pdu) :
  pdu.wire ≠ []
  := by
  intro hnil
  have hlength := length_write pdu (mandatoryHeaderLength + UInt32.ofNat pdu.attributesLength)
    (UInt32.ofNat pdu.payload.length)
  rw [← Pdu.wire, hnil, length_nil] at hlength
  omega

/-- A stream of PDUs that were encoded.  The receiver gets back the PDUs, and the lengths in their
headers are theirs, if and only if the header of each, with the attributes, is not too long for its
length. -/
theorem walk_encodings_iff (pdus : List Pdu) (encodings : List Bytes)
    (h : List.Forall₂ (fun pdu bytes => pdu.encode = .ok bytes) pdus encodings) :
  (Reader.walk readPdu encodings.flatten = some pdus
      ∧ ∀ bytes ∈ encodings, LengthsDescribe bytes)
    ↔ ∀ pdu ∈ pdus, 40 + pdu.attributesLength < 2 ^ 32
  := by
  obtain ⟨rfl, haccepted⟩ := eq_map_wire h
  have hread : ∀ pdu ∈ pdus, readPdu.Reads pdu.wire pdu ∨ readPdu.Refuses pdu.wire := by
    intro pdu hpdu
    by_cases hfits : 40 + pdu.attributesLength < 2 ^ 32
    · exact .inl ((haccepted pdu hpdu).reads hfits).1
    · exact .inr ((haccepted pdu hpdu).refuses hfits).1
  rw [← flatMap_def, walk_flatMap_iff (fun pdu _ => wire_ne_nil pdu) hread]
  constructor
  · rintro ⟨hreads, -⟩ pdu hpdu
    by_contra hlong
    have hsome := hreads pdu hpdu []
    rw [((haccepted pdu hpdu).refuses hlong).1] at hsome
    cases hsome
  · intro hfits
    refine ⟨fun pdu hpdu => ((haccepted pdu hpdu).reads (hfits pdu hpdu)).1, ?_⟩
    intro bytes hbytes
    obtain ⟨pdu, hpdu, rfl⟩ := mem_map.mp hbytes
    exact ((haccepted pdu hpdu).reads (hfits pdu hpdu)).2

/-- A PDU that carries part of a message, with an identifier. -/
def shortPdu : Pdu where
  pduType := .x2
  payloadFormat := .sip
  payloadDirection := .sentToTarget
  xId := ⟨List.replicate 16 1, length_replicate⟩
  correlationId := ⟨List.replicate 8 2, length_replicate⟩
  attributes := [⟨6, [0x6e, 0x66]⟩, ⟨8, [0, 0, 0, 1]⟩]
  payload := [0x42, 0x59, 0x45]

/-- Two PDUs are read back from the stream. -/
theorem walk_shortPdus :
  Reader.walk readPdu [shortPdu.wire, shortPdu.wire].flatten = some [shortPdu, shortPdu]
  := ((walk_encodings_iff [shortPdu, shortPdu] [shortPdu.wire, shortPdu.wire]
    (.cons rfl (.cons rfl .nil))).mpr (by decide)).1

/-- A PDU with `n` attributes of `m` octets and one of `k` octets. -/
def paddedPdu (n m k : ℕ) : Pdu where
  pduType := .x2
  payloadFormat := .sip
  payloadDirection := .sentToTarget
  xId := ⟨List.replicate 16 1, length_replicate⟩
  correlationId := ⟨List.replicate 8 2, length_replicate⟩
  attributes := List.replicate n ⟨4, List.replicate m 0⟩ ++ [⟨4, List.replicate k 0⟩]
  payload := []

theorem attributesLength_paddedPdu (n m k : ℕ) :
  (paddedPdu n m k).attributesLength = n * (4 + m) + (4 + k)
  := by
  simp [Pdu.attributesLength, paddedPdu, encodedLength]

theorem accepted_paddedPdu {n m k : ℕ} (hm : m < 2 ^ 16) (hk : k < 2 ^ 16)
    (h : n * (4 + m) + (4 + k) < 2 ^ 32) :
  (paddedPdu n m k).Accepted
  where
  attributes attr hattr := by
    obtain hattr | hattr := mem_append.mp hattr
    · rw [eq_of_mem_replicate hattr, length_replicate]
      exact hm
    · rw [mem_singleton.mp hattr, length_replicate]
      exact hk
  payload := by simp [paddedPdu]
  attributesLength := by
    rw [attributesLength_paddedPdu]
    exact h

/-- A PDU whose attributes take up all but forty octets of four gigabytes. -/
def longPdu : Pdu := paddedPdu 65532 65535 65504

theorem attributesLength_longPdu :
  longPdu.attributesLength = 2 ^ 32 - 40
  := attributesLength_paddedPdu 65532 65535 65504

theorem accepted_longPdu :
  longPdu.Accepted
  := accepted_paddedPdu (by decide) (by decide) (by decide)

/-- The PDU is encoded, with a header length of zero, and cannot be read. -/
theorem longPdu_encoded :
  longPdu.encode = .ok longPdu.wire ∧ decode ((longPdu.wire.drop 4).take 4) = 0
    ∧ ¬ LengthsDescribe longPdu.wire ∧ Reader.walk readPdu longPdu.wire = none
  := by
  have hheader : decode ((longPdu.wire.drop 4).take 4) = 0 := by
    have hlength := toNat_headerLength accepted_longPdu.attributesLength
    rw [attributesLength_longPdu] at hlength
    have hzero : 40 + (2 ^ 32 - 40) - 2 ^ 32 = 0 := by omega
    rw [Pdu.wire, decode_headerLength, attributesLength_longPdu, hlength, if_neg (by omega), hzero]
  have hlong : ¬ 40 + longPdu.attributesLength < 2 ^ 32 := by
    rw [attributesLength_longPdu]
    omega
  have hrefuses := accepted_longPdu.refuses hlong
  have hformat : longPdu.payloadFormat.allowedOn longPdu.pduType = true := rfl
  exact ⟨accepted_longPdu.encode_eq hformat, hheader, hrefuses.2,
    walk_of_refuses (wire_ne_nil longPdu) hrefuses.1⟩

end Siphon.Li
