import Siphon.Library.BigEndian

/-!
# Diameter messages

A message is a header of twenty bytes and a sequence of AVPs; the dictionary says which values are
sequences of AVPs again.
-/

namespace Siphon.Diameter

open BigEndian

/-! ### The dictionary -/

inductive AvpType where
  | octetString
  | utf8String
  | unsigned32
  | unsigned64
  | integer32
  | enumerated
  | grouped
  | address
  | time
  | diameterIdentity
  | tbcdString
deriving DecidableEq

structure AvpDef where
  name : Text
  dataType : AvpType

/-- The dictionary of AVPs, by code and vendor id. -/
class Dictionary where
  lookupAvp : (code vendor : UInt32) → Option AvpDef

@[reducible] def oneGroup : Dictionary where
  lookupAvp code vendor :=
    if code = 260 ∧ vendor = 0 then some ⟨"Vendor-Specific-Application-Id".toList, .grouped⟩
    else none

/-! ### The AVP tree -/

mutual

/-- An AVP: its code, its vendor id (zero if it has none), its flags and its value. -/
inductive Avp where
  | mk (code vendor : UInt32) (flags : UInt8) (value : AvpData)

/-- An AVP's value: opaque bytes, or AVPs. -/
inductive AvpData where
  | raw (bytes : Bytes)
  | grouped (children : List Avp)

end

inductive DecodeError where
  | headerTooShort (length : ℕ)
  | unsupportedVersion (version : UInt8)
  | lengthMismatch (declared actual : ℕ)
  | truncated (offset need have_ : ℕ)
  | invalidAvpLength (offset length header : ℕ)
deriving DecidableEq

def hasVendor (flags : UInt8) : Bool :=
  flags &&& 0x80 != 0

def headerSize (flags : UInt8) : ℕ :=
  if hasVendor flags then 12 else 8

/-- A length with the padding to a multiple of four. -/
def padded (length : ℕ) : ℕ :=
  (length + 3) / 4 * 4

theorem le_padded (length : ℕ) :
  length ≤ padded length
  := by
  rw [padded]
  omega

theorem eight_le_headerSize (flags : UInt8) :
  8 ≤ headerSize flags
  := by
  rw [headerSize]
  split <;> omega

def u32FromBeBytes (bytes : Bytes) : UInt32 :=
  UInt32.ofNat (decode bytes)

def u32ToBeBytes (n : UInt32) : Bytes :=
  encode 4 n.toNat

/-! ### Decoding -/

variable (data : Bytes)

def codeAt : UInt32 :=
  u32FromBeBytes (data.take 4)

def flagsAt : UInt8 :=
  data.getD 4 0

/-- The length of the AVP some bytes start with, as its header says. -/
def lengthAt : ℕ :=
  decode ((data.drop 5).take 3)

def vendorAt : UInt32 :=
  if hasVendor (flagsAt data) then u32FromBeBytes ((data.drop 8).take 4) else 0

def valueAt : Bytes :=
  (data.take (lengthAt data)).drop (headerSize (flagsAt data))

theorem length_valueAt_lt {data : Bytes} (h : ¬ data.length < 8) :
  (valueAt data).length < data.length
  := by
  have hheader := eight_le_headerSize (flagsAt data)
  rw [valueAt, List.length_drop, List.length_take]
  omega

theorem length_drop_padded_lt {data : Bytes} (h : ¬ data.length < 8)
    (hlength : ¬ lengthAt data < headerSize (flagsAt data)) :
  (data.drop (padded (lengthAt data))).length < data.length
  := by
  have hheader := eight_le_headerSize (flagsAt data)
  have hpad := le_padded (lengthAt data)
  rw [List.length_drop]
  omega

section

variable [Dictionary]

/-- Whether the dictionary says that the value is a sequence of AVPs. -/
def isGrouped (code vendor : UInt32) : Bool :=
  match Dictionary.lookupAvp code vendor with
  | some entry => entry.dataType == .grouped
  | none => false

/-- Parse a sequence of AVPs; `data` is what is left of it from `offset` on.  Trailing bytes shorter
than a header are ignored. -/
def parseAvps (offset : ℕ) (data : Bytes) : Except DecodeError (List Avp) :=
  if data.length < 8 then .ok []
  else if lengthAt data < headerSize (flagsAt data) then
    .error (.invalidAvpLength offset (lengthAt data) (headerSize (flagsAt data)))
  else if data.length < lengthAt data then
    .error (.truncated offset (lengthAt data) data.length)
  else do
    let value ←
      if isGrouped (codeAt data) (vendorAt data) then
        AvpData.grouped <$> parseAvps 0 (valueAt data)
      else .ok (.raw (valueAt data))
    let rest ← parseAvps (offset + padded (lengthAt data)) (data.drop (padded (lengthAt data)))
    return .mk (codeAt data) (vendorAt data) (flagsAt data) value :: rest
termination_by data.length
decreasing_by
  · exact length_drop_padded_lt ‹_› ‹_›
  · exact length_valueAt_lt ‹_›

/-- A Diameter message decoded into the AVP tree. -/
structure DiameterMsg where
  flags : UInt8
  commandCode : UInt32
  applicationId : UInt32
  hopByHop : UInt32
  endToEnd : UInt32
  avps : List Avp

def declaredLength (msg : Bytes) : ℕ :=
  decode ((msg.drop 1).take 3)

def fromWire (msg : Bytes) : Except DecodeError DiameterMsg :=
  if msg.length < 20 then .error (.headerTooShort msg.length)
  else if msg.getD 0 0 ≠ 1 then .error (.unsupportedVersion (msg.getD 0 0))
  else if declaredLength msg < 20 ∨ msg.length < declaredLength msg then
    .error (.lengthMismatch (declaredLength msg) msg.length)
  else do
    let avps ← parseAvps 0 ((msg.take (declaredLength msg)).drop 20)
    return {
      flags := msg.getD 4 0
      commandCode := u32FromBeBytes ((msg.drop 5).take 3)
      applicationId := u32FromBeBytes ((msg.drop 8).take 4)
      hopByHop := u32FromBeBytes ((msg.drop 12).take 4)
      endToEnd := u32FromBeBytes ((msg.drop 16).take 4)
      avps := avps }

end

/-! ### Encoding -/

def avpHeader (code vendor : UInt32) (flags : UInt8) (valueLength : ℕ) : Bytes :=
  u32ToBeBytes code ++ flags :: encode 3 (headerSize flags + valueLength)
    ++ if hasVendor flags then u32ToBeBytes vendor else []

def padding (length : ℕ) : Bytes :=
  List.replicate (padded length - length) 0

mutual

def encodeAvps : List Avp → Bytes
  | [] => []
  | avp :: avps => encodeOneAvp avp ++ encodeAvps avps

def encodeOneAvp : Avp → Bytes
  | .mk code vendor flags value =>
    let bytes := encodeValue value
    avpHeader code vendor flags bytes.length ++ bytes
      ++ padding (headerSize flags + bytes.length)

def encodeValue : AvpData → Bytes
  | .raw bytes => bytes
  | .grouped children => encodeAvps children

end

def encodeDiameterMessage (flags : UInt8) (commandCode applicationId hopByHop endToEnd : UInt32)
    (avps : Bytes) : Bytes :=
  1 :: encode 3 (20 + avps.length) ++ flags :: encode 3 commandCode.toNat
    ++ u32ToBeBytes applicationId ++ u32ToBeBytes hopByHop ++ u32ToBeBytes endToEnd ++ avps

/-- Serialize the tree, recomputing the message length. -/
def DiameterMsg.toWire (m : DiameterMsg) : Bytes :=
  encodeDiameterMessage m.flags m.commandCode m.applicationId m.hopByHop m.endToEnd
    (encodeAvps m.avps)

end Siphon.Diameter
