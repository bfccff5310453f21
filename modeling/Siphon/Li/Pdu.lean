import Siphon.Library.Reader

/-!
# X2 and X3 PDUs

A PDU has a mandatory header of forty octets, then attributes, then a payload.  The header says how
long it is with the attributes, and how long the payload is.
-/

namespace Siphon.Li

open BigEndian

def majorVersion : UInt8 := 0

def minorVersion : UInt8 := 5

def mandatoryHeaderLength : UInt32 := 40

/-! ### Types, formats and directions -/

inductive PduType where
  | x2
  | x3
  | keepalive
  | keepaliveAck
deriving DecidableEq

def PduType.code : PduType → ℕ
  | .x2 => 1
  | .x3 => 2
  | .keepalive => 3
  | .keepaliveAck => 4

inductive PayloadFormat where
  | etsi102232
  | threeGpp33128
  | threeGpp33108
  | proprietary
  | ipV4
  | ipV6
  | ethernet
  | rtp
  | sip
  | dhcp
  | radius
  | gtpU
  | msrp
  | threeGpp33108EpsIri
  | mime
  | threeGppUnstructured
deriving DecidableEq

def PayloadFormat.code : PayloadFormat → ℕ
  | .etsi102232 => 1
  | .threeGpp33128 => 2
  | .threeGpp33108 => 3
  | .proprietary => 4
  | .ipV4 => 5
  | .ipV6 => 6
  | .ethernet => 7
  | .rtp => 8
  | .sip => 9
  | .dhcp => 10
  | .radius => 11
  | .gtpU => 12
  | .msrp => 13
  | .threeGpp33108EpsIri => 14
  | .mime => 15
  | .threeGppUnstructured => 16

def PayloadFormat.allowedOn (format : PayloadFormat) : PduType → Bool
  | .x2 =>
    match format with
    | .ethernet | .rtp | .gtpU | .msrp | .threeGppUnstructured => false
    | _ => true
  | .x3 =>
    match format with
    | .sip | .dhcp | .radius | .threeGpp33108EpsIri => false
    | _ => true
  | .keepalive | .keepaliveAck => false

inductive PayloadDirection where
  | reservedForKeepalive
  | unknown
  | sentToTarget
  | sentFromTarget
  | moreThanOneDirection
  | notApplicable
deriving DecidableEq

def PayloadDirection.code : PayloadDirection → ℕ
  | .reservedForKeepalive => 0
  | .unknown => 1
  | .sentToTarget => 2
  | .sentFromTarget => 3
  | .moreThanOneDirection => 4
  | .notApplicable => 5

/-! ### Attributes -/

structure Attribute where
  attributeType : UInt16
  value : Bytes

namespace Attribute

def encodedLength (attr : Attribute) : ℕ :=
  4 + attr.value.length

def writeTo (attr : Attribute) : Bytes :=
  let length := if attr.value.length < 2 ^ 16 then attr.value.length else 2 ^ 16 - 1
  encode 2 attr.attributeType.toNat ++ encode 2 length ++ attr.value

end Attribute

/-! ### PDUs -/

inductive PduError where
  | formatNotAllowed (format : PayloadFormat) (pduType : PduType)
  | attributeTooLong (attributeType : UInt16) (length : ℕ)
  | payloadTooLong (length : ℕ)

structure Pdu where
  pduType : PduType
  payloadFormat : PayloadFormat
  payloadDirection : PayloadDirection
  xId : Octets 16
  correlationId : Octets 8
  attributes : List Attribute
  payload : Bytes

namespace Pdu

def attributesLength (pdu : Pdu) : ℕ :=
  (pdu.attributes.map Attribute.encodedLength).sum

def write (pdu : Pdu) (headerLength payloadLength : UInt32) : Bytes :=
  [majorVersion, minorVersion] ++ encode 2 pdu.pduType.code
    ++ encode 4 headerLength.toNat ++ encode 4 payloadLength.toNat
    ++ encode 2 pdu.payloadFormat.code ++ encode 2 pdu.payloadDirection.code
    ++ pdu.xId.1 ++ pdu.correlationId.1
    ++ pdu.attributes.flatMap Attribute.writeTo ++ pdu.payload

def encode (pdu : Pdu) : Except PduError Bytes :=
  let carriesPayload := pdu.pduType = .x2 ∨ pdu.pduType = .x3
  if carriesPayload ∧ pdu.payloadFormat.allowedOn pdu.pduType = false then
    .error (.formatNotAllowed pdu.payloadFormat pdu.pduType)
  else
    match pdu.attributes.find? fun attr => 2 ^ 16 ≤ attr.value.length with
    | some attr => .error (.attributeTooLong attr.attributeType attr.value.length)
    | none =>
      if 2 ^ 32 ≤ pdu.payload.length then .error (.payloadTooLong pdu.payload.length)
      else if 2 ^ 32 ≤ pdu.attributesLength then .error (.payloadTooLong pdu.attributesLength)
      else
        .ok (pdu.write (mandatoryHeaderLength + UInt32.ofNat pdu.attributesLength)
          (UInt32.ofNat pdu.payload.length))

end Pdu

end Siphon.Li
