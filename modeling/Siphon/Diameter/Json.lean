import Siphon.Library.Decimal
import Siphon.Library.IndexMap
import Siphon.Diameter.Codec

/-!
# The JSON view of a Diameter message

A second decoder gives the AVPs of a message as a JSON object by their names.  It stops at the first
AVP it cannot read, and the values of AVPs with one name become an array.
-/

namespace Siphon.Diameter

inductive Json where
  | string (s : Text)
  | number (n : ℤ)
  | array (items : List Json)
  | object (entries : List (Text × Json))

/-- The standard library's texts that the view uses: of bytes that may not be UTF-8, and of the
sixteen bytes of an IPv6 address. -/
class StdFormat where
  fromUtf8Lossy : Bytes → Text
  displayIpv6 : Bytes → Text

/-! ### Values -/

def hexDigit (n : ℕ) : Char :=
  "0123456789abcdef".toList.getD n '0'

def hexEncode (data : Bytes) : Text :=
  data.flatMap fun b => [hexDigit (b.toNat / 16), hexDigit (b.toNat % 16)]

/-- The digits of a TBCD string, the low half of a byte first. -/
def decodeTbcdDigits (data : Bytes) : Text :=
  data.flatMap fun b =>
    (if b.toNat % 16 ≤ 9 then [hexDigit (b.toNat % 16)] else [])
      ++ if b.toNat / 16 ≤ 9 then [hexDigit (b.toNat / 16)] else []

def displayIpv4 (data : Bytes) : Text :=
  ['.'].intercalate (data.map fun b => Decimal.display b.toNat)

/-- The number of seconds between the epochs of NTP and of Unix. -/
def ntpOffset : ℕ := 2208988800

/-- A number of 32 bits as a signed one. -/
def signed32 (n : ℕ) : ℤ :=
  if n < 2 ^ 31 then n else (n : ℤ) - 2 ^ 32

section

variable [StdFormat]

def decodeAddress (data : Bytes) : Json :=
  if data.length < 2 then .string (hexEncode data)
  else
    let family := BigEndian.decode (data.take 2)
    if family = 1 ∧ 6 ≤ data.length then .string (displayIpv4 ((data.drop 2).take 4))
    else if family = 2 ∧ 18 ≤ data.length then
      .string (StdFormat.displayIpv6 ((data.drop 2).take 16))
    else .string (hexEncode data)

/-- A number in the first bytes of a value that has as many. -/
def decodeNumber (width : ℕ) (toInt : ℕ → ℤ) (data : Bytes) : Json :=
  if width ≤ data.length then .number (toInt (BigEndian.decode (data.take width)))
  else .string (hexEncode data)

def decodeAvpValue (group : Json) (data : Bytes) : AvpType → Json
  | .utf8String | .diameterIdentity => .string (StdFormat.fromUtf8Lossy data)
  | .unsigned32 | .enumerated => decodeNumber 4 (fun n => n) data
  | .integer32 => decodeNumber 4 signed32 data
  | .unsigned64 => decodeNumber 8 (fun n => n) data
  | .octetString => .string (hexEncode data)
  | .tbcdString => .string (decodeTbcdDigits data)
  | .address => decodeAddress data
  | .time => decodeNumber 4 (fun n => ((n + 2 ^ 32 - ntpOffset) % 2 ^ 32 : ℕ)) data
  | .grouped => group

end

/-! ### AVPs -/

def unknownName (code vendor : UInt32) : Text :=
  if vendor ≠ 0 then
    "AVP-".toList ++ Decimal.display code.toNat ++ "-v".toList ++ Decimal.display vendor.toNat
  else "AVP-".toList ++ Decimal.display code.toNat

section

variable [StdFormat] [Dictionary]

/-- The name and the value of an AVP, where `group` is what the value is as a sequence of AVPs. -/
def decodeEntry (code vendor : UInt32) (data : Bytes) (group : Json) : Text × Json :=
  match Dictionary.lookupAvp code vendor with
  | some entry => (entry.name, decodeAvpValue group data entry.dataType)
  | none => (unknownName code vendor, .string (hexEncode data))

end

end Siphon.Diameter
