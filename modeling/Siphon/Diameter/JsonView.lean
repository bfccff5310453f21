import Siphon.Diameter.AvpWire
import Siphon.Diameter.Json

/-!
# The two Diameter decoders agree

The JSON view of a message that the first decoder accepts holds its AVPs, by their names: the value
of the only one of a name, and the array of the values of several, in their order.
-/

namespace Siphon.Diameter

open List

/-! ### Values by name -/

def underName : List Json → Json
  | [value] => value
  | values => .array values

variable (named : List (Text × Json))

def valuesOf (name : Text) : List Json :=
  (named.filter fun entry => entry.1 = name).map Prod.snd

/-- The entries of an object with these named values: each name once, with its values. -/
def gather : List (Text × Json) :=
  (named.map Prod.fst).eraseDups.map fun name => (name, underName (valuesOf named name))

def Json.isPlain : Json → Bool
  | .array _ => false
  | _ => true

variable {named : List (Text × Json)}

variable {data : Bytes}

section

variable [StdFormat] [Dictionary]

mutual

def Avp.named : Avp → Text × Json
  | .mk code vendor _ value => value.named code vendor

def AvpData.named (code vendor : UInt32) : AvpData → Text × Json
  | .raw bytes => decodeEntry code vendor bytes (.object [])
  | .grouped children => decodeEntry code vendor [] (.object (gather (allNamed children)))

def allNamed : List Avp → List (Text × Json)
  | [] => []
  | avp :: avps => avp.named :: allNamed avps

end

end

end Siphon.Diameter
