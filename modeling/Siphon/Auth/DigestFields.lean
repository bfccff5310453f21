import Siphon.Auth.Nonce
import Siphon.Library.Offsets

/-!
# The fields of an Authorization value

The fields are not parsed but searched for: a name and `=` are looked for in the lower-case copy of
the value, and what follows at the same offset of the value itself is read.  The offset need not be
one at which the value can be cut.
-/

namespace Siphon.Auth

/-- The value is cut past its end or inside a character. -/
inductive Panic where
  | sliced
deriving DecidableEq

structure DigestFields where
  username : Text
  realm : Text
  nonce : Text
  uri : Text
  response : Text
  qop : Option Text
  cnonce : Option Text
  nc : Option Text
  algorithm : DigestAlgorithm
deriving DecidableEq

def isAsciiAlphanumericByte (b : UInt8) : Bool :=
  let n := b.toNat
  (48 ≤ n && n ≤ 57) || (65 ≤ n && n ≤ 90) || (97 ≤ n && n ≤ 122)

/-- Whether the octet before an offset is a letter or a digit. -/
def alphanumericBefore (t : Text) (pos : ℕ) : Bool :=
  ((Utf8.encode t)[pos - 1]?).any isAsciiAlphanumericByte

/-- No letter or digit precedes. -/
def unpreceded (before : Text) : Bool :=
  !before.getLast?.any Char.isAlphanum

/-- A quoted value up to its end, or one up to the next comma. -/
def parseParamValue : Text → Option Text
  | '"' :: after => (Slice.splitOnce '"' after).map Prod.fst
  | rest => some (Text.trim (rest.takeWhile (· ≠ ',')))

def readAt (authValue : Text) (offset : ℕ) : Except Panic (Option Text) :=
  match Utf8.sliceFrom authValue offset with
  | none => .error .sliced
  | some rest => .ok (parseParamValue rest)

/-- Go from occurrence to occurrence up to one that no letter or digit precedes.  Every turn goes
past an occurrence, so the fuel is not used up. -/
def nextParam (needle authLower authValue : Text) : ℕ → ℕ → Except Panic (Option Text)
  | 0, _ => .ok none
  | fuel + 1, searchStart =>
    match Utf8.sliceFrom authLower searchStart with
    | none => .error .sliced
    | some rest =>
      match Utf8.find needle rest with
      | none => .ok none
      | some pos =>
        let absPos := searchStart + pos
        if absPos = 0 ∨ ¬ alphanumericBefore authLower absPos then
          readAt authValue (absPos + Utf8.len needle)
        else nextParam needle authLower authValue fuel (absPos + Utf8.len needle)

section

variable [StdText] (authValue : Text)

def extractDigestParam (param : Text) : Except Panic (Option Text) :=
  let authLower := StdText.toLowercase authValue
  let needle := param ++ ['=']
  match Utf8.find needle authLower with
  | none => .ok none
  | some pos =>
    if pos > 0 ∧ alphanumericBefore authLower pos then
      nextParam needle authLower authValue authLower.length (pos + Utf8.len needle)
    else readAt authValue (pos + Utf8.len needle)

def extractNonceField : Except Panic (Option Text) :=
  let authLower := StdText.toLowercase authValue
  nextParam "nonce=".toList authLower authValue (authLower.length + 1) 0

/-- Read after the first occurrence, whatever precedes it. -/
def extractFirst (needle : Text) : Except Panic (Option Text) :=
  match Utf8.find needle (StdText.toLowercase authValue) with
  | none => .ok none
  | some pos => readAt authValue (pos + 9)

def extractResponseField : Except Panic (Option Text) :=
  extractFirst authValue "response=".toList

def extractUsername : Except Panic (Option Text) :=
  extractFirst authValue "username=".toList

def parseAlgorithm (value : Option Text) : DigestAlgorithm :=
  match value with
  | none => .md5
  | some raw =>
    let name := (StdText.toUppercase raw).map fun c => if c = '_' then '-' else c
    if name = "MD5".toList ∨ name = [] then .md5
    else if name = "MD5-SESS".toList then .md5Sess
    else if name = "SHA-256".toList ∨ name = "SHA256".toList then .sha256
    else if name = "SHA-256-SESS".toList ∨ name = "SHA256-SESS".toList then .sha256Sess
    else if name = "SHA-512-256".toList ∨ name = "SHA512-256".toList then .sha512_256
    else if name = "SHA-512-256-SESS".toList ∨ name = "SHA512-256-SESS".toList then .sha512_256Sess
    else .md5

def DigestFields.parse : Except Panic (Option DigestFields) := do
  let algorithmStr ← extractDigestParam authValue "algorithm".toList
  let algorithm := parseAlgorithm algorithmStr
  let some username ← extractUsername authValue | return none
  let some realm ← extractDigestParam authValue "realm".toList | return none
  let some nonce ← extractNonceField authValue | return none
  let some uri ← extractDigestParam authValue "uri".toList | return none
  let some response ← extractResponseField authValue | return none
  let qop ← extractDigestParam authValue "qop".toList
  let cnonce ← extractDigestParam authValue "cnonce".toList
  let nc ← extractDigestParam authValue "nc".toList
  return some { username, realm, nonce, uri, response, qop, cnonce, nc, algorithm }

/-- Whether the nonce of the value is one that may be answered now, as is checked before the
credentials are looked up. -/
def nonceCheck [StdDigest] (auth : NonceConfig) (now : ℕ) : Except Panic Bool := do
  match ← extractNonceField authValue with
  | some nonce => return validateNonce auth now nonce
  | none => return false

end

/-! ### The fields by name -/

inductive DigestField where
  | algorithm
  | username
  | realm
  | nonce
  | uri
  | response
  | qop
  | cnonce
  | nc
deriving DecidableEq

namespace DigestField

def name : DigestField → Text
  | .algorithm => "algorithm".toList
  | .username => "username".toList
  | .realm => "realm".toList
  | .nonce => "nonce".toList
  | .uri => "uri".toList
  | .response => "response".toList
  | .qop => "qop".toList
  | .cnonce => "cnonce".toList
  | .nc => "nc".toList

def needle (field : DigestField) : Text :=
  field.name ++ ['=']

/-- Whether an occurrence of the name is taken for the field, given what precedes it. -/
def accepts : DigestField → Text → Bool
  | .username, _ => true
  | .response, _ => true
  | _, before => unpreceded before

def read [StdText] (authValue : Text) : DigestField → Except Panic (Option Text)
  | .username => extractUsername authValue
  | .response => extractResponseField authValue
  | .nonce => extractNonceField authValue
  | field => extractDigestParam authValue field.name

/-- The fields without which nothing more is read, in front of this one. -/
def required : DigestField → List DigestField
  | .algorithm => []
  | .username => []
  | .realm => [.username]
  | .nonce => [.username, .realm]
  | .uri => [.username, .realm, .nonce]
  | .response => [.username, .realm, .nonce, .uri]
  | _ => [.username, .realm, .nonce, .uri, .response]

end DigestField

end Siphon.Auth
