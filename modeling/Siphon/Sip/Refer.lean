import Siphon.Library.Words

/-!
# Refer-To and Replaces

The `Refer-To` value of a transfer, with the dialog it replaces embedded in it in percent
encoding, and the `Replaces` value of the call that is set up for it.
-/

namespace Siphon

structure Replaces where
  callId : Text
  fromTag : Text
  toTag : Text
  earlyOnly : Bool
deriving DecidableEq

/-- The target of a transfer and the dialog to replace there. -/
structure ReferTo where
  uri : Text
  replaces : Option Replaces
deriving DecidableEq

/-! ### Percent encoding -/

def hexDigit (c : Char) : Option ℕ :=
  if '0' ≤ c ∧ c ≤ '9' then some (c.toNat - '0'.toNat)
  else if 'a' ≤ c ∧ c ≤ 'f' then some (c.toNat - 'a'.toNat + 10)
  else if 'A' ≤ c ∧ c ≤ 'F' then some (c.toNat - 'A'.toNat + 10)
  else none

/-- The octet two characters denote in base 16; a plus sign may come first. -/
def hexOctet (a b : Char) : Option ℕ :=
  if a = '+' then hexDigit b
  else (hexDigit a).bind fun high => (hexDigit b).map fun low => 16 * high + low

/-- Percent-decode a text: each octet becomes the character of that number, and a `%` that is
not followed by an octet is kept with the two characters after it. -/
def urlDecode : Text → Text
  | [] => []
  | '%' :: a :: b :: rest =>
    match hexOctet a b with
    | some octet => Char.ofNat octet :: urlDecode rest
    | none => '%' :: a :: b :: urlDecode rest
  | ['%', a] => ['%', a]
  | c :: rest => c :: urlDecode rest

/-- Escape the delimiters of a `Replaces` value. -/
def urlEncode (raw : Text) : Text :=
  raw.flatMap fun c =>
    if c = ';' then "%3B".toList else if c = '=' then "%3D".toList else [c]

/-! ### Text forms -/

def Replaces.display (r : Replaces) : Text :=
  r.callId ++ ";from-tag=".toList ++ r.fromTag ++ ";to-tag=".toList ++ r.toTag
    ++ if r.earlyOnly then ";early-only".toList else []

def urlEncodeReplaces (r : Replaces) : Text :=
  urlEncode r.display

def ReferTo.display (r : ReferTo) : Text :=
  match r.replaces with
  | some replaces =>
    '<' :: r.uri ++ "?Replaces=".toList ++ urlEncodeReplaces replaces ++ ['>']
  | none => '<' :: r.uri ++ ['>']

/-! ### Parsers -/

structure ReplacesParams where
  fromTag : Option Text
  toTag : Option Text
  earlyOnly : Bool

/-- Read one more parameter; a later one of the same name takes its place. -/
def ReplacesParams.read (params : ReplacesParams) (param : Text) : ReplacesParams :=
  let param := Text.trim param
  match param.dropPrefix? "from-tag=".toList with
  | some value => { params with fromTag := some value }
  | none =>
    match param.dropPrefix? "to-tag=".toList with
    | some value => { params with toTag := some value }
    | none =>
      if param = "early-only".toList then { params with earlyOnly := true } else params

def parseReplacesValue (input : Text) : Except String Replaces :=
  match (Text.trim input).splitOn ';' with
  | [] => .error "Replaces: empty value"
  | first :: parts =>
    let callId := Text.trim first
    if callId = [] then .error "Replaces: empty call-id"
    else
      let params := parts.foldl ReplacesParams.read ⟨none, none, false⟩
      match params.fromTag with
      | none => .error "Replaces: missing from-tag"
      | some fromTag =>
        match params.toTag with
        | none => .error "Replaces: missing to-tag"
        | some toTag => .ok ⟨callId, fromTag, toTag, params.earlyOnly⟩

def parseReplaces (input : Text) : Except String Replaces :=
  parseReplacesValue (Text.trim input)

/-- The `Replaces` value of one more URI header, if it is one. -/
def readReplaces (replaces : Option Replaces) (param : Text) : Except String (Option Replaces) :=
  match (param.dropPrefix? "Replaces=".toList).or (param.dropPrefix? "replaces=".toList) with
  | some value => (parseReplacesValue (urlDecode value)).map some
  | none => .ok replaces

/-- The URI of a `Refer-To` value: what is between angle brackets, or the first word. -/
def referUri (input : Text) : Except String Text :=
  if input.head? = some '<' then
    match Slice.splitOnce '>' input with
    | some (inside, _) => .ok (inside.drop 1)
    | none => .error "Refer-To: missing closing '>'"
  else .ok ((Slice.words Text.isWhitespace input).head?.getD input)

def parseReferTo (input : Text) : Except String ReferTo := do
  let uriStr ← referUri (Text.trim input)
  match Slice.splitOnce '?' uriStr with
  | some (baseUri, query) =>
    let replaces ← (query.splitOn '&').foldlM readReplaces none
    return ⟨baseUri, replaces⟩
  | none => return ⟨uriStr, none⟩

end Siphon
