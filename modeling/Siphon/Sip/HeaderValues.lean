import Siphon.Library.Words
import Siphon.Sip.Parser

/-!
# Typed header values

The values of `Via`, `CSeq`, and of `From`, `To` and `Contact`, as far as transactions read
them.
-/

namespace Siphon

variable [StdText]

inductive ValueError where
  /-- `Via missing SIP/2.0/ prefix: …` -/
  | viaVersion (input : Text)
  /-- `Via missing sent-by after transport: …` -/
  | viaSentBy (input : Text)
  /-- `Via bad port: …` -/
  | viaPort (port : Text)
  /-- `Via unterminated IPv6 bracket: …` -/
  | viaBracket (sentBy : Text)
  /-- `Via bad rport: …` -/
  | viaRport (rport : Text)
  /-- `Via header is empty` -/
  | viaEmpty
  /-- `CSeq missing space between seq and method: …` -/
  | cseqSpace (input : Text)
  /-- `CSeq bad sequence number '…': …` -/
  | cseqSequence (sequence : Text)
  /-- `NameAddr missing '>': …` -/
  | nameAddrBracket (input : Text)
  /-- `NameAddr bad URI '…': failed to parse SIP URI '…': …` -/
  | nameAddrUri (uri : Text) (error : Nom.Error)
deriving DecidableEq

/-- `name` or `name=value`, trimmed, with the name in lower case. -/
def headerParam (param : Text) : Param :=
  match Slice.splitOnce '=' param with
  | some (name, value) => (StdText.toLowercase (Text.trim name), some (Text.trim value))
  | none => (StdText.toLowercase (Text.trim param), none)

/-- The texts between semicolons that are not blank. -/
def splitParams (input : Text) : List Text :=
  (input.splitOn ';').filter fun s => !(Text.trim s).isEmpty

/-! ### Via -/

structure Via where
  transport : Text
  host : Text
  port : Option ℕ
  branch : Option Text
  received : Option Text
  rport : Option (Option ℕ)
  otherParams : List Param
deriving DecidableEq

namespace Via

def hostPort (sentBy : Text) : Except ValueError (Text × Option ℕ) :=
  if sentBy.head? = some '[' then
    match Slice.splitOnce ']' sentBy with
    | none => .error (.viaBracket sentBy)
    | some (inside, after) =>
      match after with
      | ':' :: port =>
        match Decimal.parse (2 ^ 16) port with
        | some n => .ok (inside ++ [']'], some n)
        | none => .error (.viaPort port)
      | _ => .ok (inside ++ [']'], none)
  else
    match Slice.rsplitOnce ':' sentBy with
    | some (host, port) =>
      match Decimal.parse (2 ^ 16) port with
      | some n => .ok (host, some n)
      -- what is no port belongs to the host
      | none => .ok (sentBy, none)
    | none => .ok (sentBy, none)

def readParam (via : Via) (param : Text) : Except ValueError Via :=
  let (name, value) := headerParam param
  if name = "branch".toList then .ok { via with branch := value }
  else if name = "received".toList then .ok { via with received := value }
  else if name = "rport".toList then
    match value with
    | some v =>
      match Decimal.parse (2 ^ 16) v with
      | some n => .ok { via with rport := some (some n) }
      | none => .error (.viaRport v)
    | none => .ok { via with rport := some none }
  else .ok { via with otherParams := via.otherParams ++ [(name, value)] }

def parse (input : Text) : Except ValueError Via := do
  let input := Text.trim input
  let some rest := input.dropPrefix? "SIP/2.0/".toList | .error (.viaVersion input)
  let some (transport, rest) := Slice.splitOnceP Text.isAsciiWhitespace rest
    | .error (.viaSentBy input)
  let rest := rest.dropWhile Text.isWhitespace
  let sentBy := rest.takeWhile (· != ';')
  let params := rest.dropWhile (· != ';')
  let (host, port) ← hostPort (Text.trim sentBy)
  (splitParams params).foldlM readParam
    ⟨StdText.toUppercase transport, host, port, none, none, none, []⟩

/-- Parse the hops of a header value, which are separated by commas. -/
def parseMulti (input : Text) : Except ValueError (List Via) := do
  let parts := ((input.splitOn ',').map Text.trim).filter fun s => !s.isEmpty
  let vias ← parts.mapM parse
  if vias.isEmpty then .error .viaEmpty else .ok vias

end Via

/-! ### CSeq -/

structure CSeq where
  sequence : ℕ
  method : Method

def CSeq.parse (input : Text) : Except ValueError CSeq :=
  let input := Text.trim input
  match Slice.splitOnceP Text.isAsciiWhitespace input with
  | none => .error (.cseqSpace input)
  | some (seq, method) =>
    match Decimal.parse (2 ^ 32) (Text.trim seq) with
    | none => .error (.cseqSequence seq)
    | some sequence => .ok ⟨sequence, Method.fromStr (Text.trim method)⟩

/-! ### Names and addresses -/

structure NameAddr where
  displayName : Option Text
  uri : SipUri
  tag : Option Text
  q : Option StdText.F32
  expires : Option ℕ
  otherParams : List Param

def stripQuotes (s : Text) : Text :=
  let s := Text.trim s
  match s with
  | '"' :: inner => if inner.getLast? = some '"' then inner.dropLast else s
  | _ => s

def parseUriStandalone (input : Text) : Except Nom.Error SipUri :=
  (parseUri (Text.trim input)).map Prod.snd

namespace NameAddr

/-- Read one header parameter; one without a meaning of its own goes to `keep`. -/
def readParam (keep : NameAddr → Param → NameAddr) (addr : NameAddr) (name : Text) (param : Param) :
    NameAddr :=
  if name = "tag".toList then { addr with tag := param.2 }
  else if name = "q".toList then { addr with q := param.2.bind StdText.parseF32 }
  else if name = "expires".toList then
    { addr with expires := param.2.bind (Decimal.parse (2 ^ 32)) }
  else keep addr param

/-- Parse a single value, with or without angle brackets. -/
def parse (input : Text) : Except ValueError NameAddr :=
  let input := Text.trim input
  match Slice.splitOnce '<' input with
  | some (before, after) =>
    let display := Text.trim before
    let displayName := if display = [] then none else some (stripQuotes display)
    match Slice.splitOnce '>' after with
    | none => .error (.nameAddrBracket input)
    | some (uriStr, params) =>
      match parseUriStandalone uriStr with
      | .error error => .error (.nameAddrUri uriStr error)
      | .ok uri =>
        let keep (addr : NameAddr) (param : Param) : NameAddr :=
          { addr with otherParams := addr.otherParams ++ [param] }
        .ok (((splitParams (Text.trim params)).map headerParam).foldl
          (fun addr param => readParam keep addr param.1 param)
          ⟨displayName, uri, none, none, none, []⟩)
  | none =>
    match parseUriStandalone input with
    | .error error => .error (.nameAddrUri input error)
    | .ok uri =>
      -- the parameters of a bare URI that mean something in the header are taken out of it
      let keep (addr : NameAddr) (param : Param) : NameAddr :=
        { addr with uri := { addr.uri with params := addr.uri.params ++ [param] } }
      .ok (uri.params.foldl
        (fun addr param => readParam keep addr (StdText.toLowercase param.1) param)
        ⟨none, { uri with params := [] }, none, none, none, []⟩)

def display (addr : NameAddr) : Text :=
  let name := match addr.displayName with
    | some name => '"' :: name ++ "\" ".toList
    | none => []
  let tag := match addr.tag with
    | some tag => ";tag=".toList ++ tag
    | none => []
  let q := match addr.q with
    | some q => ";q=".toList ++ StdText.displayF32 q
    | none => []
  let expires := match addr.expires with
    | some expires => ";expires=".toList ++ Decimal.display expires
    | none => []
  name ++ '<' :: addr.uri.display ++ ['>'] ++ tag ++ q ++ expires ++ displayParams addr.otherParams

end NameAddr

def SipMessage.typedFrom (m : SipMessage) : Except ValueError (Option NameAddr) :=
  (m.headers.get "From".toList).mapM NameAddr.parse

def SipMessage.typedTo (m : SipMessage) : Except ValueError (Option NameAddr) :=
  (m.headers.get "To".toList).mapM NameAddr.parse

end Siphon
