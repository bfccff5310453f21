import Siphon.Library.Decimal

/-!
# SIP URIs

The URI type of the parser and its text form.
-/

namespace Siphon

/-- A parameter or URI header: a name and, after `=`, a value. -/
abbrev Param : Type := Text × Option Text

/-- Format an IP address or hostname for use in SIP URIs, with brackets around IPv6. -/
def formatSipHost (host : Text) : Text :=
  if ':' ∈ host ∧ host.head? ≠ some '[' then '[' :: host ++ [']'] else host

/-- URI scheme; any scheme but the three routed ones is kept verbatim. -/
inductive Scheme where
  | sip
  | sips
  | tel
  | other (token : Text)
deriving DecidableEq

namespace Scheme

/-- The scheme token as it appears on the wire, without the `:`. -/
def asStr : Scheme → Text
  | sip => "sip".toList
  | sips => "sips".toList
  | tel => "tel".toList
  | other token => token

/-- Recognise a scheme token, by its exact lower-case spelling. -/
def fromToken (token : Text) : Scheme :=
  if token = "sip".toList then sip
  else if token = "sips".toList then sips
  else if token = "tel".toList then tel
  else other token

end Scheme

/-- The two URI parts that are absent from almost every URI: the URI headers after `?` and
the user parameters between the user and `@`. -/
structure UriExtras where
  headers : List Param
  userParams : List Param
deriving DecidableEq

/-- A SIP, `tel` or other absolute URI.  Of another absolute URI the opaque part is `host`. -/
structure SipUri where
  scheme : Scheme
  user : Option Text
  host : Text
  port : Option ℕ
  params : List Param
  extras : Option UriExtras
deriving DecidableEq

namespace SipUri

def headers (uri : SipUri) : List Param :=
  (uri.extras.map UriExtras.headers).getD []

def userParams (uri : SipUri) : List Param :=
  (uri.extras.map UriExtras.userParams).getD []

/-- Attach headers and user parameters, keeping `extras` empty when both are. -/
def setExtras (uri : SipUri) (headers userParams : List Param) : SipUri :=
  { uri with extras := if headers = [] ∧ userParams = [] then none else some ⟨headers, userParams⟩ }

end SipUri

/-- `name` or `name=value`. -/
def displayParam (p : Param) : Text :=
  match p.2 with
  | some value => p.1 ++ '=' :: value
  | none => p.1

def displayParams (params : List Param) : Text :=
  params.flatMap fun p => ';' :: displayParam p

namespace SipUri

/-- The authority of a `sip:` or `sips:` URI, or the opaque part of another absolute URI. -/
def displayAuthority (uri : SipUri) : Text :=
  let user := match uri.user with
    | some user => user ++ displayParams uri.userParams ++ ['@']
    | none => []
  let host := match uri.scheme with
    | .other _ => uri.host
    | _ => formatSipHost uri.host
  let port := match uri.port with
    | some port => ':' :: Decimal.display port
    | none => []
  user ++ host ++ port

def display (uri : SipUri) : Text :=
  let hierarchical := match uri.scheme with
    | .tel => uri.user.getD []
    | _ => uri.displayAuthority
  let headers := match uri.headers with
    | [] => []
    | headers => '?' :: ['&'].intercalate (headers.map displayParam)
  uri.scheme.asStr ++ ':' :: hierarchical ++ displayParams uri.params ++ headers

end SipUri

end Siphon
