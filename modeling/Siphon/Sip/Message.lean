import Siphon.Sip.Uri
import Siphon.Sip.Headers

/-!
# SIP messages

The message type, its construction and its wire form.
-/

namespace Siphon

inductive Method where
  | invite
  | ack
  | bye
  | cancel
  | options
  | register
  | info
  | update
  | prack
  | subscribe
  | notify
  | refer
  | message
  | publish
  | extension (token : Text)
deriving DecidableEq

namespace Method

def asStr : Method → Text
  | invite => "INVITE".toList
  | ack => "ACK".toList
  | bye => "BYE".toList
  | cancel => "CANCEL".toList
  | options => "OPTIONS".toList
  | register => "REGISTER".toList
  | info => "INFO".toList
  | update => "UPDATE".toList
  | prack => "PRACK".toList
  | subscribe => "SUBSCRIBE".toList
  | notify => "NOTIFY".toList
  | refer => "REFER".toList
  | message => "MESSAGE".toList
  | publish => "PUBLISH".toList
  | extension token => token

/-- The methods with a constructor of their own. -/
def known : List Method :=
  [invite, ack, bye, cancel, options, register, info, update, prack, subscribe, notify, refer,
    message, publish]

/-- The method of a token: the known methods in any case, another token verbatim. -/
def fromStr [StdText] (s : Text) : Method :=
  (known.find? fun m => m.asStr == StdText.toUppercase s).getD (extension s)

end Method

structure Version where
  major : ℕ
  minor : ℕ
deriving DecidableEq

namespace Version

def sip20 : Version :=
  ⟨2, 0⟩

def display (v : Version) : Text :=
  "SIP/".toList ++ Decimal.display v.major ++ '.' :: Decimal.display v.minor

end Version

structure RequestLine where
  method : Method
  requestUri : SipUri
  version : Version
deriving DecidableEq

/-- First line of a response.  `generatedLocally` marks a response made for a branch no peer
answered and is not part of the wire form. -/
structure StatusLine where
  version : Version
  statusCode : ℕ
  reasonPhrase : Text
  generatedLocally : Bool
deriving DecidableEq

inductive StartLine where
  | request (line : RequestLine)
  | response (line : StatusLine)
deriving DecidableEq

structure SipMessage where
  startLine : StartLine
  headers : SipHeaders
  body : Bytes
deriving DecidableEq

namespace StartLine

def display : StartLine → Text
  | request req =>
    req.method.asStr ++ ' ' :: req.requestUri.display ++ ' ' :: req.version.display
      ++ "\r\n".toList
  | response resp =>
    resp.version.display ++ ' ' :: Decimal.display resp.statusCode ++ ' ' :: resp.reasonPhrase
      ++ "\r\n".toList

end StartLine

namespace SipMessage

variable (m : SipMessage)

def isRequest : Bool :=
  match m.startLine with
  | .request _ => true
  | .response _ => false

def method : Option Method :=
  match m.startLine with
  | .request req => some req.method
  | .response _ => none

def statusCode : Option ℕ :=
  match m.startLine with
  | .request _ => none
  | .response resp => some resp.statusCode

def requestUri : Option SipUri :=
  match m.startLine with
  | .request req => some req.requestUri
  | .response _ => none

/-- The start line and the header rows, before the blank line. -/
def headBytes : Bytes :=
  Utf8.encode m.startLine.display ++ m.headers.writeWire

def toBytes : Bytes :=
  m.headBytes ++ [13, 10] ++ m.body

end SipMessage

/-- Build a minimal response with the header fields every response has, and no body. -/
def buildResponseSkeleton (request : SipMessage) (statusCode : ℕ) (reason : Text) : SipMessage :=
  let copy (headers : SipHeaders) (name : Text) : SipHeaders :=
    match request.headers.get name with
    | some value => headers.add name value
    | none => headers
  let vias := (request.headers.getAll "Via".toList).getD []
  let headers := vias.foldl (fun headers via => headers.add "Via".toList via) SipHeaders.new
  let headers := ["From".toList, "To".toList, "Call-ID".toList, "CSeq".toList].foldl copy headers
  ⟨.response ⟨.sip20, statusCode, reason, false⟩,
    headers.set "Content-Length".toList (Decimal.display 0), []⟩

end Siphon
