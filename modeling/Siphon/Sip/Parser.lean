import Siphon.Library.Nom
import Siphon.Sip.Message

/-!
# The message parser

The text parser of start lines, URIs and header lines, and the byte parser built on it.
-/

namespace Siphon

open List
open Nom (char takeWhile1 opt preceded tag)

def crlf : Bytes := [13, 10]

def crlfText : Text := ['\r', '\n']

/-- Why a byte string is not a message. -/
inductive ParseError where
  /-- `no header/body boundary (\r\n\r\n) found` -/
  | noBoundary
  /-- `bare LF at offset … in the header block` -/
  | bareLf (index : ℕ)
  /-- `bare CR at offset … in the header block` -/
  | bareCr (index : ℕ)
  /-- `non-UTF8 in SIP headers` -/
  | nonUtf8
  /-- `start line parse error` -/
  | startLine (error : Nom.Error)
  /-- `header parse error` -/
  | header (error : Nom.Error)
  /-- `invalid Content-Length` -/
  | invalidContentLength (declared : Text)
  /-- `Content-Length … exceeds the … body octet(s) received` -/
  | contentLengthExceeds (declared available : ℕ)
deriving DecidableEq

/-! ### Line ends and versions -/

def parseCrlf : Nom.Parser Text :=
  Nom.alt (tag crlfText) (tag ['\n'])

def parseVersion : Nom.Parser Version := fun input => do
  let (input, _) ← tag "SIP/".toList input
  let (input, major) ← Nom.mapRes Nom.digit1 (Decimal.parse (2 ^ 8)) input
  let (input, _) ← char '.' input
  let (input, minor) ← Nom.mapRes Nom.digit1 (Decimal.parse (2 ^ 8)) input
  return (input, ⟨major, minor⟩)

/-! ### URIs -/

/-- A character that ends a URI as far as the search for the `@` goes. -/
def isUriEnd (c : Char) : Bool :=
  c == ' ' || c == '\r' || c == '\n' || c == '>'

def splitParam (param : Text) : Param :=
  match Slice.splitOnce '=' param with
  | some (name, value) => (name, some value)
  | none => (param, none)

/-- The user and the user parameters in front of the last `@` of the URI, if it has one. -/
def parseUserinfo (input : Text) : Text × Option Text × List Param :=
  match Slice.rfind '@' (input.takeWhile fun c => !isUriEnd c) with
  | none => (input, none, [])
  | some atPos =>
    let userPart := input.take atPos
    let rest := input.drop (atPos + 1)
    if ';' ∈ userPart then
      let bareUser := userPart.takeWhile (· ≠ ';')
      let paramsStr := userPart.dropWhile (· ≠ ';')
      (rest, some bareUser, ((paramsStr.splitOn ';').filter (· ≠ [])).map splitParam)
    else (rest, some userPart, [])

section

variable [StdText] (c : Char)

/-- A character of a domain name or an IPv4 address. -/
def isHostChar : Bool :=
  StdText.isAlphanumeric c || c == '.' || c == '-'

/-- Parse a host: an IPv6 address in brackets, a domain name or an IPv4 address. -/
def parseHost : Nom.Parser Text := fun input =>
  if input.head? = some '[' then do
    let (input, _) ← char '[' input
    let (input, ipv6) ← takeWhile1 (· ≠ ']') input
    let (input, _) ← char ']' input
    return (input, '[' :: ipv6 ++ [']'])
  else takeWhile1 isHostChar input

def parsePort : Nom.Parser ℕ :=
  preceded (char ':')
    (Nom.mapRes (takeWhile1 Char.isDigit) (Decimal.parse (2 ^ 16)))

def isParamValueChar : Bool :=
  !(c == ';' || c == '?' || c == ' ' || c == '\r' || c == '\n')

def isParamNameChar : Bool :=
  c != '=' && isParamValueChar c

def parseUriParams : Nom.Parser (List Param) :=
  Nom.many0 (preceded (char ';')
    (Nom.pair (takeWhile1 isParamNameChar)
      (opt (preceded (char '=') (Nom.takeWhile isParamValueChar)))))

def isHeaderValueChar : Bool :=
  !(c == '&' || c == ' ' || c == '\r' || c == '\n')

def isHeaderNameChar : Bool :=
  c != '=' && isHeaderValueChar c

def parseUriHeaders : Nom.Parser (List Param) :=
  Nom.many0 (preceded (opt (char '&'))
    (Nom.pair (takeWhile1 isHeaderNameChar)
      (opt (preceded (char '=') (Nom.takeWhile isHeaderValueChar)))))

def isSubscriberChar : Bool :=
  c.isDigit || c == '+' || c == '-' || c == '.' || c == '(' || c == ')'

/-- Parse a `tel:` URI after its scheme.  The host is the `phone-context`. -/
def parseTelUri : Nom.Parser SipUri := fun input => do
  let (input, subscriber) ← takeWhile1 isSubscriberChar input
  let (input, params) ← opt parseUriParams input
  let params := params.getD []
  let host := ((params.find? fun p => p.1 == "phone-context".toList).bind Prod.snd).getD []
  return (input, ⟨.tel, some subscriber, host, none, params, none⟩)

/-- Whether a text is a URI scheme: a letter, then letters, digits, `+`, `-` and `.`. -/
def isSchemeToken : Text → Bool
  | [] => false
  | c :: cs =>
    c.isAlpha && cs.all fun d => d.isAlphanum || d == '+' || d == '-' || d == '.'

/-- A character that ends the opaque part of an absolute URI. -/
def isOpaqueEnd : Bool :=
  c == ' ' || c == '\t' || c == '\r' || c == '\n' || c == '>' || c == ','

/-- The opaque part of an absolute URI without a trailing `:port`, and that port. -/
def splitOpaquePort (opaquePart : Text) : Text × Option ℕ :=
  match Slice.rsplitOnce ':' opaquePart with
  | some (head, tail) =>
    if tail ≠ [] ∧ tail.all Char.isDigit then
      match Decimal.parse (2 ^ 16) tail with
      | some port => (head, some port)
      | none => (opaquePart, none)
    else (opaquePart, none)
  | none => (opaquePart, none)

/-- Parse a URI of another scheme: the scheme and an opaque remainder. -/
def parseAbsoluteUri : Nom.Parser SipUri := fun input =>
  match Slice.splitOnce ':' input with
  | none => .error ⟨input, .char⟩
  | some (scheme, rest) =>
    if scheme = [] then .error ⟨input, .char⟩
    else if !isSchemeToken scheme then .error ⟨input, .tag⟩
    else
      let opaquePart := rest.takeWhile fun c => !isOpaqueEnd c
      if opaquePart = [] then .error ⟨input, .takeWhile1⟩
      else
        let (host, port) := splitOpaquePort opaquePart
        .ok (rest.dropWhile fun c => !isOpaqueEnd c,
          ⟨Scheme.fromToken scheme, none, host, port, [], none⟩)

def parseSipUri : Nom.Parser SipUri := fun input => do
  let (input, scheme) ← Nom.alt (tag "sip:".toList) (tag "sips:".toList) input
  let scheme := if scheme = "sips:".toList then Scheme.sips else Scheme.sip
  let (input, user, userParams) := parseUserinfo input
  let (input, host) ← parseHost input
  let (input, port) ← opt parsePort input
  let (input, params) ← opt parseUriParams input
  let (input, headers) ← opt (preceded (char '?') parseUriHeaders) input
  let uri : SipUri := ⟨scheme, user, host, port, params.getD [], none⟩
  return (input, uri.setExtras (headers.getD []) userParams)

def parseUri : Nom.Parser SipUri := fun input =>
  match input.dropPrefix? "tel:".toList with
  | some rest => parseTelUri rest
  | none =>
    if !"sip:".toList.isPrefixOf input && !"sips:".toList.isPrefixOf input then
      parseAbsoluteUri input
    else parseSipUri input

inductive UriError where
  /-- `unexpected {rest:?} after the URI in {input:?}` -/
  | unexpected (rest input : Text)
  /-- `failed to parse SIP URI {input:?}: {error}` -/
  | failed (input : Text) (error : Nom.Error)
deriving DecidableEq

def parseUriComplete (input : Text) : Except UriError SipUri :=
  match parseUri input with
  | .ok ([], uri) => .ok uri
  | .ok (rest, _) => .error (.unexpected rest input)
  | .error error => .error (.failed input error)

/-! ### Start lines -/

def isMethodChar : Bool :=
  StdText.isAlphanumeric c
    || c ∈ ['-', '.', '!', '%', '*', '_', '+', '\x60', '\x27', '~']

/-- Parse request line: method, Request-URI and version, with one space between them. -/
def parseRequestLine : Nom.Parser RequestLine := fun input => do
  let (input, methodStr) ← takeWhile1 isMethodChar input
  let method := Method.fromStr methodStr
  let (input, _) ← char ' ' input
  let (input, uri) ← parseUri input
  let (input, _) ← char ' ' input
  let (input, version) ← parseVersion input
  let (input, _) ← parseCrlf input
  return (input, ⟨method, uri, version⟩)

/-- Parse status line: version, status code and reason phrase. -/
def parseStatusLine : Nom.Parser StatusLine := fun input => do
  let (input, version) ← parseVersion input
  let (input, _) ← Nom.space1 input
  let (input, statusCode) ← Nom.mapRes Nom.digit1 (Decimal.parse (2 ^ 16)) input
  let (input, _) ← Nom.space1 input
  let (input, reasonPhrase) ← Nom.takeUntil crlfText input
  let (input, _) ← parseCrlf input
  return (input, ⟨version, statusCode, reasonPhrase, false⟩)

def parseStartLine : Nom.Parser StartLine :=
  Nom.alt (Nom.map parseRequestLine .request) (Nom.map parseStatusLine .response)

end

/-! ### Header lines -/

/-- Space and tab, the white space within a header line. -/
def isWsp (c : Char) : Bool :=
  c == ' ' || c == '\t'

def isNameChar (c : Char) : Bool :=
  !(c == ':' || c == '\r' || c == '\n' || c == ' ' || c == '\t')

/-- One line of a header value, appended to the text `value` read so far, and whether a
continuation line follows; its leading white space is consumed and becomes one space. -/
def parseValueLine (value remaining : Text) : Except Nom.Error (Text × Text × Bool) := do
  let (input, lineValue) ← Nom.takeUntil crlfText remaining
  let value := value ++ lineValue
  let (input, _) ← parseCrlf input
  if input = [] then return (input, value, false)
  if input.dropWhile isWsp = [] then return (input, value, false)
  if input.head?.any isWsp then
    let (input, _) ← takeWhile1 isWsp input
    return (input, value ++ [' '], true)
  else return (input, value, false)

theorem length_lt_of_parseCrlf {input rest out : Text} (h : parseCrlf input = .ok (rest, out)) :
  rest.length < input.length
  := by
  rw [parseCrlf, Nom.alt_eq_ok, Nom.tag_eq_ok, Nom.tag_eq_ok] at h
  rcases h with ⟨rfl, -⟩ | ⟨-, rfl, -⟩
  · simp only [crlfText, length_append, length_cons]
    omega
  · simp

theorem length_lt_of_parseValueLine {value remaining rest out : Text} {more : Bool}
    (h : parseValueLine value remaining = .ok (rest, out, more)) :
  rest.length < remaining.length
  := by
  rw [parseValueLine, Nom.bind_eq_ok, Prod.exists] at h
  obtain ⟨line, text, hu, h⟩ := h
  rw [Nom.bind_eq_ok, Prod.exists] at h
  obtain ⟨next, eol, hc, h⟩ := h
  have hline := congrArg List.length (Nom.takeUntil_eq_ok.mp hu).1
  have hnext := length_lt_of_parseCrlf hc
  have hrest : rest.length ≤ next.length := by
    dsimp only at h
    split at h
    · cases h
      apply le_refl
    split at h
    · cases h
      apply le_refl
    split at h
    · rw [Nom.bind_eq_ok, Prod.exists] at h
      obtain ⟨tail, ws, hw, h⟩ := h
      have htail := congrArg List.length (Nom.takeWhile1_eq_ok.mp hw).2.1
      dsimp only at h
      cases h
      rw [length_append] at htail
      omega
    · cases h
      apply le_refl
  rw [length_append] at hline
  omega

/-- The value of a header line and of the continuation lines folded into it, after the text
`value` read so far. -/
def parseHeaderValue (value remaining : Text) : Except Nom.Error (Text × Text) :=
  match h : parseValueLine value remaining with
  | .error e => .error e
  | .ok (rest, value, false) => .ok (rest, Text.trim value)
  | .ok (rest, value, true) =>
    have := length_lt_of_parseValueLine h
    parseHeaderValue value rest
termination_by remaining.length

def parseHeaderLine : Nom.Parser (Text × Text) := fun input => do
  let input := input.dropWhile isWsp
  let (input, name) ← takeWhile1 isNameChar input
  let (input, _) ← Nom.takeWhile isWsp input
  let (input, _) ← char ':' input
  let (input, _) ← Nom.takeWhile isWsp input
  let (input, value) ← parseHeaderValue [] input
  return (input, Text.trimAscii name, value)

theorem parseHeaderValue_eq_ok {value remaining rest out : Text} :
  parseHeaderValue value remaining = .ok (rest, out)
    ↔ (∃ v, parseValueLine value remaining = .ok (rest, v, false) ∧ out = Text.trim v)
      ∨ ∃ mid v, parseValueLine value remaining = .ok (mid, v, true)
        ∧ parseHeaderValue v mid = .ok (rest, out)
  := by
  rw [parseHeaderValue]
  split <;> rename_i h
  · simp [h]
  · grind
  · simp [h]

theorem length_lt_of_parseHeaderValue {value remaining rest out : Text}
    (h : parseHeaderValue value remaining = .ok (rest, out)) :
  rest.length < remaining.length
  := by
  rcases parseHeaderValue_eq_ok.mp h with ⟨v, hv, -⟩ | ⟨mid, v, hv, hm⟩
  · apply length_lt_of_parseValueLine hv
  · have hmid := length_lt_of_parseValueLine hv
    have hrest := length_lt_of_parseHeaderValue hm
    omega
termination_by remaining.length
decreasing_by apply hmid

theorem parseHeaderLine_eq_ok {input rest name value : Text} :
  parseHeaderLine input = .ok (rest, name, value)
    ↔ ∃ token ws text, input.dropWhile isWsp = token ++ ws ++ ':' :: text
      ∧ token ≠ [] ∧ (∀ c ∈ token, isNameChar c = true) ∧ (∀ c ∈ ws, isWsp c = true)
      ∧ name = Text.trimAscii token
      ∧ parseHeaderValue [] (text.dropWhile isWsp) = .ok (rest, value)
  := by
  simp only [parseHeaderLine, Nom.bind_eq_ok, Prod.exists]
  constructor
  · rintro ⟨r₁, token, h₁, r₂, ws, h₂, r₃, colon, h₃, after, sws, h₄, r₅, v, h₅, h⟩
    obtain ⟨hne, e₁, htoken, -⟩ := Nom.takeWhile1_eq_ok.mp h₁
    obtain ⟨e₂, hws, -⟩ := Nom.takeWhile_eq_ok.mp h₂
    obtain ⟨e₃, -⟩ := Nom.char_eq_ok.mp h₃
    cases h
    cases h₄
    use token, ws, r₃
    apply And.intro
    · rw [e₁, e₂, e₃, append_assoc]
    · exact ⟨hne, htoken, hws, rfl, h₅⟩
  · rintro ⟨token, ws, text, hi, hne, htoken, hws, rfl, hv⟩
    have h₁ : takeWhile1 isNameChar (input.dropWhile isWsp)
        = .ok (ws ++ ':' :: text, token) := by
      rw [Nom.takeWhile1_eq_ok, hi, append_assoc]
      refine ⟨hne, rfl, htoken, ?_⟩
      intro c hc
      cases ws with
      | nil =>
        cases hc
        rfl
      | cons d ws =>
        cases hc
        have hd := hws c mem_cons_self
        simp only [isWsp, Bool.or_eq_true, beq_iff_eq] at hd
        rcases hd with rfl | rfl <;> rfl
    have h₂ : Nom.takeWhile isWsp (ws ++ ':' :: text) = .ok (':' :: text, ws) := by
      rw [Nom.takeWhile_eq_ok]
      refine ⟨rfl, hws, ?_⟩
      rintro c ⟨⟩
      rfl
    have h₃ : char ':' (':' :: text) = .ok (text, ':') := Nom.char_eq_ok.mpr ⟨rfl, rfl⟩
    exact ⟨_, _, h₁, _, _, h₂, _, _, h₃, _, _, rfl, _, _, hv, rfl⟩

theorem length_lt_of_parseHeaderLine {input rest : Text} {field : Text × Text}
    (h : parseHeaderLine input = .ok (rest, field)) :
  rest.length < input.length
  := by
  obtain ⟨token, ws, text, he, -, -, -, -, hv⟩ := parseHeaderLine_eq_ok.mp h
  have hrest := length_lt_of_parseHeaderValue hv
  have hdrop := (dropWhile_sublist isWsp (l := input)).length_le
  have htext := (dropWhile_sublist isWsp (l := text)).length_le
  rw [he] at hdrop
  simp only [length_append, length_cons] at hdrop
  omega

/-- Parse the header section until the empty line. -/
def parseHeadersFrom (headers : SipHeaders) (remaining : Text) :
    Except Nom.Error (Text × SipHeaders) :=
  if remaining = [] then .ok (remaining, headers)
  else if let some after := remaining.dropPrefix? crlfText then .ok (after, headers)
  else if let some after := remaining.dropPrefix? ['\n'] then .ok (after, headers)
  else if remaining.head?.any isWsp then .error ⟨remaining, .space⟩
  else
    match h : parseHeaderLine remaining with
    | .error e => .error e
    | .ok (rest, name, value) =>
      have := length_lt_of_parseHeaderLine h
      parseHeadersFrom (headers.add name value) rest
termination_by remaining.length

/-- Parse the header section until the empty line. -/
def parseHeaders (input : Text) : Except Nom.Error (Text × SipHeaders) :=
  parseHeadersFrom SipHeaders.new input

/-! ### Messages -/

/-- Check the octets of a header block from `index` on, after the octet `previous`. -/
def validateFrom (index : ℕ) (previous : Option UInt8) : Bytes → Except ParseError Unit
  | [] => .ok ()
  | byte :: rest =>
    if byte = 10 ∧ previous ≠ some 13 then .error (.bareLf index)
    else if byte = 13 ∧ rest.head? ≠ some 10 then .error (.bareCr index)
    else validateFrom (index + 1) (some byte) rest

/-- Reject a header block whose lines are not all CRLF-terminated. -/
def validateHeaderLineEndings (headerBytes : Bytes) : Except ParseError Unit :=
  validateFrom 0 none headerBytes

/-- Count the octets of the leading CRLF pairs a peer may send before the start line. -/
def leadingCrlfLen : Bytes → ℕ
  | 13 :: 10 :: rest => leadingCrlfLen rest + 2
  | _ => 0

/-- Find the position of the first CRLF CRLF. -/
def findHeaderBoundary (input : Bytes) : Option ℕ :=
  Slice.position [13, 10, 13, 10] input

section

variable [StdText]

/-- Parse the start line and the header block; the number is the index of the CRLF CRLF. -/
def parseHeaderBlock (input : Bytes) : Except ParseError (StartLine × SipHeaders × ℕ) := do
  let lead := leadingCrlfLen input
  let block := input.drop lead
  match findHeaderBoundary block with
  | none => .error .noBoundary
  | some position =>
    let headerBytes := block.take (position + 4)
    validateHeaderLineEndings headerBytes
    match Utf8.decode headerBytes with
    | none => .error .nonUtf8
    | some trimmed =>
      let (_, startLine) ← (parseStartLine trimmed).mapError .startLine
      let afterStartLine := match Slice.position crlfText trimmed with
        | some pos => trimmed.drop (pos + 2)
        | none => []
      let (_, headers) ← (parseHeaders afterStartLine).mapError .header
      return (startLine, headers, lead + position)

/-- Parse only the header block, ignoring `Content-Length` entirely. -/
def parseSipHeadersOnly (input : Bytes) : Except ParseError SipMessage := do
  let (startLine, headers, _) ← parseHeaderBlock input
  return ⟨startLine, headers, []⟩

/-- Refuse a `Content-Length` that is no number or exceeds the octets received. -/
def checkContentLength (headers : SipHeaders) (available : ℕ) : Except ParseError Unit :=
  match headers.get "Content-Length".toList with
  | none => .ok ()
  | some declared =>
    match Decimal.parse (2 ^ 64) (Text.trim declared) with
    | none => .error (.invalidContentLength (Text.trim declared))
    | some declared =>
      if available < declared then .error (.contentLengthExceeds declared available) else .ok ()

/-- Parse a SIP message from raw bytes; the body is opaque. -/
def parseSipMessageBytes (input : Bytes) : Except ParseError SipMessage := do
  let (startLine, headers, boundary) ← parseHeaderBlock input
  let bodyStart := boundary + 4
  checkContentLength headers (input.length - bodyStart)
  let contentLength := headers.contentLength.getD 0
  let body :=
    if 0 < contentLength ∧ bodyStart + contentLength ≤ input.length then
      (input.drop bodyStart).take contentLength
    else if contentLength = 0 then []
    else input.drop bodyStart
  return ⟨startLine, headers, body⟩

end

end Siphon
