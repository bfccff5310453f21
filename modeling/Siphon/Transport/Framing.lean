import Siphon.Sip.Parser

/-!
# Stream framing

Where one message ends in the octets of a stream, decided before anything is parsed.
-/

namespace Siphon

/-! ### The length of a message -/

def isWspByte (b : UInt8) : Bool :=
  b == 32 || b == 9

def isAsciiWhitespaceByte (b : UInt8) : Bool :=
  b == 32 || b == 9 || b == 10 || b == 12 || b == 13

def toAsciiLowercaseByte (b : UInt8) : UInt8 :=
  if 65 ≤ b && b ≤ 90 then b + 32 else b

/-- A line without the carriage return it ends with. -/
def stripCr (line : Bytes) : Bytes :=
  (line.dropSuffix? [13]).getD line

def headerLines (headers : Bytes) : List Bytes :=
  ((headers.splitOn 10).map stripCr).filter (· ≠ [])

/-- A header value with the continuation lines that follow folded into it. -/
def foldContinuations (value : Bytes) : List Bytes → Bytes
  | [] => value
  | line :: lines =>
    if line.head?.any isWspByte then foldContinuations (value ++ 32 :: line) lines else value

def isContentLengthName (name : Bytes) : Bool :=
  let name := Slice.trimMatches isAsciiWhitespaceByte (name.map toAsciiLowercaseByte)
  name == Utf8.encode "content-length".toList || name == Utf8.encode "l".toList

/-- The value of the first `Content-Length` line among header lines. -/
def scanContentLength : List Bytes → Option ℕ
  | [] => none
  | line :: lines =>
    if line.head?.any isWspByte then scanContentLength lines
    else
      match Slice.splitOnce 58 line with
      | none => scanContentLength lines
      | some (name, value) =>
        if isContentLengthName name then
          (Utf8.decode (foldContinuations value lines)).bind fun s =>
            Decimal.parse (2 ^ 64) (Text.trim s)
        else scanContentLength lines

/-- Extract the `Content-Length` value from raw header bytes, skipping the start line. -/
def extractContentLength (headers : Bytes) : Option ℕ :=
  match headerLines headers with
  | [] => none
  | _ :: lines => scanContentLength lines

/-- The length of the complete message in front of a buffer, once its headers are complete;
the sum saturates at the greatest 64-bit integer. -/
def extractSipMessageLength (buffer : Bytes) : Option ℕ :=
  let lead := leadingCrlfLen buffer
  let rest := buffer.drop lead
  (Slice.position [13, 10, 13, 10] rest).map fun headerEnd =>
    let headersLen := lead + headerEnd + 4
    let contentLength := (extractContentLength (rest.take headerEnd)).getD 0
    min (headersLen + contentLength) (2 ^ 64 - 1)

/-! ### Verdicts -/

/-- Maximum octets of a message whose headers are not complete. -/
def maxIncompleteHeaderBytes : ℕ := 64 * 1024

/-- Verdict for a buffer that does not contain a complete message. -/
inductive StreamVerdict where
  | maybeSip
  | garbage

/-- Whether a line is a SIP start line: it ends or starts with the version. -/
def isSipStartLine (line : Bytes) : Bool :=
  (Utf8.encode "SIP/2.0 ".toList).isPrefixOf line || (Utf8.encode " SIP/2.0".toList).isSuffixOf line

/-- A control octet other than CR, LF and tab. -/
def isControlByte (b : UInt8) : Bool :=
  b < 32 && b != 13 && b != 10 && b != 9

/-- Classify a buffer without end of headers: a message still arriving, or something else. -/
def classifyIncompleteStream (buffer : Bytes) : StreamVerdict :=
  if maxIncompleteHeaderBytes < buffer.length then .garbage
  else if (buffer.take 512).any isControlByte then .garbage
  else
    match Slice.position crlf buffer with
    | some lineEnd => if isSipStartLine (buffer.take lineEnd) then .maybeSip else .garbage
    | none => .maybeSip

inductive FrameVerdict where
  /-- A complete message of that length is in front of the buffer. -/
  | complete (len : ℕ)
  /-- Not a complete message yet. -/
  | needMore
  /-- The declared total exceeds the ceiling. -/
  | oversized (declared headerLen : ℕ)
  /-- Not SIP, or an over-long header block. -/
  | garbage

/-- The first line of a buffer, past any leading CRLF pairs. -/
def firstLine (buffer : Bytes) : Bytes :=
  let lead := leadingCrlfLen buffer
  let firstLineEnd := match Slice.position crlf (buffer.drop lead) with
    | some lineEnd => lead + lineEnd
    | none => buffer.length
  (buffer.take firstLineEnd).drop lead

/-- The length of the header block in front of a buffer, with the leading CRLF pairs. -/
def headerBlockLen (buffer : Bytes) : ℕ :=
  let lead := leadingCrlfLen buffer
  match Slice.position [13, 10, 13, 10] (buffer.drop lead) with
  | some headerEnd => lead + headerEnd + 4
  | none => buffer.length

/-- Frame one message, refusing anything whose declared total exceeds `maxMessageBytes`. -/
def frameSipMessage (buffer : Bytes) (maxMessageBytes : ℕ) : FrameVerdict :=
  match extractSipMessageLength buffer with
  | none =>
    match classifyIncompleteStream buffer with
    | .maybeSip => .needMore
    | .garbage => .garbage
  | some len =>
    if !isSipStartLine (firstLine buffer) then .garbage
    else if maxMessageBytes < len then .oversized len (headerBlockLen buffer)
    else if len ≤ buffer.length then .complete len
    else .needMore

end Siphon
