import Siphon.Transport.Framing

/-!
# The read loop of a stream connection

What has been read is drained of keepalives and framed, message by message, until more has
to be read; a buffer that is no SIP message or declares too much closes the connection.
-/

namespace Siphon

/-! ### The loop -/

/-- A keepalive frame in front of a buffer. -/
inductive KeepaliveFrame where
  | ping
  | pong

/-- Drain the leading keepalive frames: a double CRLF is a ping, a single one a pong or a
stray line end. -/
def drainLeadingCrlfKeepalives : Bytes → Bytes × List KeepaliveFrame
  | 13 :: 10 :: 13 :: 10 :: rest =>
    let drained := drainLeadingCrlfKeepalives rest
    (drained.1, .ping :: drained.2)
  | 13 :: 10 :: rest =>
    let drained := drainLeadingCrlfKeepalives rest
    (drained.1, .pong :: drained.2)
  | buffer => (buffer, [])

/-- What the read task does besides reading. -/
inductive StreamEvent where
  /-- A pong is written to the peer. -/
  | writePong
  | recordPong
  /-- A message is handed on. -/
  | deliver (data : Bytes)
  /-- A refusal is written to the peer. -/
  | writeReject (data : Bytes)
  /-- The source is counted as malformed. -/
  | recordMalformed
deriving DecidableEq

def KeepaliveFrame.event : KeepaliveFrame → StreamEvent
  | ping => .writePong
  | pong => .recordPong

/-- Why the read task closes the connection itself. -/
inductive CloseReason where
  | oversized
  | garbage
deriving DecidableEq

/-- What is left to frame, what was done and why the connection was closed, if it was. -/
structure Served where
  accumulator : Bytes
  events : List StreamEvent
  closed : Option CloseReason
deriving DecidableEq

def Served.after (events : List StreamEvent) (s : Served) : Served :=
  { s with events := events ++ s.events }

def deliveredBy (events : List StreamEvent) : List Bytes :=
  events.filterMap fun
    | .deliver data => some data
    | _ => none

@[simp] theorem deliveredBy_nil :
  deliveredBy [] = []
  := rfl

@[simp] theorem deliveredBy_append (xs ys : List StreamEvent) :
  deliveredBy (xs ++ ys) = deliveredBy xs ++ deliveredBy ys
  := List.filterMap_append

@[simp] theorem deliveredBy_deliver (data : Bytes) (events : List StreamEvent) :
  deliveredBy (.deliver data :: events) = data :: deliveredBy events
  := rfl

@[simp] theorem deliveredBy_recordMalformed :
  deliveredBy [.recordMalformed] = []
  := rfl

@[simp] theorem deliveredBy_keepalives (frames : List KeepaliveFrame) :
  deliveredBy (frames.map KeepaliveFrame.event) = []
  := by
  induction frames with
  | nil => rfl
  | cons frame frames ih => cases frame <;> apply ih

theorem drain_eq (buffer : Bytes) :
  (drainLeadingCrlfKeepalives buffer).1 = buffer.drop (leadingCrlfLen buffer)
  := by
  fun_induction drainLeadingCrlfKeepalives buffer with
  | case1 rest drained ih | case2 rest hping drained ih => simpa [leadingCrlfLen] using ih
  | case3 buffer hping hpong =>
    rw [leadingCrlfLen, List.drop_zero]
    apply hpong

theorem pos_of_frame_complete {buffer : Bytes} {maxMessageBytes len : ℕ}
    (h : frameSipMessage buffer maxMessageBytes = .complete len) :
  0 < len ∧ len ≤ buffer.length
  := by
  rw [frameSipMessage] at h
  cases hlen : extractSipMessageLength buffer with
  | none =>
    rw [hlen] at h
    cases hc : classifyIncompleteStream buffer <;> rw [hc] at h <;> cases h
  | some n =>
    have hpos : 0 < n := by
      rw [extractSipMessageLength, Option.map_eq_some_iff] at hlen
      obtain ⟨headerEnd, -, rfl⟩ := hlen
      dsimp only
      omega
    rw [hlen] at h
    dsimp only at h
    split at h
    · cases h
    split at h
    · cases h
    split at h
    · rename_i hle
      cases h
      exact ⟨hpos, hle⟩
    · cases h

section

variable [StdText]

/-- The answer to a message that declares too much: a refusal, if its headers are those of a
request. -/
def rejectOversized (headers : Bytes) : List StreamEvent :=
  match parseSipHeadersOnly headers with
  | .ok request =>
    if request.isRequest then
      [.writeReject (buildResponseSkeleton request 513 "Message Too Large".toList).toBytes]
    else []
  | .error _ => []

/-- Extract every complete message currently buffered. -/
def frameBuffered (maxMessageBytes : ℕ) (accumulator : Bytes) : Served :=
  let drained := drainLeadingCrlfKeepalives accumulator
  let buffer := drained.1
  let events := drained.2.map KeepaliveFrame.event
  if buffer = [] then ⟨[], events, none⟩
  else
    match h : frameSipMessage buffer maxMessageBytes with
    | .complete len =>
      (frameBuffered maxMessageBytes (buffer.drop len)).after
        (events ++ [.deliver (buffer.take len)])
    | .needMore => ⟨buffer, events, none⟩
    | .oversized _ headerLen =>
      ⟨buffer, events ++ rejectOversized (buffer.take headerLen) ++ [.recordMalformed],
        some .oversized⟩
    | .garbage => ⟨buffer, events ++ [.recordMalformed], some .garbage⟩
termination_by accumulator.length
decreasing_by
  have hlen : 0 < len ∧ len ≤ (drainLeadingCrlfKeepalives accumulator).1.length :=
    pos_of_frame_complete h
  have hdrain : (drainLeadingCrlfKeepalives accumulator).1.length ≤ accumulator.length := by
    rw [drain_eq, List.length_drop]
    omega
  rw [List.length_drop]
  omega

/-- Serve a connection: frame what is buffered, then read and frame again. -/
def serve (maxMessageBytes : ℕ) (accumulator : Bytes) : List Bytes → Served
  | [] => frameBuffered maxMessageBytes accumulator
  | chunk :: reads =>
    let framed := frameBuffered maxMessageBytes accumulator
    if framed.closed.isSome then framed
    else (serve maxMessageBytes (framed.accumulator ++ chunk) reads).after framed.events

end

end Siphon
