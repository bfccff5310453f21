import Siphon.Sip.HeaderValues
import Siphon.Transaction.Timer
import Siphon.Transport.Address

/-!
# Server transactions

What the machines ask of the transport and the transaction user, and the two server machines.
Each takes its state and an event to a new state and actions.
-/

namespace Siphon.Transaction

/-! ### Common types -/

/-- Whether retransmissions are needed. -/
inductive Transport where
  | udp
  | reliable
deriving DecidableEq

/-- Where a client transaction's request went. -/
structure BranchHop where
  destination : SocketAddr
  transport : Siphon.Transport
  connectionId : ConnectionId
  sourceLocalAddr : Option SocketAddr
deriving DecidableEq

/-- The CANCEL of an INVITE as it goes on the wire, and the hop that INVITE went to. -/
structure BranchCancel where
  frame : Bytes
  hop : BranchHop
deriving DecidableEq

/-- Why an ACK or a CANCEL cannot be built. -/
inductive BuildError where
  /-- `sent INVITE does not parse back: …` -/
  | doesNotParseBack (error : ParseError)
  | message (text : String)
deriving DecidableEq

/-- An action the transaction layer asks the transport or the transaction user to perform. -/
inductive Action where
  | sendMessage (message : SipMessage)
  | sendFrame (frame : Bytes)
  | sendCancel (cancel : BranchCancel)
  | passToTu (message : SipMessage)
  | startTimer (name : TimerName) (duration : Duration)
  | cancelTimer (name : TimerName)
  | timeout
  | terminated
  /-- An anomaly, as `text: error`. -/
  | protocolError (text : String) (error : BuildError)
deriving DecidableEq

section

variable [StdText]

/-- Put a tag on the `To` of a response that has none, the same one on all responses of a
transaction; `fresh` is the random tag taken when there is none yet. -/
def stampUasToTag (fresh : Text) (response : SipMessage) (cache : Option Text) :
    SipMessage × Option Text :=
  match response.startLine with
  | .request _ => (response, cache)
  | .response line =>
    if line.statusCode = 100 then (response, cache)
    else
      match response.headers.get "To".toList with
      | none => (response, cache)
      | some value =>
        match NameAddr.parse value with
        | .error _ => (response, cache)
        | .ok addr =>
          if addr.tag.isSome then (response, cache)
          else
            let tag := cache.getD fresh
            let stamped := NameAddr.display { addr with tag := some tag }
            ({ response with headers := response.headers.set "To".toList stamped }, some tag)

/-! ### Non-INVITE server transaction -/

inductive NistState where
  | trying
  | proceeding
  | completed
  | terminated

inductive NistEvent where
  | requestRetransmit (request : SipMessage)
  | tuProvisional (response : SipMessage)
  | tuFinal (response : SipMessage)
  | timerJ
  | trying100Fired

structure Nist where
  state : NistState
  transport : Transport
  timers : TimerConfig
  lastResponse : Option SipMessage
  originalRequest : SipMessage
  uasToTag : Option Text

namespace Nist

def new (request : SipMessage) (transport : Transport) (timers : TimerConfig) :
    Nist × List Action :=
  (⟨.trying, transport, timers, none, request, none⟩,
    if timers.auto100Trying then
      [.startTimer .trying100 (timers.nistAuto100Delay (transport == .reliable))]
    else [])

/-- Answer with a final response: Timer J is started, or the transaction ends if it is zero. -/
def complete (fresh : Text) (n : Nist) (response : SipMessage) : Nist × List Action :=
  let (response, tag) := stampUasToTag fresh response n.uasToTag
  let n := { n with state := .completed, uasToTag := tag, lastResponse := some response }
  let timerJ := match n.transport with
    | .udp => n.timers.timerJUdp
    | .reliable => TimerConfig.timerJTcp
  if timerJ = 0 then ({ n with state := .terminated }, [.sendMessage response, .terminated])
  else (n, [.sendMessage response, .startTimer .j timerJ])

def provision (fresh : Text) (n : Nist) (response : SipMessage) : Nist × List Action :=
  let (response, tag) := stampUasToTag fresh response n.uasToTag
  ({ n with state := .proceeding, uasToTag := tag, lastResponse := some response },
    [.sendMessage response])

/-- Send the last response again. -/
def resend (n : Nist) : List Action :=
  match n.lastResponse with
  | some response => [.sendMessage response]
  | none => []

/-- Stop the timer of the transaction's own `100 Trying`, if it has one. -/
def stopTrying100 (n : Nist) : List Action :=
  if n.timers.auto100Trying then [.cancelTimer .trying100] else []

def process (fresh : Text) (n : Nist) (event : NistEvent) : Nist × List Action :=
  match n.state, event with
  | .trying, .requestRetransmit _ => (n, [])
  | .trying, .tuProvisional response =>
    let (n', actions) := n.provision fresh response
    (n', n.stopTrying100 ++ actions)
  | .trying, .tuFinal response =>
    let (n', actions) := n.complete fresh response
    (n', n.stopTrying100 ++ actions)
  | .trying, .trying100Fired =>
    let trying := buildResponseSkeleton n.originalRequest 100 "Trying".toList
    ({ n with state := .proceeding, lastResponse := some trying }, [.sendMessage trying])
  | .proceeding, .requestRetransmit _ => (n, n.resend)
  | .proceeding, .tuProvisional response => n.provision fresh response
  | .proceeding, .tuFinal response => n.complete fresh response
  | .completed, .requestRetransmit _ => (n, n.resend)
  | .completed, .timerJ => ({ n with state := .terminated }, [.terminated])
  | _, _ => (n, [])

end Nist

/-! ### INVITE server transaction -/

inductive IstState where
  | proceeding
  | completed
  | confirmed
  | terminated
  | accepted

inductive IstEvent where
  | inviteRetransmit (request : SipMessage)
  | tuProvisional (response : SipMessage)
  | tu2xx (response : SipMessage)
  | tuNon2xxFinal (response : SipMessage)
  | ackReceived (request : SipMessage)
  | timerG
  | timerH
  | timerI

structure Ist where
  state : IstState
  transport : Transport
  timers : TimerConfig
  lastResponse : Option SipMessage
  timerGInterval : Duration
  uasToTag : Option Text

namespace Ist

def new (transport : Transport) (timers : TimerConfig) : Ist :=
  ⟨.proceeding, transport, timers, none, timers.timerGInitial, none⟩

/-- Send the last response again. -/
def resend (t : Ist) : List Action :=
  match t.lastResponse with
  | some response => [.sendMessage response]
  | none => []

def process (fresh : Text) (t : Ist) (event : IstEvent) : Ist × List Action :=
  match t.state, event with
  | .proceeding, .inviteRetransmit _ => (t, t.resend)
  | .proceeding, .tuProvisional response =>
    let (response, tag) := stampUasToTag fresh response t.uasToTag
    ({ t with uasToTag := tag, lastResponse := some response }, [.sendMessage response])
  | .proceeding, .tu2xx response =>
    let (response, tag) := stampUasToTag fresh response t.uasToTag
    ({ t with state := .accepted, uasToTag := tag }, [.sendMessage response, .terminated])
  | .proceeding, .tuNon2xxFinal response =>
    let (response, tag) := stampUasToTag fresh response t.uasToTag
    let t := { t with state := .completed, uasToTag := tag, lastResponse := some response }
    let actions := [.sendMessage response, .startTimer .h t.timers.timerH]
    match t.transport with
    | .udp =>
      let t := { t with timerGInterval := t.timers.timerGInitial }
      (t, actions ++ [.startTimer .g t.timerGInterval])
    | .reliable => (t, actions)
  | .completed, .inviteRetransmit _ => (t, t.resend)
  | .completed, .timerG =>
    match t.lastResponse with
    | some response =>
      let t := { t with timerGInterval := t.timers.nextRetransmit t.timerGInterval }
      (t, [.sendMessage response, .startTimer .g t.timerGInterval])
    | none => (t, [])
  | .completed, .timerH =>
    ({ t with state := .terminated }, [.cancelTimer .g, .timeout, .terminated])
  | .completed, .ackReceived _ =>
    let timerI := match t.transport with
      | .udp => t.timers.timerIUdp
      | .reliable => TimerConfig.timerITcp
    let actions := [.cancelTimer .g, .cancelTimer .h]
    if timerI = 0 then ({ t with state := .terminated }, actions ++ [.terminated])
    else ({ t with state := .confirmed }, actions ++ [.startTimer .i timerI])
  | .confirmed, .ackReceived _ => (t, [])
  | .confirmed, .timerI => ({ t with state := .terminated }, [.terminated])
  | _, _ => (t, [])

end Ist

end

end Siphon.Transaction
