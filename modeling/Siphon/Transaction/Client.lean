import Siphon.Transaction.Server

/-!
# Client transactions

The two client machines, with the no-response timer around each, and the ACK and CANCEL an
INVITE transaction builds from the octets it sent.
-/

namespace Siphon.Transaction

variable [StdText]

/-- Where a client transaction's no-response timer stands. -/
inductive NoResponseProgress where
  | off
  | armed
  | gaveUp
deriving DecidableEq

/-! ### Non-INVITE client transaction -/

inductive NictState where
  | trying
  | proceeding
  | completed
  | terminated
deriving DecidableEq

inductive NictEvent where
  | timerE
  | timerF
  | timerK
  | provisional (response : SipMessage)
  | finalResponse (response : SipMessage)
  | noResponse

structure Nict where
  state : NictState
  transport : Transport
  timers : TimerConfig
  requestBytes : Bytes
  timerEInterval : Duration
  noResponse : NoResponseProgress

namespace Nict

/-- A new transaction: the request is sent and the timers are started. -/
def new (requestBytes : Bytes) (transport : Transport) (timers : TimerConfig) :
    Nict × List Action :=
  (⟨.trying, transport, timers, requestBytes, timers.timerEInitial, .off⟩,
    [.sendFrame requestBytes, .startTimer .f timers.timerF]
      ++ match transport with
        | .udp => [.startTimer .e timers.timerEInitial]
        | .reliable => [])

/-- Give the request a bound on drawing any response at all. -/
def armNoResponse (t : Nict) (after : Duration) : Nict × Option Action :=
  if t.state ≠ .trying then (t, none)
  else ({ t with noResponse := .armed }, some (.startTimer .noResponse after))

/-- The final response: Timer K is started, or the transaction ends if it is zero. -/
def complete (t : Nict) (response : SipMessage) : Nict × List Action :=
  let timerK := match t.transport with
    | .udp => t.timers.timerKUdp
    | .reliable => TimerConfig.timerKTcp
  let actions := [.cancelTimer .e, .cancelTimer .f, .passToTu response]
  if timerK = 0 then ({ t with state := .terminated }, actions ++ [.terminated])
  else ({ t with state := .completed }, actions ++ [.startTimer .k timerK])

/-- The machine without the no-response timer. -/
def advance (t : Nict) (event : NictEvent) : Nict × List Action :=
  match t.state, event with
  | .trying, .timerE =>
    let t := { t with timerEInterval := t.timers.nextRetransmit t.timerEInterval }
    (t, [.sendFrame t.requestBytes, .startTimer .e t.timerEInterval])
  | .trying, .timerF =>
    ({ t with state := .terminated }, [.cancelTimer .e, .timeout, .terminated])
  | .trying, .provisional response => ({ t with state := .proceeding }, [.passToTu response])
  | .trying, .finalResponse response => t.complete response
  | .proceeding, .timerE => (t, [.sendFrame t.requestBytes, .startTimer .e t.timers.t2])
  | .proceeding, .timerF =>
    ({ t with state := .terminated }, [.cancelTimer .e, .timeout, .terminated])
  | .proceeding, .provisional response => (t, [.passToTu response])
  | .proceeding, .finalResponse response => t.complete response
  | .completed, .timerK => ({ t with state := .terminated }, [.terminated])
  | .completed, .finalResponse _ => (t, [])
  | _, _ => (t, [])

def giveUp (t : Nict) : Nict × List Action :=
  let t := { t with noResponse := .off }
  if t.state ≠ .trying then (t, [])
  else ({ t with state := .terminated },
    [.cancelTimer .e, .cancelTimer .f, .timeout, .terminated])

def process (t : Nict) (event : NictEvent) : Nict × List Action :=
  if t.noResponse ≠ .armed then t.advance event
  else
    match event with
    | .noResponse => t.giveUp
    | event =>
      let (t, actions) := t.advance event
      if t.state ≠ .trying then
        ({ t with noResponse := .off }, actions ++ [.cancelTimer .noResponse])
      else (t, actions)

end Nict

/-! ### INVITE client transaction -/

inductive IctState where
  | calling
  | proceeding
  | completed
  | terminated
deriving DecidableEq

inductive IctEvent where
  | timerA
  | timerB
  | timerC
  | timerD
  | provisional (response : SipMessage)
  | response2xx (response : SipMessage)
  | responseNon2xx (response : SipMessage)
  | noResponse

inductive CancelOutcome where
  | sendNow (cancel : BranchCancel)
  | deferred
  | nothingToSend
  | unbuildable (error : BuildError)

/-- How far a request to cancel an INVITE has come. -/
inductive CancelProgress where
  | notRequested
  | waiting (cancel : BranchCancel)
  | sent
deriving DecidableEq

inductive TimerCProgress where
  | idle
  | armed
  | expired
deriving DecidableEq

structure Ict where
  state : IctState
  transport : Transport
  timers : TimerConfig
  requestBytes : Bytes
  timerAInterval : Duration
  cachedAck : Option Bytes
  cancel : CancelProgress
  hop : Option BranchHop
  lastProgress : Option Instant
  timerC : TimerCProgress
  noResponse : NoResponseProgress

def cancelKeep : List Text :=
  ["via".toList, "from".toList, "to".toList, "call-id".toList, "cseq".toList,
    "max-forwards".toList, "route".toList, "content-length".toList]

def cseqNumber (m : SipMessage) : Option Text :=
  (m.headers.get "CSeq".toList).bind fun c => (Slice.words Text.isWhitespace c).head?

def buildCancel (invite : SipMessage) (reasons : List Text) : Option SipMessage :=
  match invite.startLine with
  | .response _ => none
  | .request line =>
    (cseqNumber invite).map fun seq =>
      let headers := invite.headers.set "CSeq".toList (seq ++ " CANCEL".toList)
      let headers := match (invite.headers.getAll "Via".toList).bind List.head? with
        | some top => headers.set "Via".toList top
        | none => headers
      let headers := headers.set "Content-Length".toList "0".toList
      let names := headers.headers.entries.map Prod.fst
      let headers := (names.filter fun n => !cancelKeep.contains n).foldl SipHeaders.remove headers
      let headers := reasons.foldl (fun h reason => h.add "Reason".toList reason) headers
      ⟨.request { line with method := .cancel }, headers, []⟩

namespace Ict

def new (requestBytes : Bytes) (transport : Transport) (timers : TimerConfig) :
    Ict × List Action :=
  (⟨.calling, transport, timers, requestBytes, timers.timerAInitial, none, .notRequested, none,
      none, .idle, .off⟩,
    [.sendFrame requestBytes, .startTimer .b timers.timerB]
      ++ match transport with
        | .udp => [.startTimer .a timers.timerAInitial]
        | .reliable => [])

/-- The value of a header, or why it is needed. -/
def required (value : Option Text) (missing : String) : Except BuildError Text :=
  match value with
  | some value => .ok value
  | none => .error (.message missing)

variable (t : Ict)

def buildAckForNon2xx (response : SipMessage) : Except BuildError SipMessage := do
  let request ← (parseSipMessageBytes t.requestBytes).mapError .doesNotParseBack
  let uri ← match request.startLine with
    | .request line => Except.ok line.requestUri
    | .response _ => .error (.message "ICT request is not a Request (never happens)")
  let via ← required (request.headers.get "Via".toList) "original INVITE missing Via header"
  let from' ← required (request.headers.get "From".toList) "original INVITE missing From header"
  let to' ← required
    ((response.headers.get "To".toList).or (request.headers.get "To".toList))
    "neither response nor INVITE has a To header"
  let callId ← required (request.headers.get "Call-ID".toList) "original INVITE missing Call-ID"
  let seq := (cseqNumber request).getD "1".toList
  let headers := SipHeaders.new.add "Via".toList via
  let headers := (headers.add "From".toList from').add "To".toList to'
  let headers := headers.add "Call-ID".toList callId
  let headers := headers.add "CSeq".toList (seq ++ " ACK".toList)
  let routes := (request.headers.getAll "Route".toList).getD []
  let headers := routes.foldl (fun h route => h.add "Route".toList route) headers
  let headers := headers.add "Max-Forwards".toList "70".toList
  return ⟨.request ⟨.ack, uri, .sip20⟩, headers.set "Content-Length".toList "0".toList, []⟩

def setHop (hop : BranchHop) : Ict :=
  { t with hop := some hop }

def setConnection (id : ConnectionId) : Ict :=
  { t with hop := t.hop.map fun hop => { hop with connectionId := id } }

/-- The CANCEL of the INVITE this transaction sent, for the hop it went to. -/
def buildBranchCancel (reasons : List Text) : Except BuildError BranchCancel := do
  let some hop := t.hop | .error (.message "no hop was recorded for the INVITE")
  let invite ← (parseSipMessageBytes t.requestBytes).mapError .doesNotParseBack
  let some cancel := buildCancel invite reasons
    | .error (.message "sent INVITE has no CSeq to cancel")
  return ⟨cancel.toBytes, hop⟩

def requestCancel (reasons : List Text) : Ict × CancelOutcome :=
  match t.state, t.cancel with
  | .calling, .notRequested =>
    match t.buildBranchCancel reasons with
    | .ok cancel => ({ t with cancel := .waiting cancel }, .deferred)
    | .error error => (t, .unbuildable error)
  | .calling, _ => (t, .deferred)
  | .proceeding, .notRequested =>
    match t.buildBranchCancel reasons with
    | .ok cancel => ({ t with cancel := .sent }, .sendNow cancel)
    | .error error => (t, .unbuildable error)
  | _, _ => (t, .nothingToSend)

variable (now : Instant)

/-- A provisional response other than 100 resets Timer C. -/
def noteProgress (t : Ict) (response : SipMessage) : Ict :=
  if response.statusCode.any fun code => 101 ≤ code && code < 200 then
    { t with lastProgress := some now }
  else t

/-- Timer C ran out: the CANCEL is sent, unless there was one, and the final response is given
another Timer B. -/
def expireTimerC : Ict × List Action :=
  let t := { t with timerC := .expired }
  let restart := [.startTimer .c t.timers.timerB]
  match t.cancel with
  | .notRequested =>
    match t.buildBranchCancel [] with
    | .ok cancel => ({ t with cancel := .sent }, .sendCancel cancel :: restart)
    | .error error =>
      (t, .protocolError "Timer C fired and the INVITE's CANCEL could not be built" error
        :: restart)
  | _ => (t, restart)

def timerCDue (t : Ict) : Ict × List Action :=
  match t.timerC with
  | .idle => (t, [])
  | .armed =>
    let deadline := t.lastProgress.getD now + t.timers.timerC
    let remaining := deadline - now
    if remaining ≠ 0 then (t, [.startTimer .c remaining]) else t.expireTimerC
  | .expired => ({ t with state := .terminated }, [.timeout, .terminated])

/-- Timer B found the INVITE in `Proceeding`: Timer C takes over. -/
def startTimerC (t : Ict) : Ict × List Action :=
  let progress := match t.lastProgress with
    | some progress => progress
    | none => (Instant.checkedSub now t.timers.timerB).getD now
  timerCDue now { t with lastProgress := some progress, timerC := .armed }

def stopTimerC : Ict × List Action :=
  if t.timerC ≠ .idle then ({ t with timerC := .idle }, [.cancelTimer .c]) else (t, [])

/-- The CANCEL that waited for a provisional response, if one did. -/
def releaseWaitingCancel : Ict × Option BranchCancel :=
  match t.cancel with
  | .waiting cancel => ({ t with cancel := .sent }, some cancel)
  | _ => (t, none)

/-- A CANCEL that is still waiting is never sent. -/
def dropWaitingCancel : Ict :=
  match t.cancel with
  | .waiting _ => { t with cancel := .notRequested }
  | _ => t

/-- The ACK of a non-2xx final response: it is kept and sent, or it is reported. -/
def ackNon2xx (response : SipMessage) : Ict × List Action :=
  match t.buildAckForNon2xx response with
  | .ok ack => ({ t with cachedAck := some ack.toBytes }, [.sendFrame ack.toBytes])
  | .error error => (t, [.protocolError "could not build ACK for non-2xx" error])

/-- The end of the wait for a non-2xx final response: Timer D is started, or the transaction ends
if it is zero. -/
def startTimerD : Ict × List Action :=
  let timerD := match t.transport with
    | .udp => TimerConfig.timerDUdp
    | .reliable => TimerConfig.timerDTcp
  if timerD = 0 then ({ t with state := .terminated }, [.terminated])
  else ({ t with state := .completed }, [.startTimer .d timerD])

/-- A non-2xx final response, for an INVITE that has none. -/
def completeNon2xx (response : SipMessage) : Ict × List Action :=
  let (t, ack) := t.ackNon2xx response
  let (t, stop) := match t.state with
    | .proceeding => t.stopTimerC
    | _ => (t.dropWaitingCancel, [])
  let (t, wait) := t.startTimerD
  (t, ack ++ [.cancelTimer .a, .cancelTimer .b, .passToTu response] ++ stop ++ wait)

/-- The no-response timer ran out with nothing back: the INVITE is abandoned, and its CANCEL is
kept for a provisional response that may still come. -/
def giveUpUnanswered : Ict × List Action :=
  if t.noResponse ≠ .armed then (t, [])
  else
    let t := { t with noResponse := .gaveUp }
    match t.cancel with
    | .notRequested =>
      match t.buildBranchCancel [] with
      | .ok cancel => ({ t with cancel := .waiting cancel }, [.cancelTimer .a, .timeout])
      | .error error =>
        (t, [.cancelTimer .a, .protocolError ("no response before the no-response timer, and the "
          ++ "INVITE's CANCEL could not be built for a late provisional") error, .timeout])
    | _ => (t, [.cancelTimer .a, .timeout])

/-- The machine without the no-response timer. -/
def advance (t : Ict) (event : IctEvent) : Ict × List Action :=
  match t.state, event with
  | .calling, .timerA =>
    let t := { t with timerAInterval := t.timers.nextRetransmit t.timerAInterval }
    (t, [.sendFrame t.requestBytes, .startTimer .a t.timerAInterval])
  | .calling, .timerB =>
    ({ t with state := .terminated }.dropWaitingCancel, [.cancelTimer .a, .timeout, .terminated])
  | .calling, .noResponse => t.giveUpUnanswered
  | .calling, .provisional response =>
    let (t, cancel) :=
      (noteProgress now { t with state := .proceeding } response).releaseWaitingCancel
    (t, [.cancelTimer .a, .passToTu response] ++ (cancel.map Action.sendCancel).toList)
  | .calling, .response2xx response =>
    ({ t with state := .terminated }.dropWaitingCancel,
      [.cancelTimer .a, .cancelTimer .b, .passToTu response, .terminated])
  | .calling, .responseNon2xx response => t.completeNon2xx response
  | .proceeding, .timerA => (t, [])
  | .proceeding, .provisional response => (noteProgress now t response, [.passToTu response])
  | .proceeding, .timerB => startTimerC now t
  | .proceeding, .timerC => timerCDue now t
  | .proceeding, .response2xx response =>
    let (t, stop) := { t with state := .terminated }.stopTimerC
    (t, [.cancelTimer .a, .cancelTimer .b, .passToTu response, .terminated] ++ stop)
  | .proceeding, .responseNon2xx response => t.completeNon2xx response
  | .completed, .responseNon2xx _ =>
    (t, match t.cachedAck with
      | some ack => [.sendFrame ack]
      | none => [])
  | .completed, .timerD => ({ t with state := .terminated }, [.terminated])
  | _, _ => (t, [])

def isPassToTu : Action → Bool
  | .passToTu _ => true
  | _ => false

/-- An INVITE the no-response timer gave up on. -/
def processGivenUp (t : Ict) (event : IctEvent) : Ict × List Action :=
  match t.state, event with
  | .calling, .timerB | .proceeding, .timerB =>
    ({ t with state := .terminated }.dropWaitingCancel, [.terminated])
  | .calling, .provisional _ =>
    let (t, cancel) := { t with state := .proceeding }.releaseWaitingCancel
    match cancel with
    | some cancel => (t, [.sendCancel cancel, .startTimer .b t.timers.timerB])
    | none => (t, [])
  | _, .timerA | _, .timerC | _, .noResponse | _, .provisional _ => (t, [])
  | _, .responseNon2xx response =>
    let (t, actions) := advance now t (.responseNon2xx response)
    (t, actions.filter fun action => !isPassToTu action)
  | _, event => advance now t event

def process (t : Ict) (event : IctEvent) : Ict × List Action :=
  match t.noResponse with
  | .off => advance now t event
  | .gaveUp => processGivenUp now t event
  | .armed =>
    let (t, actions) := advance now t event
    if t.noResponse = .armed ∧ t.state ≠ .calling then
      ({ t with noResponse := .off }, actions ++ [.cancelTimer .noResponse])
    else (t, actions)

/-- Give the INVITE a bound on drawing any response at all. -/
def armNoResponse (after : Duration) : Ict × Option Action :=
  if t.state ≠ .calling ∨ t.noResponse ≠ .off then (t, none)
  else ({ t with noResponse := .armed }, some (.startTimer .noResponse after))

/-- Stop the no-response timer because the INVITE is cancelled anyway; whether it was running. -/
def disarmNoResponse : Ict × Bool :=
  if t.noResponse ≠ .armed then (t, false) else ({ t with noResponse := .off }, true)

def gaveUp : Bool :=
  t.noResponse == .gaveUp

end Ict

end Siphon.Transaction
