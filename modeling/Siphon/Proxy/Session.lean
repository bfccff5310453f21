import Siphon.Library.Run
import Siphon.Transaction.Manager

/-!
# The proxy session store

A session links the server transaction of a request to the client transactions it was relayed
with.  Sessions are shared and changed in place, and the store finds them by client key, by server
key and by dialog key; so a session is known by a reference, and the store's state holds what the
references stand for.
-/

namespace Siphon.Proxy

open Siphon.Transaction (TransactionKey Instant Duration)

/-! ### Sessions -/

/-- Downstream destination info for a single client transaction branch. -/
structure ClientBranch where
  destination : SocketAddr
  transport : Transport
  connectionId : ConnectionId
  flowRequestUri : Option SipUri

/-- A session linking an inbound transaction to one or more outbound ones. -/
structure ProxySession where
  serverKey : TransactionKey
  clientKeys : List TransactionKey
  originalRequest : SipMessage
  clientBranches : IndexMap TransactionKey ClientBranch
  branchIndexMap : IndexMap TransactionKey ℕ
  createdAt : Instant
  ackedAt : Option Instant

namespace ProxySession

def new (now : Instant) (serverKey : TransactionKey) (originalRequest : SipMessage) :
    ProxySession :=
  ⟨serverKey, [], originalRequest, IndexMap.empty, IndexMap.empty, now, none⟩

variable (session : ProxySession)

def addClientKey (key : TransactionKey) : ProxySession :=
  { session with clientKeys := session.clientKeys ++ [key] }

/-- Register downstream destination info for a client branch. -/
def setClientBranch (key : TransactionKey) (branch : ClientBranch) :
    ProxySession :=
  { session with clientBranches := session.clientBranches.insert key branch }

/-- Whether a branch is still owed its final response. -/
def awaits (pending : TransactionKey → Bool) : Bool :=
  session.clientKeys.any pending

/-- Whether the session is older than `ttl` with no branch pending. -/
def isStale (now : Instant) (ttl : Duration)
    (pending : TransactionKey → Bool) : Bool :=
  decide (ttl < now - session.createdAt) && !session.awaits pending

/-- Whether the dialog-key entry of the session has aged out: its window is `ackGrace` from the
ACK on, once that has been routed, and `ttl` before. -/
def dialogIsStale (now : Instant) (ttl ackGrace : Duration)
    (pending : TransactionKey → Bool) : Bool :=
  let (since, limit) := match session.ackedAt with
    | some acked => (acked, ackGrace)
    | none => (session.createdAt, ttl)
  decide (limit < now - since) && !session.awaits pending

end ProxySession

/-- A 2xx to an INVITE as the proxy forwarded it upstream. -/
structure ForwardedAnswer where
  branch : Text
  message : SipMessage
  destination : SocketAddr
  transport : Transport
  connectionId : ConnectionId
  sourceLocalAddr : Option SocketAddr
  forwardedAt : Instant

/-- How long a forwarded 2xx is kept for its retransmissions. -/
def forwardedAnswerLifetime : Duration := Duration.fromSecs 32

/-- How long a late dialog nobody ended stays recorded. -/
def lateDialogBackstop : Duration := Duration.fromSecs (24 * 3600)

/-! ### The keys of a message -/

section

variable [StdText]

def tagOf (addr : Except ValueError (Option NameAddr)) : Option Text :=
  addr.toOption.join.bind NameAddr.tag

variable (message : SipMessage)

def dialogKeyFromMessage : Option Text := do
  let callId ← message.headers.get "Call-ID".toList
  let fromTag ← tagOf message.typedFrom
  return callId ++ '\x00' :: fromTag

def inviteDialogKey : Option Text :=
  if message.method = some .invite then dialogKeyFromMessage message else none

/-- Call-ID, From tag and To tag, the tags swapped when `reversed`. -/
def fullDialogKey (reversed : Bool) : Option Text := do
  let callId ← message.headers.get "Call-ID".toList
  let fromTag ← tagOf message.typedFrom
  let toTag ← tagOf message.typedTo
  return if reversed then callId ++ '\x00' :: toTag ++ '\x00' :: fromTag
    else callId ++ '\x00' :: fromTag ++ '\x00' :: toTag

/-- The key of the 2xx `message` answers, or of the ACK it is for. -/
def answerKey : Option Text := do
  let dialog ← fullDialogKey message false
  let cseq ← message.headers.get "CSeq".toList
  let number ← (Slice.words Text.isWhitespace cseq).head?
  return dialog ++ '\x00' :: number

/-! ### The store -/

abbrev SessionRef : Type := ℕ

/-- The store of proxy sessions.  `sessions` is what the references stand for, in the order the
sessions were made. -/
structure ProxySessionStore where
  sessions : List ProxySession
  byClientKey : IndexMap TransactionKey SessionRef
  serverToClients : IndexMap TransactionKey (List TransactionKey)
  byDialogKey : IndexMap Text SessionRef
  lateDialogs : IndexMap Text Instant
  lateDialogTotal : ℕ
  forwardedAnswers : IndexMap Text ForwardedAnswer
  forwardedAnswerTotal : ℕ

def pushNew (keys : List TransactionKey) (key : TransactionKey) : List TransactionKey :=
  if keys.contains key then keys else keys ++ [key]

namespace ProxySessionStore

def new : ProxySessionStore :=
  ⟨[], IndexMap.empty, IndexMap.empty, IndexMap.empty, IndexMap.empty, 0, IndexMap.empty, 0⟩

variable (s : ProxySessionStore) (ref : SessionRef)

def session? : Option ProxySession :=
  s.sessions[ref]?

def serverKey? : Option TransactionKey :=
  (s.session? ref).map ProxySession.serverKey

def dialogKey? : Option Text :=
  (s.session? ref).bind fun session => inviteDialogKey session.originalRequest

def write (f : ProxySession → ProxySession) : ProxySessionStore :=
  { s with sessions := s.sessions.modify ref f }

/-- The dialog-key entries with the dialog of `request` led to a session, unless it is led to one
already. -/
def recordDialog (request : SipMessage) (ref : SessionRef) : IndexMap Text SessionRef :=
  match inviteDialogKey request with
  | some dialogKey => s.byDialogKey.orInsert dialogKey ref
  | none => s.byDialogKey

/-- Map a client key to a session and list it under a server key. -/
def link (serverKey clientKey : TransactionKey) (ref : SessionRef) : ProxySessionStore :=
  { s with
    byClientKey := s.byClientKey.insert clientKey ref
    serverToClients := s.serverToClients.upsert serverKey [clientKey] (pushNew · clientKey) }

/-- Insert a session, indexing it by all its client keys, server key and dialog key. -/
def insert (session : ProxySession) : ProxySessionStore × SessionRef :=
  let ref := s.sessions.length
  ({ s with
    sessions := s.sessions ++ [session]
    byClientKey := s.byClientKey.insertAll session.clientKeys ref
    byDialogKey := s.recordDialog session.originalRequest ref
    serverToClients := s.serverToClients.upsert session.serverKey session.clientKeys
      (session.clientKeys.foldl pushNew) }, ref)

def insertForFork (session : ProxySession) : ProxySessionStore × SessionRef :=
  let ref := s.sessions.length
  ({ s with
    sessions := s.sessions ++ [session]
    byDialogKey := s.recordDialog session.originalRequest ref
    serverToClients := s.serverToClients.orInsert session.serverKey [] }, ref)

def registerForkBranch (ref : SessionRef) (serverKey clientKey : TransactionKey)
    (branch : ClientBranch) (branchIndex : ℕ) : ProxySessionStore :=
  let s := s.write ref fun session =>
    let session := (session.addClientKey clientKey).setClientBranch clientKey branch
    { session with branchIndexMap := session.branchIndexMap.insert clientKey branchIndex }
  s.link serverKey clientKey ref

def updateBranchConnectionId (clientKey : TransactionKey) (connectionId : ConnectionId) :
    ProxySessionStore :=
  match s.byClientKey.get? clientKey with
  | some ref =>
    s.write ref fun session =>
      match session.clientBranches.get? clientKey with
      | some branch =>
        session.setClientBranch clientKey { branch with connectionId := connectionId }
      | none => session
  | none => s

/-- The session of the first client key listed under a server key. -/
def getByServerKey (serverKey : TransactionKey) : Option SessionRef := do
  let clientKeys ← s.serverToClients.get? serverKey
  let first ← clientKeys.head?
  s.byClientKey.get? first

/-- Add a client key to the session of a server key; `false` if there is none. -/
def addClientKey (serverKey clientKey : TransactionKey) : ProxySessionStore × Bool :=
  match s.getByServerKey serverKey with
  | some ref =>
    ((s.write ref (·.addClientKey clientKey)).link serverKey clientKey ref, true)
  | none => (s, false)

/-- The dialog-key entries without that of a session, if the entry of its dialog is its own. -/
def dropDialog (ref : SessionRef) : IndexMap Text SessionRef :=
  match s.dialogKey? ref with
  | some dialogKey =>
    if s.byDialogKey.get? dialogKey = some ref then s.byDialogKey.shiftRemove dialogKey
    else s.byDialogKey
  | none => s.byDialogKey

/-- Remove a session by its server key.  The dialog-key entry goes if it is that of the session
the first client key leads to. -/
def removeByServerKey (serverKey : TransactionKey) : ProxySessionStore :=
  match s.serverToClients.get? serverKey with
  | some clientKeys =>
    { s with
      serverToClients := s.serverToClients.shiftRemove serverKey
      byDialogKey :=
        match s.getByServerKey serverKey with
        | some ref => s.dropDialog ref
        | none => s.byDialogKey
      byClientKey := s.byClientKey.removeAll clientKeys }
  | none => s

/-- Drop the dialog-key entry of a request's dialog, whichever session it leads to. -/
def removeDialogKey (request : SipMessage) : ProxySessionStore :=
  match inviteDialogKey request with
  | some dialogKey => { s with byDialogKey := s.byDialogKey.shiftRemove dialogKey }
  | none => s

variable (now : Instant)

/-- Make a session's dialog routable again for the ACK of a late 2xx. -/
def keepDialogForLateAnswer (ref : SessionRef) : ProxySessionStore :=
  match s.session? ref with
  | some session =>
    { s.write ref fun session => { session with ackedAt := none, createdAt := now } with
      byDialogKey := s.recordDialog session.originalRequest ref }
  | none => s

/-- The lists of client keys without one under a server key; a list left empty goes. -/
def unlist (serverKey clientKey : TransactionKey) : IndexMap TransactionKey (List TransactionKey) :=
  match s.serverToClients.get? serverKey with
  | some keys =>
    let keys := keys.filter (· ≠ clientKey)
    if keys.isEmpty then s.serverToClients.shiftRemove serverKey
    else s.serverToClients.insert serverKey keys
  | none => s.serverToClients

/-- Remove a single client key; `false` if no session has it. -/
def removeClientKey (clientKey : TransactionKey) : ProxySessionStore × Bool :=
  match s.byClientKey.get? clientKey with
  | some ref =>
    ({ s with
      byClientKey := s.byClientKey.shiftRemove clientKey
      serverToClients :=
        match s.serverKey? ref with
        | some serverKey => s.unlist serverKey clientKey
        | none => s.serverToClients }, true)
  | none => (s, false)

/-- Mark that the ACK of the 2xx has been routed; a repeated one keeps the first stamp. -/
def markDialogAcked (ref : SessionRef) : ProxySessionStore :=
  s.write ref fun session =>
    if session.ackedAt.isNone then { session with ackedAt := some now } else session

/-- Keep the dialog-key entry of an answered session for a transaction's length from now. -/
def keepDialogForAnswer (staleAfter : Duration) (ref : SessionRef) :
    ProxySessionStore :=
  s.write ref fun session =>
    if staleAfter < now - session.createdAt then { session with createdAt := now } else session

/-! ### Late dialogs and forwarded answers -/

def noteLateDialog (response : SipMessage) : ProxySessionStore :=
  match fullDialogKey response false with
  | some key =>
    { s with
      lateDialogs := s.lateDialogs.insert key now
      lateDialogTotal :=
        if (s.lateDialogs.get? key).isNone then s.lateDialogTotal + 1 else s.lateDialogTotal }
  | none => s

/-- Forget the late dialog of a key; `none` if there is none. -/
def forgetLateDialog (key : Text) : Option ProxySessionStore :=
  if (s.lateDialogs.get? key).isSome then
    some { s with
      lateDialogs := s.lateDialogs.shiftRemove key
      lateDialogTotal := s.lateDialogTotal - 1 }
  else none

/-- Whether `bye` ends a recorded late dialog, from either side, forgetting it if so. -/
def takeLateDialog (bye : SipMessage) : ProxySessionStore × Bool :=
  if s.lateDialogTotal = 0 then (s, false)
  else
    match (fullDialogKey bye false).bind s.forgetLateDialog with
    | some s => (s, true)
    | none =>
      match (fullDialogKey bye true).bind s.forgetLateDialog with
      | some s => (s, true)
      | none => (s, false)

def sweepLateDialogs (backstop : Duration) : ProxySessionStore :=
  if s.lateDialogTotal = 0 then s
  else
    let kept := s.lateDialogs.retain fun opened => decide (now - opened ≤ backstop)
    { s with
      lateDialogs := kept
      lateDialogTotal :=
        s.lateDialogTotal - (s.lateDialogs.entries.length - kept.entries.length) }

/-- Record a 2xx to an INVITE as it was forwarded upstream. -/
def noteForwardedAnswer (answer : ForwardedAnswer) : ProxySessionStore :=
  match answerKey answer.message with
  | some key =>
    { s with
      forwardedAnswers := s.forwardedAnswers.insert key answer
      forwardedAnswerTotal :=
        if (s.forwardedAnswers.get? key).isNone then s.forwardedAnswerTotal + 1
        else s.forwardedAnswerTotal }
  | none => s

/-- The forwarded 2xx `response` is a retransmission of. -/
def forwardedAnswer (response : SipMessage) : Option ForwardedAnswer :=
  if s.forwardedAnswerTotal = 0 then none
  else do
    let key ← answerKey response
    let answer ← s.forwardedAnswers.get? key
    if now - answer.forwardedAt ≤ forwardedAnswerLifetime then some answer else none

def forgetForwardedAnswer (ack : SipMessage) : ProxySessionStore :=
  if s.forwardedAnswerTotal = 0 then s
  else
    match answerKey ack with
    | some key =>
      if (s.forwardedAnswers.get? key).isSome then
        { s with
          forwardedAnswers := s.forwardedAnswers.shiftRemove key
          forwardedAnswerTotal := s.forwardedAnswerTotal - 1 }
      else s
    | none => s

/-- Forget the forwarded 2xx responses older than `lifetime` at `now`. -/
def sweepForwardedAnswers (lifetime : Duration) : ProxySessionStore :=
  if s.forwardedAnswerTotal = 0 then s
  else
    let kept := s.forwardedAnswers.retain fun answer =>
      decide (now - answer.forwardedAt ≤ lifetime)
    { s with
      forwardedAnswers := kept
      forwardedAnswerTotal :=
        s.forwardedAnswerTotal - (s.forwardedAnswers.entries.length - kept.entries.length) }

/-! ### The sweep -/

/-- The server keys of the stale sessions that a client key leads to, each once. -/
def staleServerKeys (ttl : Duration) (pending : TransactionKey → Bool) :
    List TransactionKey :=
  (s.byClientKey.entries.filterMap fun entry =>
    (s.session? entry.2).bind fun session =>
      if session.isStale now ttl pending then some session.serverKey else none).foldl pushNew []

def staleDialogKeys (ttl ackGrace : Duration) (pending : TransactionKey → Bool) :
    List Text :=
  (s.byDialogKey.entries.filter fun entry =>
    match s.session? entry.2 with
    | some session => session.dialogIsStale now ttl ackGrace pending
    | none => false).map Prod.fst

/-- Sweep the sessions older than `ttl` that have no branch pending, and the aged-out dialog-key
entries, returning the number removed. -/
def sweepInner (ttl ackGrace : Duration) (pending : TransactionKey → Bool) :
    ProxySessionStore × ℕ :=
  let serverKeys := s.staleServerKeys now ttl pending
  let s := serverKeys.foldl removeByServerKey s
  let dialogKeys := s.staleDialogKeys now ttl ackGrace pending
  let s := { s with byDialogKey := s.byDialogKey.removeAll dialogKeys }
  let s := s.sweepLateDialogs now lateDialogBackstop
  let s := s.sweepForwardedAnswers now forwardedAnswerLifetime
  (s, serverKeys.length + dialogKeys.length)

end ProxySessionStore

/-! ### Operations -/

inductive StoreOp where
  | insert (session : ProxySession)
  | insertForFork (session : ProxySession)
  | registerForkBranch (ref : SessionRef) (serverKey clientKey : TransactionKey)
      (branch : ClientBranch) (branchIndex : ℕ)
  | updateBranchConnectionId (clientKey : TransactionKey) (connectionId : ConnectionId)
  | addClientKey (serverKey clientKey : TransactionKey)
  | removeByServerKey (serverKey : TransactionKey)
  | removeDialogKey (request : SipMessage)
  | keepDialogForLateAnswer (now : Instant) (ref : SessionRef)
  | removeClientKey (clientKey : TransactionKey)
  | markDialogAcked (now : Instant) (ref : SessionRef)
  | keepDialogForAnswer (now : Instant) (staleAfter : Duration) (ref : SessionRef)
  | sweep (now : Instant) (ttl ackGrace : Duration) (pending : TransactionKey → Bool)
  | noteLateDialog (now : Instant) (response : SipMessage)
  | takeLateDialog (bye : SipMessage)
  | noteForwardedAnswer (answer : ForwardedAnswer)
  | forgetForwardedAnswer (ack : SipMessage)

namespace ProxySessionStore

/-- The store after a call.  A reference that no insertion returned does not occur; a call with
one does nothing. -/
def step (s : ProxySessionStore) : StoreOp → ProxySessionStore
  | .insert session => (s.insert session).1
  | .insertForFork session => (s.insertForFork session).1
  | .registerForkBranch ref serverKey clientKey branch branchIndex =>
    if ref < s.sessions.length then
      s.registerForkBranch ref serverKey clientKey branch branchIndex
    else s
  | .updateBranchConnectionId clientKey connectionId =>
    s.updateBranchConnectionId clientKey connectionId
  | .addClientKey serverKey clientKey => (s.addClientKey serverKey clientKey).1
  | .removeByServerKey serverKey => s.removeByServerKey serverKey
  | .removeDialogKey request => s.removeDialogKey request
  | .keepDialogForLateAnswer now ref => s.keepDialogForLateAnswer now ref
  | .removeClientKey clientKey => (s.removeClientKey clientKey).1
  | .markDialogAcked now ref => s.markDialogAcked now ref
  | .keepDialogForAnswer now staleAfter ref => s.keepDialogForAnswer now staleAfter ref
  | .sweep now ttl ackGrace pending => (s.sweepInner now ttl ackGrace pending).1
  | .noteLateDialog now response => s.noteLateDialog now response
  | .takeLateDialog bye => (s.takeLateDialog bye).1
  | .noteForwardedAnswer answer => s.noteForwardedAnswer answer
  | .forgetForwardedAnswer ack => s.forgetForwardedAnswer ack

end ProxySessionStore

end

end Siphon.Proxy
