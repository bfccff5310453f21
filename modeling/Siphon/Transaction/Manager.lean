import Siphon.Transaction.Client

/-!
# The transaction manager

All transactions are kept in one map, by a key that is taken from the message: the branch and the
sent-by of its topmost Via, and its method.  A call that ends a transaction removes it in a second
step, after it has let go of the entry.
-/

namespace Siphon.Transaction

/-! ### Keys -/

structure TransactionKey where
  branch : Text
  method : Method
  sentBy : Text
deriving DecidableEq

namespace TransactionKey

/-- The key of a branch, a method and a sent-by; an ACK has the key of its INVITE. -/
def new (branch : Text) (method : Method) (sentBy : Text) : TransactionKey where
  branch := branch
  method :=
    match method with
    | .ack => .invite
    | other => other
  sentBy := sentBy

def formatSentBy (host : Text) (port : Option ℕ) : Text :=
  match port with
  | some port => host ++ ':' :: Decimal.display port
  | none => host

end TransactionKey

inductive ManagerError where
  | message (text : String)
  | value (error : ValueError)
  /-- `a client transaction already exists for … — refusing to replace it` -/
  | exists (key : TransactionKey)

/-! ### Transactions -/

inductive AnyTransaction where
  | ict (t : Ict)
  | nict (t : Nict)
  | ist (t : Ist)
  | nist (t : Nist)

inductive ServerEvent where
  | ist (event : IstEvent)
  | nist (event : NistEvent)

inductive ClientEvent where
  | ict (event : IctEvent)
  | nict (event : NictEvent)

structure ServerTransactionOutcome where
  key : TransactionKey
  actions : List Action
  isNew : Bool

structure TransactionManager where
  transactions : IndexMap TransactionKey AnyTransaction
  timers : TimerConfig

namespace TransactionManager

def new (timers : TimerConfig) : TransactionManager :=
  ⟨IndexMap.empty, timers⟩

variable (m : TransactionManager) (key : TransactionKey)

def contains : Bool :=
  (m.transactions.get? key).isSome

def put (t : AnyTransaction) : TransactionManager :=
  { m with transactions := m.transactions.insert key t }

def remove : TransactionManager :=
  { m with transactions := m.transactions.shiftRemove key }

@[simp] theorem get?_put (key k : TransactionKey) (t : AnyTransaction) :
  (m.put key t).transactions.get? k = if k = key then some t else m.transactions.get? k
  := IndexMap.get?_insert _ _ _ _

@[simp] theorem get?_remove (key k : TransactionKey) :
  (m.remove key).transactions.get? k = if k = key then none else m.transactions.get? k
  := IndexMap.get?_shiftRemove _ _ _

/-- What a call does with the entry of a key while it holds it: the transaction becomes another and
actions come of it, or nothing is done. -/
def update (f : AnyTransaction → Option (AnyTransaction × List Action)) :
    TransactionManager × Option (List Action) :=
  match m.transactions.get? key with
  | none => (m, none)
  | some t =>
    match f t with
    | none => (m, none)
    | some (t, actions) => (m.put key t, some actions)

/-- Put back an INVITE client transaction that was given up on; a key that has been taken again
meanwhile keeps what it has. -/
def restoreGivenUp (t : AnyTransaction) : TransactionManager :=
  if m.contains key then m else m.put key t

section

variable [StdText]

/-- The method of a message; that of a response is in its `CSeq`. -/
def messageMethod (message : SipMessage) : Except ManagerError Method := do
  match message.startLine with
  | .request line => return line.method
  | .response _ =>
    let some cseq := message.headers.get "CSeq".toList
      | .error (.message "response has no CSeq header")
    let cseq ← (CSeq.parse cseq).mapError .value
    return cseq.method

def keyFromMessage (message : SipMessage) : Except ManagerError TransactionKey := do
  let some via := (message.headers.get "Via".toList).or (message.headers.get "v".toList)
    | .error (.message "message has no Via header")
  let vias ← (Via.parseMulti via).mapError .value
  let some top := vias.head? | .error (.message "Via header is empty")
  let some branch := top.branch | .error (.message "topmost Via has no branch parameter")
  let method ← messageMethod message
  return TransactionKey.new branch method (TransactionKey.formatSentBy top.host top.port)

def newServerTransaction (request : SipMessage) (transport : Transport) :
    Except ManagerError (TransactionManager × ServerTransactionOutcome) := do
  let key ← keyFromMessage request
  let some method := request.method | .error (.message "expected a request")
  let create (t : AnyTransaction) (actions : List Action) :
      TransactionManager × ServerTransactionOutcome :=
    if m.contains key then (m, ⟨key, [], false⟩) else (m.put key t, ⟨key, actions, true⟩)
  match method with
  | .invite => return create (.ist (Ist.new transport m.timers)) [.passToTu request]
  | .ack => return (m, ⟨key, [], true⟩)
  | _ =>
    let (nist, actions) := Nist.new request transport m.timers
    return create (.nist nist) (actions ++ [.passToTu request])

def newClientTransaction (request : SipMessage) (wire : Bytes) (transport : Transport) :
    Except ManagerError (TransactionManager × TransactionKey × List Action) := do
  let key ← keyFromMessage request
  let create (t : AnyTransaction) (actions : List Action) :=
    if m.contains key then Except.error (ManagerError.exists key)
    else .ok (m.put key t, key, actions)
  match request.method with
  | some .invite =>
    let (ict, actions) := Ict.new wire transport m.timers
    create (.ict ict) actions
  | some .ack => .error (.message "ACK does not create a client transaction")
  | _ =>
    let (nict, actions) := Nict.new wire transport m.timers
    create (.nict nict) actions

end

end TransactionManager

/-! ### What a call does to the transaction it finds -/

namespace AnyTransaction

variable [StdText]

def onAck (fresh : Text) (request : SipMessage) (t : AnyTransaction) :
    Option (AnyTransaction × List Action) :=
  match t with
  | .ist t => some ((t.process fresh (.ackReceived request)).map .ist id)
  | _ => none

/-- A request that is sent again, for a server transaction. -/
def onRetransmit (fresh : Text) (request : SipMessage) (t : AnyTransaction) :
    Option (AnyTransaction × List Action) :=
  match t with
  | .ist t => some ((t.process fresh (.inviteRetransmit request)).map .ist id)
  | .nist t => some ((t.process fresh (.requestRetransmit request)).map .nist id)
  | _ => none

def onServerEvent (fresh : Text) (event : ServerEvent) (t : AnyTransaction) :
    Option (AnyTransaction × List Action) :=
  match t, event with
  | .ist t, .ist event => some ((t.process fresh event).map .ist id)
  | .nist t, .nist event => some ((t.process fresh event).map .nist id)
  | _, _ => none

def onClientEvent (now : Instant) (event : ClientEvent) (t : AnyTransaction) :
    Option (AnyTransaction × List Action) :=
  match t, event with
  | .ict t, .ict event => some ((Ict.process now t event).map .ict id)
  | .nict t, .nict event => some ((t.process event).map .nict id)
  | _, _ => none

end AnyTransaction

namespace TransactionManager

variable [StdText] (m : TransactionManager) (key : TransactionKey)

def cancelInviteClient (reasons : List Text) :
    TransactionManager × CancelOutcome :=
  match m.transactions.get? key with
  | some (.ict t) => (m.put key (.ict (t.requestCancel reasons).1), (t.requestCancel reasons).2)
  | _ => (m, .nothingToSend)

/-- Bound how long a client transaction waits for its first response. -/
def armNoResponse (after : Duration) : TransactionManager × Option Action :=
  match m.transactions.get? key with
  | some (.ict t) => (m.put key (.ict (t.armNoResponse after).1), (t.armNoResponse after).2)
  | some (.nict t) => (m.put key (.nict (t.armNoResponse after).1), (t.armNoResponse after).2)
  | _ => (m, none)

/-- Stop the no-response timer of an INVITE client transaction; whether it was running. -/
def disarmNoResponse : TransactionManager × Bool :=
  match m.transactions.get? key with
  | some (.ict t) => (m.put key (.ict t.disarmNoResponse.1), t.disarmNoResponse.2)
  | _ => (m, false)

def setClientHop (hop : BranchHop) : TransactionManager :=
  match m.transactions.get? key with
  | some (.ict t) => m.put key (.ict (t.setHop hop))
  | _ => m

def setClientConnection (id : ConnectionId) : TransactionManager :=
  match m.transactions.get? key with
  | some (.ict t) => m.put key (.ict (t.setConnection id))
  | _ => m

end TransactionManager

end Siphon.Transaction
