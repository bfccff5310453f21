import Siphon.Library.Threads
import Siphon.Security.SignalSteps

/-!
# Connections of banned sources

Every connection is registered for its lifetime with a handle that ends it.  A signal that bans a
source inserts the ban and then closes what the source holds open; a connection that a peer opened
is registered and then reads whether its source is banned.  Each of these is a step of its own.
-/

namespace Siphon.Transport

open Security

/-- The handle of a connection: nothing, a signal that is stored, its task waiting, or its task
woken by a signal. -/
inductive Notify where
  | idle
  | stored
  | waiting
  | woken

/-- `Notify::notify_one` stores the signal if nothing waits for it. -/
def Notify.notifyOne : Notify → Notify
  | .idle => .stored
  | .stored => .stored
  | .waiting => .woken
  | .woken => .woken

def Notify.set : Notify → Bool
  | .stored | .woken => true
  | .idle | .waiting => false

structure LiveConnection where
  peer : SocketAddr
  inbound : Bool
  close : Notify

/-- What connections and signals share. -/
structure Connections where
  bans : Bans
  live : IndexMap ConnectionId LiveConnection
  nextId : ℕ

def Connections.new : Connections :=
  ⟨.new, .empty, 0⟩

def closeBannedSource (source : IpAddr) (live : IndexMap ConnectionId LiveConnection) :
    IndexMap ConnectionId LiveConnection :=
  live.mapValues fun connection =>
    if connection.inbound ∧ connection.peer.ip = source then
      { connection with close := connection.close.notifyOne }
    else connection

structure Registered where
  id : ConnectionId
  peer : SocketAddr
  inbound : Bool

/-- Why a connection is not served any more: its source was banned before it was, it heard the
signal to close, or it came to its own end. -/
inductive Leaving where
  | refused
  | closed
  | ended

inductive ServePhase where
  | signal (signal : AbuseSignal) (stage : SignalStage)
  | registering (peer : SocketAddr) (inbound : Bool)
  /-- About to read whether the source is banned. -/
  | rereading (connection : Registered)
  /-- Served, and not waiting for the signal yet. -/
  | serving (connection : Registered)
  | waiting (connection : Registered)
  /-- About to leave the registry. -/
  | leaving (connection : Registered) (why : Leaving)
  | left (peer : SocketAddr) (why : Leaving)

/-- A signal of abuse, or a connection, opened by the peer or to it. -/
inductive ServeCall where
  | signal (signal : AbuseSignal)
  | serve (peer : SocketAddr) (inbound : Bool)

def ServeCall.start : ServeCall → ServePhase
  | .signal received => .signal received .checking
  | .serve peer inbound => .registering peer inbound

/-- What makes a connection go on: a reading of the clock, and whether it comes to its own end. -/
structure ServeMove where
  now : ℕ
  ends : Bool

/-- The first wait for the signal: it is heard at once if it is stored. -/
def firstWait (connections : Connections) (connection : Registered) : Connections × ServePhase :=
  if (connections.live.get? connection.id).any fun entry => entry.close.set then
    (connections, .leaving connection .closed)
  else
    ({ connections with
        live := connections.live.modify connection.id fun entry =>
          { entry with close := .waiting } },
      .waiting connection)

/-- The next step, under a policy and a set of trusted sources that stay as they are. -/
def Connections.access (policy : BanPolicy) (trusted : IpAddr → Bool) (connections : Connections)
    (move : ServeMove) : ServePhase → Connections × ServePhase × List Empty
  | .signal signal .closing =>
    ({ connections with live := closeBannedSource signal.source connections.live },
      .signal signal .done, [])
  | .signal signal stage =>
    let (bans, stage) := signal.access policy trusted connections.bans stage
    ({ connections with bans := bans }, .signal signal stage, [])
  | .registering peer inbound =>
    let connection := ⟨⟨connections.nextId⟩, peer, inbound⟩
    ({ connections with
        live := connections.live.insert connection.id ⟨peer, inbound, .idle⟩
        nextId := connections.nextId + 1 },
      -- the outbound pool serves what it opened without asking for bans
      if inbound then .rereading connection else .serving connection, [])
  | .rereading connection =>
    let (store, banned) :=
      connections.bans.store.isBannedAt connection.peer.ip move.now trusted
    ({ connections with bans := { connections.bans with store := store } },
      if banned then .leaving connection .refused else .serving connection, [])
  | .serving connection =>
    if move.ends then
      (connections, .leaving connection .ended, [])
    else
      let (connections, phase) := firstWait connections connection
      (connections, phase, [])
  | .waiting connection =>
    if move.ends then
      (connections, .leaving connection .ended, [])
    else if (connections.live.get? connection.id).any fun entry => entry.close.set then
      (connections, .leaving connection .closed, [])
    else
      (connections, .waiting connection, [])
  | .leaving connection why =>
    ({ connections with live := connections.live.shiftRemove connection.id },
      .left connection.peer why, [])
  | .left peer why => (connections, .left peer why, [])

def serveThreads (policy : BanPolicy) (trusted : IpAddr → Bool) :
    Threads Connections ServeCall ServePhase ServeMove Empty where
  start := ServeCall.start
  access := Connections.access policy trusted

end Siphon.Transport
