import Siphon.Library.IndexMap
import Siphon.Library.Holdings
import Siphon.Transport.Address

/-!
# The connection limiter

Inbound connections are counted in total and per source, once as connections and once as handshakes
in flight.  Every update of a counter and every step on a map of sources is atomic, and they
interleave with those of other connections.
-/

namespace Siphon.Security

/-- The ceilings; zero means there is none. -/
structure ConnectionLimits where
  maxHandshakes : ℕ
  maxHandshakesPerSource : ℕ
  maxConnections : ℕ
  maxConnectionsPerSource : ℕ

inductive RefusedReason where
  | handshakes
  | handshakesPerSource
  | connections
  | connectionsPerSource

structure ConnectionLimiter where
  handshakes : IndexMap IpAddr ℕ
  connections : IndexMap IpAddr ℕ
  handshakesTotal : ℕ
  connectionsTotal : ℕ

def ConnectionLimiter.new : ConnectionLimiter where
  handshakes := .empty
  connections := .empty
  handshakesTotal := 0
  connectionsTotal := 0

/-! ### Slots of one counter -/

variable (map : IndexMap IpAddr ℕ)

def takePerSource (source : IpAddr) (limit : ℕ) :
    IndexMap IpAddr ℕ × Bool :=
  if limit = 0 then
    (map, true)
  else
    let map := map.orInsert source 0
    if limit ≤ (map.get? source).getD 0 then
      (map, false)
    else
      (map.modify source (· + 1), true)

/-- Decrement the count of the source, and say whether it is zero now. -/
def decrementPerSource (source : IpAddr) : IndexMap IpAddr ℕ × Bool :=
  match map.get? source with
  | some entry => (map.modify source (· - 1), entry - 1 = 0)
  | none => (map, false)

def removeIfZero (source : IpAddr) : IndexMap IpAddr ℕ :=
  if map.get? source = some 0 then map.shiftRemove source else map

/-- Without a ceiling the counter is a `fetch_add`, which wraps. -/
def takeGlobal (counter limit : ℕ) : ℕ × Bool :=
  if limit = 0 then
    ((counter + 1) % 2 ^ 32, true)
  else if counter < limit then
    (counter + 1, true)
  else
    (counter, false)

def releaseGlobal (counter : ℕ) : ℕ :=
  counter - 1

/-! ### Slots of the limiter -/

inductive ConnectionSlot where
  | connections
  | connectionsOf (source : IpAddr)
  | handshakes
  | handshakesOf (source : IpAddr)
deriving DecidableEq

def ConnectionLimits.limit (limits : ConnectionLimits) : ConnectionSlot → ℕ
  | .connections => limits.maxConnections
  | .connectionsOf _ => limits.maxConnectionsPerSource
  | .handshakes => limits.maxHandshakes
  | .handshakesOf _ => limits.maxHandshakesPerSource

/-- Whether a slot is counted: a total always is, a source only under a ceiling. -/
def ConnectionLimits.counts (limits : ConnectionLimits) : ConnectionSlot → Bool
  | .connections | .handshakes => true
  | .connectionsOf _ => limits.maxConnectionsPerSource ≠ 0
  | .handshakesOf _ => limits.maxHandshakesPerSource ≠ 0

namespace ConnectionLimiter

variable (limits : ConnectionLimits) (limiter : ConnectionLimiter)

def take : ConnectionSlot → ConnectionLimiter × Bool
  | .connections =>
    let (total, taken) := takeGlobal limiter.connectionsTotal limits.maxConnections
    ({ limiter with connectionsTotal := total }, taken)
  | .connectionsOf source =>
    let (map, taken) := takePerSource limiter.connections source limits.maxConnectionsPerSource
    ({ limiter with connections := map }, taken)
  | .handshakes =>
    let (total, taken) := takeGlobal limiter.handshakesTotal limits.maxHandshakes
    ({ limiter with handshakesTotal := total }, taken)
  | .handshakesOf source =>
    let (map, taken) := takePerSource limiter.handshakes source limits.maxHandshakesPerSource
    ({ limiter with handshakes := map }, taken)

/-- Give back a slot, and say whether the row of a source is left to be removed. -/
def give : ConnectionSlot → ConnectionLimiter × Bool
  | .connections =>
    ({ limiter with connectionsTotal := releaseGlobal limiter.connectionsTotal }, false)
  | .connectionsOf source =>
    let (map, nowEmpty) := decrementPerSource limiter.connections source
    ({ limiter with connections := map }, nowEmpty)
  | .handshakes =>
    ({ limiter with handshakesTotal := releaseGlobal limiter.handshakesTotal }, false)
  | .handshakesOf source =>
    let (map, nowEmpty) := decrementPerSource limiter.handshakes source
    ({ limiter with handshakes := map }, nowEmpty)

/-- The second step of giving back the slot of a source. -/
def reap : ConnectionSlot → ConnectionLimiter
  | .connectionsOf source =>
    { limiter with connections := removeIfZero limiter.connections source }
  | .handshakesOf source =>
    { limiter with handshakes := removeIfZero limiter.handshakes source }
  | .connections | .handshakes => limiter

/-- The row of a slot: the row of its source, or its total. -/
def row : ConnectionSlot → Option ℕ
  | .connections => some limiter.connectionsTotal
  | .connectionsOf source => limiter.connections.get? source
  | .handshakes => some limiter.handshakesTotal
  | .handshakesOf source => limiter.handshakes.get? source

/-- How many of a slot are counted as taken. -/
def count (slot : ConnectionSlot) : ℕ :=
  (limiter.row slot).getD 0

end ConnectionLimiter

/-! ### Connections -/

structure AcceptPermit where
  metered : Bool
  source : IpAddr
  handshakeHeld : Bool
  connectionHeld : Bool

namespace AcceptPermit

/-- A permit that counts against nothing. -/
def unmetered (source : IpAddr) : AcceptPermit :=
  ⟨false, source, false, false⟩

/-- The permit of an accept that took every slot. -/
def full (source : IpAddr) : AcceptPermit :=
  ⟨true, source, true, true⟩

def handshakeSlots (permit : AcceptPermit) : List ConnectionSlot :=
  if permit.handshakeHeld then [.handshakesOf permit.source, .handshakes] else []

def connectionSlots (permit : AcceptPermit) : List ConnectionSlot :=
  if permit.connectionHeld then [.connectionsOf permit.source, .connections] else []

def slots (permit : AcceptPermit) : List ConnectionSlot :=
  if permit.metered then permit.handshakeSlots ++ permit.connectionSlots else []

end AcceptPermit

inductive AcceptOutcome where
  | refused (reason : RefusedReason)
  | permit (permit : AcceptPermit)
  | dropped

/-- Where a connection is: before the trust check, before taking one of the slots, about to give
slots back, or between the two steps of giving one back. -/
inductive AcceptPhase where
  | checking (source : IpAddr)
  | connections (source : IpAddr)
  | connectionsOf (source : IpAddr)
  | handshakes (source : IpAddr)
  | handshakesOf (source : IpAddr)
  | giving (slots : List ConnectionSlot) (outcome : AcceptOutcome)
  | reaping (slot : ConnectionSlot) (slots : List ConnectionSlot) (outcome : AcceptOutcome)

/-- What makes a connection go on: whether its source is trusted, and what its owner does with the
permit. -/
inductive AcceptMove where
  | next (trusted : Bool)
  | handshakeDone
  | drop
deriving DecidableEq

def AcceptPermit.move (permit : AcceptPermit) : AcceptMove → AcceptPhase
  | .next _ => .giving [] (.permit permit)
  | .handshakeDone =>
    .giving (if permit.metered then permit.handshakeSlots else [])
      (.permit { permit with handshakeHeld := false })
  | .drop => .giving permit.slots .dropped

variable (limits : ConnectionLimits)

def ConnectionLimiter.access (limiter : ConnectionLimiter)
    (move : AcceptMove) : AcceptPhase → ConnectionLimiter × AcceptPhase × List Empty
  | .checking source =>
    if move = .next true then
      (limiter, .giving [] (.permit (.unmetered source)), [])
    else
      (limiter, .connections source, [])
  | .connections source =>
    match limiter.take limits .connections with
    | (limiter, true) => (limiter, .connectionsOf source, [])
    | (limiter, false) => (limiter, .giving [] (.refused .connections), [])
  | .connectionsOf source =>
    match limiter.take limits (.connectionsOf source) with
    | (limiter, true) => (limiter, .handshakes source, [])
    | (limiter, false) => (limiter, .giving [.connections] (.refused .connectionsPerSource), [])
  | .handshakes source =>
    match limiter.take limits .handshakes with
    | (limiter, true) => (limiter, .handshakesOf source, [])
    | (limiter, false) =>
      (limiter, .giving [.connectionsOf source, .connections] (.refused .handshakes), [])
  | .handshakesOf source =>
    match limiter.take limits (.handshakesOf source) with
    | (limiter, true) => (limiter, .giving [] (.permit (.full source)), [])
    | (limiter, false) =>
      (limiter, .giving [.handshakes, .connectionsOf source, .connections]
        (.refused .handshakesPerSource), [])
  | .giving (slot :: slots) outcome =>
    match limiter.give slot with
    | (limiter, true) => (limiter, .reaping slot slots outcome, [])
    | (limiter, false) => (limiter, .giving slots outcome, [])
  | .reaping slot slots outcome => (limiter.reap slot, .giving slots outcome, [])
  | .giving [] (.permit permit) => (limiter, permit.move move, [])
  | .giving [] outcome => (limiter, .giving [] outcome, [])

def acceptThreads :
    Threads ConnectionLimiter IpAddr AcceptPhase AcceptMove Empty where
  start := .checking
  access := ConnectionLimiter.access limits

/-! ### What a connection holds -/

def AcceptOutcome.slots : AcceptOutcome → List ConnectionSlot
  | .permit held => held.slots
  | .refused _ | .dropped => []

/-- The slots a connection has taken and not given back. -/
def AcceptPhase.slots : AcceptPhase → List ConnectionSlot
  | .checking _ | .connections _ => []
  | .connectionsOf _ => [.connections]
  | .handshakes source => [.connectionsOf source, .connections]
  | .handshakesOf source => [.handshakes, .connectionsOf source, .connections]
  | .giving slots outcome | .reaping _ slots outcome => slots ++ outcome.slots

/-- How many of a slot a connection holds, if it is counted. -/
def ConnectionLimits.holds (phase : AcceptPhase)
    (slot : ConnectionSlot) : ℕ :=
  if limits.counts slot then phase.slots.count slot else 0

/-- The connection was refused, or its permit is dropped, and nothing is left to give back. -/
def AcceptPhase.done : AcceptPhase → Bool
  | .giving [] (.refused _) | .giving [] .dropped => true
  | _ => false

/-- The counts are what the connections hold. -/
def ConnectionLimits.Exact :
    ConnectionLimiter × List AcceptPhase → Prop :=
  Threads.Exact ConnectionLimiter.count limits.holds

end Siphon.Security
