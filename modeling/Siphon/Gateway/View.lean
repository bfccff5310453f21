import Siphon.Library.Intervals
import Siphon.Library.Run
import Siphon.Library.Text
import Siphon.Transport.Address

/-!
# The gateway view

Every range of addresses that a gateway group admits, merged into one snapshot per publish: the
ranges of each family in order, without those that another contains.  A publish that changes the
snapshot tells the listeners which ranges the one before did not cover.
-/

namespace Siphon

/-- Addresses in order, those of the shorter family first. -/
def IpAddr.cmp : IpAddr → IpAddr → Ordering
  | .v4 a, .v4 b => compare a.toNat b.toNat
  | .v4 _, .v6 _ => .lt
  | .v6 _, .v4 _ => .gt
  | .v6 a, .v6 b => compare a.toNat b.toNat

namespace Gateway

/-- A network of a family: an address, host bits included, and how many leading bits count. -/
structure Net (width : ℕ) where
  addr : BitVec width
  prefixLen : ℕ
  prefixLen_le : prefixLen ≤ width
deriving DecidableEq

namespace Net

variable {width : ℕ} (net : Net width)

def netmask : BitVec width :=
  BitVec.allOnes width <<< (width - net.prefixLen)

def hostmask : BitVec width :=
  BitVec.allOnes width >>> net.prefixLen

def network : BitVec width :=
  net.addr &&& net.netmask

def broadcast : BitVec width :=
  net.addr ||| net.hostmask

def contains (other : Net width) : Bool :=
  net.network ≤ other.network && other.broadcast ≤ net.broadcast

def containsAddr (address : BitVec width) : Bool :=
  net.network ≤ address && address ≤ net.broadcast

end Net

inductive IpNet where
  | v4 (net : Net 32)
  | v6 (net : Net 128)
deriving DecidableEq

namespace IpNet

def network : IpNet → IpAddr
  | .v4 net => .v4 net.network
  | .v6 net => .v6 net.network

def broadcast : IpNet → IpAddr
  | .v4 net => .v4 net.broadcast
  | .v6 net => .v6 net.broadcast

def prefixLen : IpNet → ℕ
  | .v4 net => net.prefixLen
  | .v6 net => net.prefixLen

def contains : IpNet → IpNet → Bool
  | .v4 net, .v4 other => net.contains other
  | .v6 net, .v6 other => net.contains other
  | _, _ => false

def containsAddr : IpNet → IpAddr → Bool
  | .v4 net, .v4 address => net.containsAddr address
  | .v6 net, .v6 address => net.containsAddr address
  | _, _ => false

end IpNet

structure AdmittedRange where
  network : IpNet
  group : Text

/-- Sort by start, the broader first, and drop every range that the last kept one contains. -/
def normaliseBy {τ : Type} (items : List τ) (network : τ → IpNet) : List τ :=
  let sorted := items.mergeSort fun left right =>
    ((network left).network.cmp (network right).network).then
      (compare (network left).prefixLen (network right).prefixLen) ≠ .gt
  Intervals.absorb (fun held item => (network held).contains (network item)) sorted

/-- One range of a snapshot, with its bounds as numbers. -/
structure Span where
  first : ℕ
  last : ℕ
  network : IpNet
  group : Text
deriving DecidableEq

/-- The merged ranges per family. -/
structure GatewaySnapshot where
  v4 : List Span := []
  v6 : List Span := []
deriving DecidableEq

def find (spans : List Span) (key : ℕ) : Option Span :=
  Intervals.locate Span.first Span.last spans key

namespace GatewaySnapshot

def push (snapshot : GatewaySnapshot) (range : AdmittedRange) : GatewaySnapshot :=
  match range.network with
  | .v4 net =>
    { snapshot with
      v4 := snapshot.v4 ++ [{
        first := net.network.toNat
        last := net.broadcast.toNat
        network := range.network
        group := range.group }] }
  | .v6 net =>
    { snapshot with
      v6 := snapshot.v6 ++ [{
        first := net.network.toNat
        last := net.broadcast.toNat
        network := range.network
        group := range.group }] }

def build (sources : List AdmittedRange) : GatewaySnapshot :=
  (normaliseBy sources AdmittedRange.network).foldl push {}

variable (snapshot : GatewaySnapshot)

def groupOf : IpAddr → Option Text
  | .v4 address => (find snapshot.v4 address.toNat).map Span.group
  | .v6 address => (find snapshot.v6 address.toNat).map Span.group

def contains (source : IpAddr) : Bool :=
  (snapshot.groupOf source).isSome

/-- Whether the whole of a network sits inside one merged range. -/
def covers : IpNet → Bool
  | .v4 net => (find snapshot.v4 net.network.toNat).any fun span => net.broadcast.toNat ≤ span.last
  | .v6 net => (find snapshot.v6 net.network.toNat).any fun span => net.broadcast.toNat ≤ span.last

def ranges : List AdmittedRange :=
  (snapshot.v4 ++ snapshot.v6).map fun span => { network := span.network, group := span.group }

end GatewaySnapshot

/-- Swap in the snapshot of the sources unless it is the current one.  Listeners are told of the
new snapshot and of the ranges the previous one does not cover. -/
def publish (current : GatewaySnapshot) (sources : List AdmittedRange) :
    GatewaySnapshot × List (GatewaySnapshot × List AdmittedRange) :=
  let next := .build sources
  if current = next then (current, [])
  else
    let added := next.ranges.filter fun range => !current.covers range.network
    (next, [(next, added)])

/-- The view under publishes, with what the listeners are told. -/
def viewMachine :
    Machine GatewaySnapshot (List AdmittedRange) (GatewaySnapshot × List AdmittedRange) where
  step := publish

end Gateway

end Siphon
