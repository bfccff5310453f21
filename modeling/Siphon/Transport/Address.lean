import Mathlib.Data.UInt

/-!
# Addresses

Addresses, transports and connections, as messages are sent to and received from.
-/

namespace Siphon

inductive IpAddr where
  | v4 (bits : BitVec 32)
  | v6 (bits : BitVec 128)
deriving DecidableEq

structure SocketAddr where
  ip : IpAddr
  port : UInt16
deriving DecidableEq

inductive Transport where
  | udp
  | tcp
  | tls
  | webSocket
  | webSocketSecure
  | sctp
deriving DecidableEq

structure ConnectionId where
  id : ℕ
deriving DecidableEq

end Siphon
