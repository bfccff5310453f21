import Siphon.Admission.CallRate
import Siphon.Auth.AnswerOnce
import Siphon.Auth.Credentials
import Siphon.B2bua.DeferredCancel
import Siphon.B2bua.ForkConcludes
import Siphon.B2bua.LegLists
import Siphon.B2bua.RegistryMatches
import Siphon.B2bua.ReliableDiscipline
import Siphon.B2bua.TerminatedCalls
import Siphon.Diameter.JsonView
import Siphon.Diameter.Relay
import Siphon.Diameter.RoundTrip
import Siphon.Diameter.Tbcd
import Siphon.Hep.WellFormed
import Siphon.Ifc.Chain
import Siphon.Ifc.ProfileWrites
import Siphon.Ipsec.SpiExclusive
import Siphon.Li.PduStream
import Siphon.Media.CodecFilter
import Siphon.Presence.WriteThrough
import Siphon.Proxy.ForkSequence
import Siphon.Proxy.LateAnswers
import Siphon.Proxy.SessionFrames
import Siphon.Registrar.Aliases
import Siphon.Registrar.WriteOrder
import Siphon.RtpEngine.BencodeSafety
import Siphon.RtpEngine.Waiters
import Siphon.Security.BanLifetime
import Siphon.Security.ExactCeilings
import Siphon.Security.GatewayLift
import Siphon.Sip.CheckedUri
import Siphon.Sip.ReferTransfer
import Siphon.Sip.RoundTrip
import Siphon.Subscribe.CacheOrder
import Siphon.Transaction.CancelSafety
import Siphon.Transaction.Creation
import Siphon.Transaction.InviteMatch
import Siphon.Transaction.InviteTimers
import Siphon.Transport.Agreement
import Siphon.Transport.BannedConnections
import Siphon.Transport.FallbackLanes
import Siphon.Transport.ProxySegmentation
import Siphon.Transport.Segmentation
import Siphon.Transport.SendQueue
import Siphon.Transport.Sniff
