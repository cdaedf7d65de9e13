import Kanrin.Lib.Fixed
import Kanrin.Lib.Indexing
import Kanrin.Lib.Codec
import Kanrin.Lib.Text
import Kanrin.Lib.Http1
import Kanrin.Lib.Paths
import Kanrin.Lib.Prefixed
import Kanrin.Lib.Reader
import Kanrin.Lib.DnsMessage
import Kanrin.Lib.DnsGrammar
import Kanrin.Lib.BitPrefix
import Kanrin.Lib.SortByKey
import Kanrin.Lib.Credits
import Kanrin.Lib.SortedMap
import Kanrin.Lib.MaximalRuns
import Kanrin.Lib.Run
import Kanrin.Lib.History
import Kanrin.Lib.Parties
import Kanrin.Lib.Ownership
import Kanrin.Lib.Apportion
import Kanrin.Crypto
import Kanrin.Wire
import Kanrin.ChunkSizes
import Kanrin.Control
import Kanrin.Proxy
import Kanrin.Session
import Kanrin.Deliveries
import Kanrin.SendBuffer
import Kanrin.ReceiveBuffer
import Kanrin.ReceiveQueue
import Kanrin.SendLog
import Kanrin.ReplayCursor
import Kanrin.Ack
import Kanrin.Link
import Kanrin.Retention
import Kanrin.Flow
import Kanrin.Tunnel
import Kanrin.Handshake
import Kanrin.Agreement
import Kanrin.Nonces
import Kanrin.Resume
import Kanrin.ResumeProofs
import Kanrin.Messages
import Kanrin.Decoders
import Kanrin.CanonicalAck
import Kanrin.SingleUse
import Kanrin.Switch
import Kanrin.Posture
import Kanrin.MainLoop
import Kanrin.Abandonment
import Kanrin.Standby
import Kanrin.Handover
import Kanrin.Forwarding
import Kanrin.Framing
import Kanrin.QuicStreams
import Kanrin.Build
import Kanrin.Packets
import Kanrin.Headers
import Kanrin.Cidr
import Kanrin.GeoIp
import Kanrin.Routing
import Kanrin.Spellings
import Kanrin.Multipath
import Kanrin.Lockout
import Kanrin.Backoff
import Kanrin.Holding
import Kanrin.Nat
import Kanrin.Scoreboard
import Kanrin.Switcher
import Kanrin.SystemRoutes
import Kanrin.Sni
import Kanrin.Striping
import Kanrin.Interception
import Kanrin.FakeIp
import Kanrin.Responses
import Kanrin.KillSwitch
import Kanrin.Http
import Kanrin.Frontdoor
import Kanrin.Escapes
import Kanrin.StaticFiles
import Kanrin.Admissions
import Kanrin.Visitors
import Kanrin.Boundaries
import Kanrin.HeadReading
import Kanrin.Upstream
import Kanrin.Opening
import Kanrin.Addresses
import Kanrin.Allocation
import Kanrin.Acceptor
import Kanrin.Lib.Demux
import Kanrin.Dispatch
import Kanrin.Lifecycle
import Kanrin.Lib.HeadLines
import Kanrin.Origin
import Kanrin.Probes
import Kanrin.Pacing
import Kanrin.Entrance
import Kanrin.Lib.FairShares
import Kanrin.Fairness
import Kanrin.Reports
import Kanrin.Reclaiming
import Kanrin.Takeover
