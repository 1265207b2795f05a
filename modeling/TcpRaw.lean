import TcpRaw.Fec.Proof.Assemble
import TcpRaw.Fec.Fec
import TcpRaw.Fec.Proof.Decode
import TcpRaw.Fec.Proof.Encode
import TcpRaw.Fec.Proof.Block
import TcpRaw.Fec.Proof.Run
import TcpRaw.Fec.Proof.Integrity
import TcpRaw.Lib.Keyed
import TcpRaw.Fec.Proof.Recovery
import TcpRaw.Fec.Link
import TcpRaw.Fec.Proof.Stale
import TcpRaw.Fec.Proof.Hostile
import TcpRaw.Firewall.Proof.DropRule
import TcpRaw.Common.AddrKey
import TcpRaw.Lib.GoMap
import TcpRaw.Listener.Listener
import TcpRaw.Listener.Proof.Registry
import TcpRaw.Listener.Proof.Shutdown
import TcpRaw.Flow.Flow
import TcpRaw.Flow.Pair
import TcpRaw.Flow.Proof.SeqAck
import TcpRaw.Flow.Conn
import TcpRaw.Flow.Server
import TcpRaw.Flow.Proof.Gate
import TcpRaw.Flow.Client
import TcpRaw.Flow.Proof.Deaf
import TcpRaw.Listener.History
import TcpRaw.Listener.Proof.Demux
import TcpRaw.Listener.Proof.Quarantine
import TcpRaw.Firewall.Proof.Restore
import TcpRaw.Fec.Proof.EncoderSpec
import TcpRaw.Fec.Proof.Drain
import TcpRaw.Fec.Proof.Duplicate
import TcpRaw.Fec.Proof.Once
import TcpRaw.Listener.Proof.ReadStream
import TcpRaw.Fec.Client
import TcpRaw.Fec.Proof.ReadBound
import TcpRaw.Flow.Startup
import TcpRaw.Flow.Proof.Startup
import TcpRaw.Stack.Proof.Shutdown
import TcpRaw.Flow.Flat
import TcpRaw.Flow.Proof.Refine
import TcpRaw.Fec.Proof.EncoderSafe
import TcpRaw.Flow.Key
import TcpRaw.Fec.Proof.WriteLimits
import TcpRaw.Flow.Write
import TcpRaw.Stack.Write
import TcpRaw.Flow.Datagram
import TcpRaw.Flow.Proof.Truncation
import TcpRaw.Lib.Custody
import TcpRaw.Stack.Construct
import TcpRaw.Stack.Proof.Construct
import TcpRaw.Listener.Expiry
import TcpRaw.Listener.Proof.Expiry
import TcpRaw.Flow.Update
import TcpRaw.Flow.Proof.Update
import TcpRaw.Fec.ShortRead
import TcpRaw.Fec.Proof.Cut
import TcpRaw.Fec.Proof.Mirror
import TcpRaw.Fec.Proof.ShortRead
import TcpRaw.Flow.Sockfilter
import TcpRaw.Flow.Proof.Sockfilter
import TcpRaw.Fec.Proof.Order
import TcpRaw.Fec.Proof.Invariant
import TcpRaw.FecV2.AutoTune
import TcpRaw.FecV2.Proof.AutoTune
import TcpRaw.FecV2.Decoder
import TcpRaw.FecV2.Proof.Decode
import TcpRaw.FecV2.Proof.Safe
import TcpRaw.FecV2.Proof.Refine
import TcpRaw.FecV2.Encoder
import TcpRaw.FecV2.Proof.Encode
import TcpRaw.FecV2.Proof.RoundTrip
import TcpRaw.FecV2.Proof.Wrap
import TcpRaw.FecV2.Proof.Tune
import TcpRaw.Stack.Path
import TcpRaw.Stack.Proof.Path
import TcpRaw.Flow.Proof.Wire
import TcpRaw.Flow.Proof.Turns
import TcpRaw.Listener.DataLoop
import TcpRaw.Listener.Proof.DataLoop
import TcpRaw.Listener.Listeners
import TcpRaw.Listener.Proof.Listeners
