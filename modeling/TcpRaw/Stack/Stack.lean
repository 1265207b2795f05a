import TcpRaw.Flow.Client
import TcpRaw.Flow.Server
import TcpRaw.Listener.Listener

/-!
# The goroutines of a connection, to its end (`tcp_linux.go`, `faketcp/listener.go`)

The system is a `tcpConn` of `Dial`, or of `Listen` on one IP, with the capture goroutine of its raw
handle (`captureFlow`) and, if a `faketcp.Listener` was put on top, that listener with its accept
loop (`acceptDataLoopv2`). `Close` runs next to them, one step after the other, from any time on:
`Listener.Close` cancels the listener's context, calls it, and then closes the `FakeConn`s.

The raw socket returns an error only after `Close` has closed its handle. The raw handle is read
through an `ipv4.PacketConn`, in batches unless `BatchSize < 2`. The filter for the port is set
after the handle was opened, and it is one for IPv4: what is queued before, and what comes over
IPv6, is read as it arrived.
-/

namespace Stack

open GoRt Tcpraw

/-- How the `tcpConn` was made. -/
inductive Origin where
  | dial (c : Tcpraw.Client)
  /-- `Listen` on one IP. -/
  | listen (port : UInt16)

/-- A packet that was read from the raw socket, as `captureFlow` takes it. -/
inductive Datagram where
  /-- A TCP packet of an IPv4 address. -/
  | ipv4 (ip : UInt32) (tcp : Segment)
  /-- A TCP packet of an IPv6 address: `To4` is nil. -/
  | ipv6 (tcp : Segment)
  /-- There is no TCP layer, as where the packet ends with its IP header. -/
  | noTCP
  /-- `getIPv4HeaderLen` is zero. -/
  | other
  /-- `getIPv4HeaderLen` is beyond the end: over IPv6 it is computed from the source port. -/
  | short

/-- What is set up before the goroutines run, and the packets that come to the raw handle. -/
structure Config where
  origin : Origin
  /-- `BatchSize` -/
  batchSize : Int
  /-- A `faketcp.Listener` reads from the `tcpConn`. -/
  onTop : Bool
  arrives : Datagram → Bool

/-- The port that `captureFlow` is started with. -/
def Config.port (cfg : Config) : UInt16 :=
  match cfg.origin with
  | .dial c => c.lport
  | .listen port => port

/-- The raw handle. -/
def Config.handle (cfg : Config) : Nat :=
  match cfg.origin with
  | .dial c => c.handle
  | .listen _ => 0

/-- The buffers have `maxPayloadSize` bytes, headers included. -/
def Datagram.fits : Datagram → Bool
  | .ipv4 _ tcp | .ipv6 tcp => decide (tcp.payload.length < maxPayloadSize)
  | _ => true

/-- `ReadFromIP` takes an IPv4 header off by itself: `getIPv4HeaderLen` is for `ReadBatch` only. -/
def Datagram.unbatched : Datagram → Bool
  | .other | .short => false
  | _ => true

/-- What one read can return: `ReadFromIP` one packet, `ReadBatch` up to `BatchSize` packets. -/
def Config.readable (cfg : Config) (ds : List Datagram) : Bool :=
  ds.all (fun d => cfg.arrives d && d.fits) &&
    if cfg.batchSize < 2 then decide (ds.length = 1) && ds.all Datagram.unbatched
    else decide ((ds.length : Int) ≤ cfg.batchSize)

/-- Where `captureFlow` is. With nothing left to decode it is in its read. -/
inductive CaptureLoop where
  | running (todo : List Datagram)
  | returned

/-- What `Close` does next. -/
inductive ClosePhase where
  /-- It was not called yet; it closes `die` first. -/
  | die
  /-- Close `conn.tcpconn` or `conn.listener`. -/
  | sockets
  /-- Empty the `i`-th shard. -/
  | wipe (i : Nat)
  | handles
  | iptables
  | connList
  | done
  deriving DecidableEq, Repr

/-- `Close` has closed the raw handle. -/
def ClosePhase.handleClosed : ClosePhase → Bool
  | .iptables | .connList | .done => true
  | _ => false

/-- A panic, which ends the process. -/
inductive Fault where
  /-- `decodeTCPPacket`: `panic("not TCP packet, never happen")`. -/
  | notTCP
  /-- `decodeTCPPacket`: `binary.BigEndian.Uint32` of a nil slice. -/
  | to4
  /-- `captureFlow`: `buf[iphlen:msg.N]`. -/
  | sliceBounds
  /-- `captureFlow`: `panic(err)`, where `err` is from `ReadBatch`. -/
  | readBatch
  /-- `acceptDataLoopv2`: `panic("listener readFrom error: EOF")`. -/
  | readFrom
  deriving DecidableEq, Repr

/-- The panic of a packet: the port is compared before the address is used. -/
def Datagram.fault (port : UInt16) : Datagram → Option Fault
  | .ipv6 tcp => if tcp.dstPort = port then some .to4 else none
  | .noTCP => some .notTCP
  | .short => some .sliceBounds
  | .ipv4 _ _ | .other => none

/-- The goroutines and what they share. -/
structure State where
  server : Server
  capture : CaptureLoop
  top : Option Faketcp.Listener
  closing : ClosePhase
  panicked : Option Fault

/-- The `tcpConn` as `Dial` or `Listen` returns it. -/
def Config.server (cfg : Config) (now : Time) : Server :=
  match cfg.origin with
  | .dial c => { Server.new 1 Nat.one_pos now with conn := c.dial now }
  | .listen _ => .new listenSharding listenSharding_pos now

/-- A connection that was set up at the time `now`. -/
def Config.init (cfg : Config) (now : Time) : State where
  server := cfg.server now
  capture := .running []
  top := if cfg.onTop then some (.new now) else none
  closing := .die
  panicked := none

/-- The steps of `captureFlow`. -/
inductive CaptureEvent where
  | read (ds : List Datagram)
  | readError
  /-- Decode the next packet, up to the call of `lockflow`. -/
  | decode
  /-- Update the entry of the packet. -/
  | update
  /-- Put the payload on `chMessage`. -/
  | push
  | discard

/-- The steps. -/
inductive Event where
  | capture (e : CaptureEvent)
  /-- The next step of `Close`. -/
  | close
  /-- `ReadFromv2` returns a message of `src` to the accept loop. -/
  | recv (src : Common.Peer)
  /-- `ReadFromv2` returns `io.EOF` to the accept loop. -/
  | eof
  /-- A step of the listener on top that does not read from the `tcpConn`. -/
  | listener (e : Faketcp.Event)
  /-- A step of the cleaner, of the accept loop of `Listen`, or a read of the application. -/
  | serve (e : ServerEvent)

/-- A step of `captureFlow`. -/
def State.captureStep (cfg : Config) (s : State) : CaptureEvent → Option State
  | .read ds =>
    match s.capture, s.server.captures with
    | .running [], [] =>
      if s.closing.handleClosed = false ∧ cfg.readable ds then
        some { s with capture := .running ds }
      else none
    | _, _ => none
  | .readError =>
    match s.capture, s.server.captures with
    | .running [], [] =>
      if s.closing.handleClosed = false then none
      else if cfg.batchSize < 2 then some { s with capture := .returned }
      else some { s with panicked := some .readBatch }
    | _, _ => none
  | .decode =>
    match s.capture, s.server.captures with
    | .running (.ipv4 ip tcp :: ds), [] =>
      (s.server.step (.capture cfg.port cfg.handle ip tcp)).map fun server =>
        { s with server, capture := .running ds }
    | .running (d :: ds), [] =>
      match d.fault cfg.port with
      | some fault => some { s with panicked := some fault }
      | none => some { s with capture := .running ds }
    | _, _ => none
  | .update => (s.server.step (.update 0)).map fun server => { s with server }
  | .push => (s.server.step (.push 0)).map fun server => { s with server }
  | .discard => (s.server.step (.discard 0)).map fun server => { s with server }

/-- The next step of `Close`; a second call waits for the first. -/
def State.closeStep (cfg : Config) (s : State) : Option State :=
  match s.closing with
  | .die => (s.server.step .close).map fun server => { s with server, closing := .sockets }
  | .sockets =>
    match cfg.origin with
    | .dial _ => some { s with closing := .handles }
    | .listen _ => some { s with closing := .wipe 0 }
  | .wipe i =>
    if i < s.server.conn.table.sharding then
      (s.server.step (.wipe i)).map fun server => { s with server, closing := .wipe (i + 1) }
    else some { s with closing := .handles }
  | .handles => some { s with closing := .iptables }
  | .iptables => some { s with closing := .connList }
  | .connList => some { s with closing := .done }
  | .done => none

/-- The accept loop of the listener on top receives the first message. -/
def State.recvStep (s : State) (src : Common.Peer) : Option State :=
  match s.top, s.server.conn.chMessage with
  | some l, m :: _ =>
    if src.key.ip = m.addr.dip ∧ src.key.port = m.addr.dport then
      (l.step (.recv m.bts src)).bind fun l =>
        (s.server.step .read).map fun server => { s with server, top := some l }
    else none
  | _, _ => none

/-- The accept loop is in `ReadFromv2` when `die` is closed. -/
def State.eofStep (s : State) : Option State :=
  match s.top with
  | some l =>
    match l.loop with
    | .read => if s.server.conn.die then some { s with panicked := some .readFrom } else none
    | _ => none
  | none => none

/-- Another step of the listener on top. -/
def State.listenerStep (s : State) : Faketcp.Event → Option State
  | .recv _ _ => none
  | e => s.top.bind fun l => (l.step e).map fun l => { s with top := some l }

/-- The goroutine of a step of the `tcpConn` is there; `AcceptTCP` fails once its socket is
closed. -/
def State.serves (cfg : Config) (s : State) : ServerEvent → Bool
  | .tick _ | .sweep _ _ => true
  | .accept _ _ =>
    match cfg.origin with
    | .dial _ => false
    | .listen _ => decide (s.closing = .die ∨ s.closing = .sockets)
  | .bind _ => true
  | .read => s.top.isNone
  | _ => false

/-- A step of the `tcpConn` that is neither of `captureFlow` nor of `Close`. -/
def State.serveStep (cfg : Config) (s : State) (e : ServerEvent) : Option State :=
  if s.serves cfg e then (s.server.step e).map fun server => { s with server } else none

/-- One step, if it is possible. -/
def State.step (cfg : Config) (s : State) (e : Event) : Option State :=
  if s.panicked.isSome then none
  else
    match e with
    | .capture e => s.captureStep cfg e
    | .close => s.closeStep cfg
    | .recv src => s.recvStep src
    | .eof => s.eofStep
    | .listener e => s.listenerStep e
    | .serve e => s.serveStep cfg e

/-- The states that a connection reaches. -/
def State.Reachable (cfg : Config) (now : Time) : State → Prop :=
  Trans.Reach (· = cfg.init now) fun s e t => s.step cfg e = some t

end Stack
