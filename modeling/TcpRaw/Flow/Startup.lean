import TcpRaw.Flow.Server

/-!
# The start of a listening `tcpConn` (`tcp_linux.go`, `Listen`)

`Listen` opens a raw handle for each address that it listens on and starts a capture goroutine on
it. Only then does it call `ListenTCP` and set `conn.listener`, and start the cleaner and the accept
loop. The capture goroutines do not wait for that: a `Startup` is a `Server` together with how far
`Listen` has come, and the goroutines that have been started step in any order.

`lockflow` logs a new entry with the address of `conn.tcpconn`, or else of `conn.listener`. The
firewall rules and the global list of connections are left out.
-/

namespace Tcpraw

open GoRt

/-- The IP that `Listen` is called with. -/
inductive ListenIP where
  /-- None, or the unspecified one: it listens on the addresses of all interfaces, of which there
  are `ifaceAddrs`. -/
  | unspecified (ifaceAddrs : Nat)
  | specific
  deriving DecidableEq, Repr

/-- What a call of `Listen` depends on. -/
structure ListenConfig where
  ip : ListenIP
  port : UInt16
  /-- `BatchSize` -/
  batchSize : Int

/-- The addresses that `Listen` opens a raw handle for; `reuseportNum` is one. -/
def ListenConfig.addrs (cfg : ListenConfig) : Nat :=
  match cfg.ip with
  | .unspecified ifaceAddrs => ifaceAddrs
  | .specific => 1

/-- `captureFlow` has a buffer to read into. It allocates the one of `ReadFromIP` only where
`BatchSize < 2`, but reads into it also where it has no `ipv4.PacketConn`, as on all interfaces. -/
def ListenConfig.buffered (cfg : ListenConfig) : Bool :=
  match cfg.ip with
  | .unspecified _ => decide (cfg.batchSize < 2)
  | .specific => true

/-- What `Listen` does next. -/
inductive ListenPhase where
  /-- Call `ListenIP` for the next of `n` addresses. -/
  | listenIP (n : Nat)
  /-- Start the capture goroutine of the handle it opened last; `n` addresses are left. -/
  | goCapture (n : Nat)
  | listenTCP
  /-- Set `conn.listener`. -/
  | assign (l : Nat)
  | goCleaner
  | goAccept
  | returned
  /-- It returned an error. -/
  | failed
  deriving DecidableEq, Repr

/-- The cleaner was started. -/
def ListenPhase.cleaning : ListenPhase → Bool
  | .goAccept | .returned => true
  | _ => false

/-- A `tcpConn` that `Listen` is setting up. -/
structure Startup where
  server : Server
  phase : ListenPhase
  /-- The length of `conn.handles`. -/
  handles : Nat
  /-- The number of capture goroutines that were started; that of handle `i` is the `i`-th. -/
  capturing : Nat
  /-- `conn.listener`; `conn.tcpconn` is nil. -/
  listener : Option Nat
  /-- The panic that ended the process. -/
  panicked : Option Panic

/-- The addresses that are left, and what follows when none is. -/
def ListenPhase.next (handles : Nat) : Nat → ListenPhase
  | 0 => if handles = 0 then .failed else .listenTCP
  | n + 1 => .listenIP (n + 1)

/-- A call of `Listen`, after `initFlowTable`. -/
def Startup.new (cfg : ListenConfig) (now : Time) : Startup where
  server := .new listenSharding listenSharding_pos now
  phase := .next 0 cfg.addrs
  handles := 0
  capturing := 0
  listener := none
  panicked := none

/-- The steps. -/
inductive ListenEvent where
  /-- `ListenIP` returns, and on a specific IP the calls that set the handle up. -/
  | listenIP (ok : Bool)
  | goCapture
  /-- `ListenTCP` returns a listener, or an error. -/
  | listenTCP (l : Option Nat)
  | assign
  | goCleaner
  | goAccept
  /-- A step of the goroutines and, once `Listen` has returned, of the application. -/
  | serve (e : ServerEvent)

/-- What `lockflow` reads to log a new entry: the address of `conn.tcpconn`, or else of
`conn.listener`. -/
def TcpConn.logNewFlow (conn : TcpConn) (tcpconn listener : Option Nat) (key : AddrKey) : Go Unit :=
  match conn.table.lookup key with
  | some _ => pure ()
  | none =>
    match tcpconn, listener with
    | some _, _ => pure ()
    | none, some _ => pure ()
    | none, none => .error .nilDeref

/-- The goroutine of a step is there. A segment is what was read, in a buffer of `maxPayloadSize`
bytes. -/
def Startup.serves (cfg : ListenConfig) (s : Startup) : ServerEvent → Bool
  | .tick _ | .update _ | .push _ | .discard _ => true
  | .capture port handle _ tcp =>
    port == cfg.port && decide (handle < s.capturing ∧ tcp.payload.length < maxPayloadSize)
  | .sweep _ _ => s.phase.cleaning
  | .accept _ _ | .bind _ | .close | .wipe _ | .read => s.phase == .returned

/-- The panics of a step. -/
def Startup.check (cfg : ListenConfig) (s : Startup) : ServerEvent → Go Unit
  | .capture _ _ ip tcp =>
    -- nothing is read into a nil buffer, and no TCP header is found in it
    if cfg.buffered = false then .error (.explicit "not TCP packet, never happen")
    else if tcp.dstPort ≠ cfg.port then pure ()
    else s.server.conn.logNewFlow none s.listener { dip := ip, dport := tcp.srcPort }
  | .accept key _ => s.server.conn.logNewFlow none s.listener key
  | _ => pure ()

/-- One step of `Listen`. -/
def Startup.listen (cfg : ListenConfig) (s : Startup) : ListenEvent → Option Startup
  | .listenIP ok =>
    match s.phase, ok, cfg.ip with
    | .listenIP (n + 1), true, _ =>
      some { s with handles := s.handles + 1, phase := .goCapture n }
    | .listenIP (n + 1), false, .unspecified _ => some { s with phase := .next s.handles n }
    | .listenIP (_ + 1), false, .specific => some { s with phase := .failed }
    | _, _, _ => none
  | .goCapture =>
    match s.phase with
    | .goCapture n => some { s with capturing := s.handles, phase := .next s.handles n }
    | _ => none
  | .listenTCP l =>
    match s.phase, l with
    | .listenTCP, some l => some { s with phase := .assign l }
    | .listenTCP, none => some { s with phase := .failed }
    | _, _ => none
  | .assign =>
    match s.phase with
    | .assign l => some { s with listener := some l, phase := .goCleaner }
    | _ => none
  | .goCleaner =>
    match s.phase with
    | .goCleaner => some { s with phase := .goAccept }
    | _ => none
  | .goAccept =>
    match s.phase with
    | .goAccept => some { s with phase := .returned }
    | _ => none
  | .serve _ => none

/-- A step of the goroutines: a panic ends the process. -/
def Startup.serve (cfg : ListenConfig) (s : Startup) (e : ServerEvent) : Option Startup :=
  if s.serves cfg e then
    match s.check cfg e with
    | .error p => some { s with panicked := some p }
    | .ok () => (s.server.step e).map fun server => { s with server }
  else none

/-- One step, if it is possible. -/
def Startup.step (cfg : ListenConfig) (s : Startup) (e : ListenEvent) : Option Startup :=
  match s.panicked, e with
  | some _, _ => none
  | none, .serve e => s.serve cfg e
  | none, e => s.listen cfg e

end Tcpraw
