import TcpRaw.Lib.Custody
import TcpRaw.Lib.Go

/-!
# Setting up connections and listeners (`tcp_linux.go`, `faketcp/client.go`, `faketcp/listeners.go`)

`tcpraw.Dial` and `tcpraw.Listen` open raw handles and kernel sockets and start goroutines on them;
`faketcp.Dial`, `FakeTcpListen` and `FakeTcpListeners` build on the two. What the process holds is a
`Custody.Store`: its sockets (`Kind.handle`, `Kind.tcpConn`, `Kind.listener`) and the loops that
run. A constructor returns, returns an error, or panics (`Fail`).

What the calls of the system return is given beforehand, one value for each call (`DialCalls`,
`ListenCalls`, `ClientCalls`, `FakeListenCalls`), so the constructors are functions of those. A
socket that nothing refers to is closed by its finalizer in some later garbage collection; here it
is held until it is closed.
-/

namespace Stack

open GoRt Custody

/-- What a process holds. -/
inductive Kind where
  /-- A raw handle, `*net.IPConn`. -/
  | handle
  /-- A kernel connection, `*net.TCPConn`. -/
  | tcpConn
  /-- A kernel listener, `*net.TCPListener`. -/
  | listener
  /-- `tcpConn.captureFlow` on a handle. -/
  | captureFlow (handle : Nat)
  /-- `tcpConn.cleaner` -/
  | flowCleaner
  /-- The goroutine of `tcpraw.Listen` that accepts kernel connections. -/
  | acceptTCP
  /-- `Listener.acceptDataLoopv2` -/
  | acceptDataLoop
  /-- `Listener.cleaner` -/
  | listenerCleaner
  deriving DecidableEq, Repr

/-- An error, as it prints. -/
abbrev NetErr := String

/-- How a constructor ends if it does not return a value. -/
inductive Fail where
  | err (e : NetErr)
  | panic (p : Panic)
  deriving DecidableEq, Repr

/-- A part of a constructor. -/
abbrev Build (α : Type) := Prog Kind Fail α

/-- `if err != nil { return nil, err }` -/
def call {α : Type} : Except NetErr α → Build α
  | .ok a => pure a
  | .error e => throw (.err e)

/-- `panic(msg)` -/
def panics {α : Type} (msg : String) : Build α := throw (.panic (.explicit msg))

/-- `if err != nil { log.Println(err) }` -/
def logged (_ : Except NetErr Unit) : Build Unit := pure ()

/-- The rule against resets, the only one of `iptables` whose errors are not passed over. -/
structure RstRuleCalls where
  newWithProtocol : Except NetErr Unit
  ruleExists : Except NetErr Bool
  append : Except NetErr Unit

/-- Add the rule against resets. -/
def addRstRule (c : RstRuleCalls) : Build Unit :=
  match c.newWithProtocol with
  | .error _ => pure ()
  | .ok () =>
    match c.ruleExists, c.append with
    | .error e, _ => panics e
    | .ok true, _ => pure ()
    | .ok false, .error e => panics ("set iptables rule failed: " ++ e)
    | .ok false, .ok () => pure ()

/-! ## `tcpraw.Dial` -/

/-- What the calls in `tcpraw.Dial` return. -/
structure DialCalls where
  resolveTCPAddr : Except NetErr Unit
  /-- The local address of the handle. -/
  dialIP : Except NetErr String
  /-- The remote address of the connection. -/
  dialTCP : Except NetErr String
  /-- The IP of the connection's local address. -/
  splitHostPort : Except NetErr String
  setBPF : Except NetErr Unit
  setTTL : Except NetErr Unit
  rstRule : RstRuleCalls

/-- The `tcpConn` of `tcpraw.Dial`. -/
structure Dialed where
  handle : Nat
  tcpconn : Nat
  remoteAddr : String

/-- `tcpraw.Dial`, once the sockets are open. -/
def tcprawDialOn (c : DialCalls) (conn : Dialed) (handleAddr : String) : Build Dialed := do
  let laddr ← call c.splitHostPort
  if handleAddr ≠ laddr then
    panics ("handle and tcpconn bound local address are not the same: handle: " ++ handleAddr ++
      ", tcpconn: " ++ laddr)
  else do
    call c.setBPF
    let _ ← takes (.captureFlow conn.handle)
    let _ ← takes .flowCleaner
    call c.setTTL
    addRstRule c.rstRule
    pure conn

/-- `tcpraw.Dial` -/
def tcprawDial (c : DialCalls) : Build Dialed := do
  call c.resolveTCPAddr
  let handleAddr ← call c.dialIP
  let handle ← takes .handle
  match c.dialTCP with
  | .error e => do
    givesBack handle
    throw (.err e)
  | .ok remoteAddr => do
    let tcpconn ← takes .tcpConn
    tcprawDialOn c { handle, tcpconn, remoteAddr } handleAddr

/-! ## `tcpraw.Listen` -/

/-- An address of an interface. -/
inductive IfaceAddr where
  /-- An `*net.IPNet`, and what `ListenIP` returns for it. -/
  | ipNet (listenIP : Except NetErr Unit)
  | other

/-- What the calls in `tcpraw.Listen` return. -/
structure ListenCalls where
  /-- The IP is missing or unspecified. -/
  resolveTCPAddr : Except NetErr Bool
  /-- The interfaces, and what `Addrs` returns for each. -/
  interfaces : Except NetErr (List (Except NetErr (List IfaceAddr)))
  /-- On the IP of the address, as the three after it. -/
  listenIP : Except NetErr Unit
  syscallConn : Except NetErr Unit
  setReusePort : Except NetErr Unit
  setBPF : Except NetErr Unit
  listenTCP : Except NetErr Unit
  rstRule : RstRuleCalls

/-- The variables `conn.handles` and `lasterr`. -/
structure Captured where
  handles : List Nat
  lasterr : Option NetErr

/-- The addresses of one interface. -/
def captureAddrs : List IfaceAddr → Captured → Build Captured
  | [], v => pure v
  | .other :: addrs, v => captureAddrs addrs v
  | .ipNet (.error e) :: addrs, v => captureAddrs addrs { v with lasterr := some e }
  | .ipNet (.ok ()) :: addrs, v => do
    let handle ← takes .handle
    let _ ← takes (.captureFlow handle)
    captureAddrs addrs { v with handles := v.handles ++ [handle] }

/-- The interfaces; one whose addresses are not known is passed over. -/
def captureIfaces : List (Except NetErr (List IfaceAddr)) → Captured → Build Captured
  | [], v => pure v
  | .error _ :: ifaces, v => captureIfaces ifaces v
  | .ok addrs :: ifaces, v => do
    let v ← captureAddrs addrs v
    captureIfaces ifaces v

/-- The options of the handle of one IP, and the capture on it. -/
def captureHandle (c : ListenCalls) (handle : Nat) : Build Nat := do
  call c.syscallConn
  match c.setReusePort with
  | .error e => panics e
  | .ok () => do
    call c.setBPF
    let _ ← takes (.captureFlow handle)
    pure handle

/-- The handle of one IP; `reuseportNum` is one. -/
def captureIP (c : ListenCalls) : Build Nat := do
  call c.listenIP
  let handle ← takes .handle
  captureHandle c handle

/-- The `tcpConn` of `tcpraw.Listen`. -/
structure Listening where
  handles : List Nat
  listener : Nat

/-- `tcpraw.Listen`, once the handles are open. -/
def tcprawListenOn (c : ListenCalls) (handles : List Nat) : Build (Option Listening) := do
  call c.listenTCP
  let listener ← takes .listener
  let _ ← takes .flowCleaner
  addRstRule c.rstRule
  let _ ← takes .acceptTCP
  pure (some { handles, listener })

/-- `tcpraw.Listen` on all interfaces, after the loop over them. -/
def tcprawListenAll (c : ListenCalls) (v : Captured) : Build (Option Listening) :=
  match v.handles, v.lasterr with
  | [], some e => throw (.err e)
  | [], none => pure none
  | handles, _ => tcprawListenOn c handles

/-- `tcpraw.Listen`; it returns nil without an error where no interface has an address. -/
def tcprawListen (c : ListenCalls) : Build (Option Listening) := do
  let unspecified ← call c.resolveTCPAddr
  let ifaces ← call c.interfaces
  if unspecified then do
    let v ← captureIfaces ifaces { handles := [], lasterr := none }
    tcprawListenAll c v
  else do
    let handle ← captureIP c
    tcprawListenOn c [handle]

/-! ## `faketcp.Dial` -/

/-- The shards of `WithClientFec` and `WithListenerFec`. -/
structure FecOption where
  dataShards : Int
  parityShards : Int

/-- The options in turn. -/
def applyOptions : List FecOption → Build Unit
  | [] => pure ()
  | opt :: opts =>
    if opt.dataShards ≤ 0 ∨ opt.parityShards ≤ 0 then
      panics "fec data shards or parity shards must be greater than 0"
    else applyOptions opts

/-- What the calls in `faketcp.Dial` return. -/
structure ClientCalls where
  dial : DialCalls
  setReadBuffer : Except NetErr Unit
  setWriteBuffer : Except NetErr Unit
  /-- The address, as it prints. -/
  resolveTCPAddr : Except NetErr String

/-- `faketcp.Dial`, on what `tcpraw.Dial` returned. -/
def faketcpDialOn (c : ClientCalls) (opts : List FecOption) (conn : Dialed) : Build Dialed := do
  call c.setReadBuffer
  call c.setWriteBuffer
  let remoteAddr ← call c.resolveTCPAddr
  if conn.remoteAddr ≠ remoteAddr then
    throw (.err ("remote addr not match: fakeConn remote addr " ++ conn.remoteAddr ++ " != " ++
      remoteAddr))
  else do
    applyOptions opts
    pure conn

/-- `faketcp.Dial` -/
def faketcpDial (c : ClientCalls) (opts : List FecOption) : Build Dialed := do
  let conn ← tcprawDial c.dial
  faketcpDialOn c opts conn

/-! ## `FakeTcpListeners` -/

/-- `log.Panicln(err)` instead of the error. -/
def orPanic {α : Type} (m : Build α) : Build α := fun s =>
  match m s with
  | .error (.err e) s' => .error (.panic (.explicit (e ++ "\n"))) s'
  | r => r

/-- What the calls in `Listener.Listen` return. -/
structure FakeListenCalls where
  resolveTCPAddr : Except NetErr Unit
  listen : ListenCalls
  setReadBuffer : Except NetErr Unit
  setWriteBuffer : Except NetErr Unit

/-- `Listener.Listen`, on what `tcpraw.Listen` returned. -/
def listenerListenOn (c : FakeListenCalls) : Option Listening → Build Listening
  | none => throw (.panic .nilDeref)
  | some conn => do
    logged c.setReadBuffer
    logged c.setWriteBuffer
    let _ ← takes .acceptDataLoop
    let _ ← takes .listenerCleaner
    pure conn

/-- `Listener.Listen` -/
def listenerListen (c : FakeListenCalls) : Build Listening := do
  call c.resolveTCPAddr
  let conn ← orPanic (tcprawListen c.listen)
  listenerListenOn c conn

/-- `FakeTcpListen` -/
def fakeTcpListen (opts : List FecOption) (c : FakeListenCalls) : Build Listening := do
  applyOptions opts
  listenerListen c

/-- `FakeTcpListeners`, with the calls for each address. -/
def fakeTcpListeners (opts : List FecOption) : List FakeListenCalls → Build (List Listening)
  | [] => pure []
  | c :: cs => do
    let listener ← fakeTcpListen opts c
    let listeners ← fakeTcpListeners opts cs
    pure (listener :: listeners)

end Stack
