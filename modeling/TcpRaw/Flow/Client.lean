import TcpRaw.Flow.Conn

/-!
# A dialed `tcpConn`

A `tcpConn` of `Dial` has one shard. `Dial` makes the entry of the remote and binds it to its kernel
connection; then segments are captured, `WriteTo` is called and the cleaner ticks, in any order and
at any times. The raw handle is connected to the remote's address, so the source of a captured
segment differs from the remote in its port at most.
-/

namespace Tcpraw

open GoRt

/-- What `Dial` fixes. -/
structure Client where
  lport : UInt16
  remote : AddrKey
  tcpconn : Nat
  handle : Nat

/-- `Dial` -/
def Client.dial (c : Client) (now : Time) : TcpConn :=
  let (e, conn) := (TcpConn.new 1 Nat.one_pos).lockflow c.remote now
  conn.modifyFlow e fun flow => { flow with conn := some c.tcpconn }

/-- What happens to a dialed `tcpConn` before `Close`. -/
inductive ClientEvent where
  | capture (tcp : Segment) (now : Time)
  | writeTo (p : Bytes) (addr : AddrKey)
  /-- The cleaner ticks; `clock` are its readings. -/
  | tick (clock : AddrKey → Time)

/-- `decodeTCPPacket` on the handle of a client. -/
def Client.decode (c : Client) (conn : TcpConn) (tcp : Segment) (now : Time) : Verdict × TcpConn :=
  conn.decodeTCPPacket c.lport c.handle c.remote.dip tcp now

/-- One event. -/
def Client.step (c : Client) (conn : TcpConn) : ClientEvent → TcpConn
  | .capture tcp now => (c.decode conn tcp now).2
  | .writeTo p addr => (conn.writeTo c.lport p addr).2
  | .tick clock => conn.clean clock

/-- The segment is from the remote, and for this client. -/
def Client.FromRemote (c : Client) (tcp : Segment) : Prop :=
  tcp.dstPort = c.lport ∧ tcp.srcPort = c.remote.dport

instance (c : Client) (tcp : Segment) : Decidable (c.FromRemote tcp) :=
  inferInstanceAs (Decidable (_ ∧ _))

/-- The entry of the remote, if the table holds one, is bound to a kernel connection. -/
def Client.Bound (c : Client) (conn : TcpConn) : Prop :=
  ∀ e, conn.table.lookup c.remote = some e →
    ∃ flow, conn.flows[e]? = some (c.remote, flow) ∧ flow.conn ≠ none

/-! ## The inputs -/

/-- When an event heard the remote. -/
def Client.heard (c : Client) : ClientEvent → Option Time
  | .capture tcp now => if c.FromRemote tcp then some now else none
  | _ => none

/-- When the remote was last heard, in a run that dialed at `t₀`. -/
def Client.lastSeen (c : Client) (t₀ : Time) (es : List ClientEvent) : Time :=
  es.foldl (fun t e => (c.heard e).getD t) t₀

/-- The cleaner ticked when the remote had been silent for longer than `expire`, and the remote was
not heard since. -/
def Client.Expired (c : Client) (t₀ : Time) (es : List ClientEvent) : Prop :=
  ∃ pre clock post, es = pre ++ .tick clock :: post ∧
    c.lastSeen t₀ pre + expire < clock c.remote ∧ ∀ e ∈ post, c.heard e = none

/-! ## The entry of the remote as a lease -/

/-- What the cleaner and the orphan test see of an entry. -/
structure Lease where
  conn : Option Nat
  ts : Time

/-- The lease of a key. -/
def TcpConn.lease (conn : TcpConn) (k : AddrKey) : Option Lease :=
  (conn.table.lookup k).bind fun e =>
    (conn.flows[e]?).map fun x => { conn := x.2.conn, ts := x.2.ts }

/-- An event, as the lease of the remote sees it: the remote renews the lease, or opens a new one
that is not bound; the cleaner ends it. -/
def Client.renew (c : Client) (l : Option Lease) : ClientEvent → Option Lease
  | .capture tcp now =>
    if c.FromRemote tcp then some { conn := l.bind (·.conn), ts := now } else l
  | .writeTo _ _ => l
  | .tick clock => l.filter fun l => decide (clock c.remote ≤ l.ts + expire)

end Tcpraw
