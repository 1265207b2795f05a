import TcpRaw.Listener.History
import TcpRaw.Stack.Stack

/-!
# The way of a payload, from the raw socket to the application

A connection with a `faketcp.Listener` on top, together with what happened on it: the segments that
`decodeTCPPacket` took up, the segments with data that it dropped, and the history of the listener.
As with the listener's own history, nothing reads it: `Path.state` ranges over the runs of the
connection whose messages come from addresses with a port of a TCP header.
-/

namespace Stack

open GoRt Tcpraw

/-- The key of the flow of a listener's peer. -/
def flowKey (k : Common.AddrKey) : AddrKey := { dip := k.ip, dport := k.port }

/-- A segment with data that was not put on `chMessage`, and the `tcpConn` at that time. -/
structure Loss where
  key : AddrKey
  tcp : Segment
  /-- The flow was not bound to a kernel connection. -/
  orphan : Bool
  /-- `die` is closed. -/
  closed : Bool
  /-- The number of messages on `chMessage`. -/
  waiting : Nat

/-- A connection with its history. -/
structure Path where
  state : State
  /-- The listener on top. -/
  traced : Faketcp.Traced
  /-- The segments for the listening port, each with the key of its source, in the order in which
  they were taken up. -/
  segments : List (AddrKey × Segment)
  losses : List Loss

def Config.path (cfg : Config) (now : Time) : Path where
  state := cfg.init now
  traced := .new now
  segments := []
  losses := []

/-- The segment that a step takes up. -/
def State.takes (cfg : Config) (s : State) : Event → Option (AddrKey × Segment)
  | .capture .decode =>
    match s.capture with
    | .running (.ipv4 ip tcp :: _) =>
      if tcp.dstPort = cfg.port then some ({ dip := ip, dport := tcp.srcPort }, tcp) else none
    | _ => none
  | _ => none

/-- The segment with data that a step drops. -/
def State.drops (s : State) : Event → Option Loss
  | .capture .discard =>
    match s.server.captures with
    | c :: _ =>
      if c.tcp.PSH then
        some
          { key := c.key
            tcp := c.tcp
            orphan := decide (c.stage = .updated true)
            closed := s.server.conn.die
            waiting := s.server.conn.chMessage.length }
      else none
    | [] => none
  | _ => none

/-- The step of the listener on top. -/
def State.topEvent (s : State) : Event → Option Faketcp.Event
  | .recv src => s.server.conn.chMessage.head?.map fun m => .recv m.bts src
  | .listener e => some e
  | _ => none

/-- The listener's history after a step of the connection. -/
def Path.tracedStep (p : Path) (e : Event) : Option Faketcp.Traced :=
  match p.state.topEvent e with
  | some e' => p.traced.step e'
  | none => some p.traced

/-- One step of the connection, with its record. -/
def Path.step (cfg : Config) (p : Path) (e : Event) : Option Path := do
  let state ← p.state.step cfg e
  let traced ← p.tracedStep e
  pure
    { state
      traced
      segments := p.segments ++ (p.state.takes cfg e).toList
      losses := p.losses ++ (p.state.drops e).toList }

/-- The histories of all runs. -/
def Path.Reachable (cfg : Config) (now : Time) : Path → Prop :=
  Trans.Reach (· = cfg.path now) fun p e q => p.step cfg e = some q

end Stack
