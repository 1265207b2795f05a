import TcpRaw.Flow.Flow
import TcpRaw.Lib.Trans

/-!
# Two endpoints and the network between them

The flow entries of the two ends of a connection, after both captured the handshake. A side sends
the segments that `WriteTo` emits; the network may deliver any of them to the other side, at any
time and any number of times, and also the segments of the handshake: the SYN and the final ACK of
side `a`, the SYN-ACK of side `b`.
-/

namespace Tcpraw

open GoRt

/-- The two ends: `a` opened the connection. -/
inductive Side where
  | a
  | b
  deriving DecidableEq, Repr

/-- The other end. -/
def Side.peer : Side → Side
  | .a => .b
  | .b => .a

/-- The initial sequence numbers and the ports of a connection. -/
structure Pair where
  isn : Side → UInt32
  port : Side → UInt16

/-- The first sequence number of a side's data. -/
def Pair.base (c : Pair) (x : Side) : UInt32 := c.isn x + 1

/-- A segment of the handshake sent by side `x`. -/
def Pair.control (c : Pair) (x : Side) (SYN ACK : Bool) (seq ack : UInt32) : Segment :=
  { srcPort := c.port x, dstPort := c.port x.peer, SYN, ACK, PSH := false, seq, ack, payload := [] }

/-- The segments of the handshake that side `x` sent. -/
def Pair.handshake (c : Pair) : Side → List Segment
  | .a => [c.control .a true false (c.isn .a) 0, c.control .a false true (c.base .a) (c.base .b)]
  | .b => [c.control .b true true (c.isn .b) (c.base .a)]

/-- The entries of both sides and all segments that each side's `WriteTo` emitted. -/
structure PairState where
  flow : Side → TcpFlow
  sent : Side → List Segment

/-- After the handshake: each side's `seq` is its own first number and `ack` the other's. -/
def Pair.Start (c : Pair) (s : PairState) : Prop :=
  ∀ x, (s.flow x).seq = c.base x ∧ (s.flow x).ack = c.base x.peer ∧ s.sent x = []

/-- The segments that the network may deliver to side `x`. -/
def Pair.inFlight (c : Pair) (s : PairState) (x : Side) : List Segment :=
  c.handshake x.peer ++ s.sent x.peer

/-- What happens at the two ends. -/
inductive PairEvent where
  /-- Side `x` writes a payload that is not empty. -/
  | write (x : Side) (p : Bytes)
  /-- Side `x` captures a segment. -/
  | deliver (x : Side) (tcp : Segment) (handle : Nat) (now : Time)

/-- One step. -/
inductive Pair.Step (c : Pair) : PairState → PairEvent → PairState → Prop
  | write {s : PairState} {x : Side} {p : Bytes} {tcp : Segment} {e : TcpFlow} : p ≠ [] →
      (s.flow x).emit (c.port x) (c.port x.peer) p = some (tcp, e) →
      c.Step s (.write x p)
        { flow := Function.update s.flow x e
          sent := Function.update s.sent x (s.sent x ++ [tcp]) }
  | deliver {s : PairState} {x : Side} {tcp : Segment} (handle : Nat) (now : Time) :
      tcp ∈ c.inFlight s x →
      c.Step s (.deliver x tcp handle now)
        { s with flow := Function.update s.flow x ((s.flow x).capture tcp handle now) }

end Tcpraw
