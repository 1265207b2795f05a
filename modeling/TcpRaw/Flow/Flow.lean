import TcpRaw.Lib.Go

/-!
# Flow entries (`tcp_linux.go`, `tcpFlow`)

A flow entry keeps the sequence numbers of one peer. `TcpFlow.capture` is the update that
`decodeTCPPacket` makes for a captured segment, `TcpFlow.emit` the segment that `WriteTo` sends and
its effect. Both run under the entry's lock. Sequence numbers are `uint32` and wrap around.
-/

namespace Tcpraw

open GoRt

/-- The fields of a TCP segment that are read or written. -/
structure Segment where
  srcPort : UInt16
  dstPort : UInt16
  SYN : Bool
  ACK : Bool
  PSH : Bool
  seq : UInt32
  ack : UInt32
  payload : Bytes
  deriving DecidableEq, Repr

/-- `tcpFlow`; kernel connections and raw handles are numbered. -/
structure TcpFlow where
  conn : Option Nat
  handle : Option Nat
  seq : UInt32
  ack : UInt32
  ts : Time
  deriving DecidableEq, Repr

/-- A new entry of `lockflow`. -/
def TcpFlow.new (now : Time) : TcpFlow where
  conn := none
  handle := none
  seq := 0
  ack := 0
  ts := now

/-- The update of `decodeTCPPacket`. -/
def TcpFlow.capture (e : TcpFlow) (tcp : Segment) (handle : Nat) (now : Time) : TcpFlow :=
  let e := { e with ts := now }
  let e := if tcp.ACK then { e with seq := tcp.ack } else e
  let e := if tcp.SYN then { e with ack := tcp.seq + 1 } else e
  let e :=
    if tcp.PSH ∧ e.ack = tcp.seq then
      { e with ack := tcp.seq + UInt32.ofNat tcp.payload.length }
    else e
  { e with handle := some handle }

/-- The segment that `WriteTo` builds from an entry. -/
def TcpFlow.segment (e : TcpFlow) (lport rport : UInt16) (p : Bytes) : Segment :=
  { srcPort := lport, dstPort := rport, SYN := false, ACK := true, PSH := true,
    seq := e.seq, ack := e.ack, payload := p }

/-- The entry after a segment with the payload `p` was sent. -/
def TcpFlow.advanced (e : TcpFlow) (p : Bytes) : TcpFlow :=
  { e with seq := e.seq + UInt32.ofNat p.length }

/-- The segment of `WriteTo`, and the entry after it was sent; `none` where the entry has no handle
yet. -/
def TcpFlow.emit (e : TcpFlow) (lport rport : UInt16) (p : Bytes) : Option (Segment × TcpFlow) :=
  match e.handle with
  | none => none
  | some _ => some (e.segment lport rport p, e.advanced p)

/-! ## What a captured segment changes -/

theorem TcpFlow.capture_conn (e : TcpFlow) (tcp : Segment) (handle : Nat) (now : Time) :
    (e.capture tcp handle now).conn = e.conn := by
  unfold TcpFlow.capture
  dsimp only
  split <;> split <;> split <;> rfl

theorem TcpFlow.capture_ts (e : TcpFlow) (tcp : Segment) (handle : Nat) (now : Time) :
    (e.capture tcp handle now).ts = now := by
  unfold TcpFlow.capture
  dsimp only
  split <;> split <;> split <;> rfl

theorem TcpFlow.capture_seq (e : TcpFlow) (tcp : Segment) (handle : Nat) (now : Time) :
    (e.capture tcp handle now).seq = if tcp.ACK then tcp.ack else e.seq := by
  unfold TcpFlow.capture
  dsimp only
  split <;> split <;> split <;> rfl

/-- The acknowledgement of a segment without SYN: it grows over a PSH segment that starts there. -/
theorem TcpFlow.capture_ack (e : TcpFlow) {tcp : Segment} (hsyn : tcp.SYN = false) (handle : Nat)
    (now : Time) :
    (e.capture tcp handle now).ack =
      if tcp.PSH ∧ e.ack = tcp.seq then tcp.seq + UInt32.ofNat tcp.payload.length else e.ack := by
  unfold TcpFlow.capture
  rw [hsyn]
  dsimp only
  cases tcp.ACK <;> simp only [Bool.false_eq_true, if_true, if_false] <;> split <;> rfl

/-- A SYN without payload resets the acknowledgement. -/
theorem TcpFlow.capture_syn (e : TcpFlow) {tcp : Segment} (hsyn : tcp.SYN = true)
    (hpsh : tcp.PSH = false) (handle : Nat) (now : Time) :
    (e.capture tcp handle now).ack = tcp.seq + 1 := by
  unfold TcpFlow.capture
  rw [hsyn, hpsh]
  rfl

end Tcpraw
