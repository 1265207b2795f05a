import TcpRaw.Fec.Fec

/-!
# Writing (`faketcp/client.go`, `Client.Write`; `faketcp/listener.go`, `FakeConn.Write`)

With FEC a write encodes the payload and sends its packets through `tcpConn.WriteTo`; without FEC it
sends the payload itself. `Client.Write` looks at the length first, `FakeConn.Write` does not; what
follows is the same code in both. Their results translate those of `WriteTo`: with FEC the length of
the payload stands for the count that `WriteTo` returns.

`writeTo` is the call of `WriteTo` with the remote's address, on a state `σ` of the connection
below; `Outbox` is a connection whose answers are given and that keeps what it was offered.
-/

namespace Faketcp

open GoRt

/-- The part of a `Client`, or of a `FakeConn`, that writing uses. -/
structure Writer where
  fec : Option Fec
  txBytes : UInt64

/-- Why a write fails. -/
inductive WriteError (ε : Type) where
  /-- "packet size %d > mtuLimit %d" -/
  | packetSize (size : Nat)
  /-- The error of `WriteTo`. -/
  | conn (err : ε)

/-- What a write returns, and leaves. -/
structure Written (σ ε : Type) where
  n : Nat
  err : Option (WriteError ε)
  writer : Writer
  env : σ

section
variable {σ ε : Type} (writeTo : Bytes → σ → (Nat × Option ε) × σ)

/-- The callback that `EncodeData` sends with: `WriteTo`, and the count of what it sent. -/
def countedSend (p : Bytes) (s : UInt64 × σ) : Option ε × UInt64 × σ :=
  match writeTo p s.2 with
  | ((_, some err), env) => (some err, s.1, env)
  | ((n, none), env) => (none, s.1 + UInt64.ofNat n, env)

/-- `FakeConn.WriteTo`, which `FakeConn.Write` calls with the peer's address. -/
def Writer.fakeConnWriteTo (w : Writer) (b : Bytes) (env : σ) : Go (Written σ ε) :=
  match w.fec with
  | some fec => do
    let r ← fec.encodeData (countedSend writeTo) b (w.txBytes, env)
    let writer : Writer := { fec := some r.2.1, txBytes := r.2.2.1 }
    match r.1 with
    | some err => pure { n := 0, err := some (.conn err), writer, env := r.2.2.2 }
    | none => pure { n := b.length, err := none, writer, env := r.2.2.2 }
  | none =>
    match writeTo b env with
    | ((_, some err), env) => pure { n := 0, err := some (.conn err), writer := w, env }
    | ((n, none), env) =>
      pure { n, err := none, writer := { w with txBytes := w.txBytes + UInt64.ofNat n }, env }

/-- `Client.Write` -/
def Writer.clientWrite (w : Writer) (b : Bytes) (env : σ) : Go (Written σ ε) :=
  if b.length = 0 then pure { n := 0, err := none, writer := w, env }
  else if b.length > 1530 then
    pure { n := 0, err := some (.packetSize b.length), writer := w, env }
  else w.fakeConnWriteTo writeTo b env

end

/-- A connection as its writer sees it: `answers i` is what the `i`-th call of `WriteTo` returns,
`offered` the packets of the calls so far. -/
structure Outbox (ε : Type) where
  answers : Nat → Nat × Option ε
  offered : List Bytes

/-- One call. -/
def Outbox.writeTo {ε : Type} (p : Bytes) (o : Outbox ε) : (Nat × Option ε) × Outbox ε :=
  (o.answers o.offered.length, { o with offered := o.offered ++ [p] })

end Faketcp
