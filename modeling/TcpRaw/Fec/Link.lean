import TcpRaw.Fec.Fec

/-!
# A client and the lives of its peer (`faketcp/client.go`, `faketcp/listener.go`)

A `Client` with FEC keeps one `Fec` while it is open. The listener's `FakeConn` for it may be closed
or expire, and the next message from the client's address builds a new one, whose `NewFec` numbers
from 0 (`Link.Event.renew`). The server writes payloads through its current `Fec`; any packet that a
send call took may reach the client's `Read`, any number of times and in any order.

`past` and `cur` record the payloads that the server passed to its `Fec`s, one list for each.
-/

namespace Faketcp

open GoRt Erasure

/-- A client, and the server's side of its flow. -/
structure Link where
  server : Fec
  client : Fec
  wire : Wire
  /-- The payloads of the `Fec`s before the current one. -/
  past : List (List Bytes)
  /-- The payloads of the current `Fec`. -/
  cur : List Bytes
  /-- What the client's reads returned. -/
  got : List Bytes

/-- What happens on a link. -/
inductive Link.Event where
  /-- The server writes a payload. -/
  | write (b : Bytes)
  /-- The server's `FakeConn` is gone, and a new one is built for the same address. -/
  | renew
  /-- The client reads, with `a` the next message of its flow. -/
  | read (a : Arrival)

/-- A new client and a new `FakeConn`. -/
def Link.new (fec : Fec) (fails : Nat → Bool) : Link where
  server := fec
  client := fec
  wire := Wire.new fails
  past := []
  cur := []
  got := []

/-- One step, with the shards and the codec library of both sides. -/
def Link.step (rs : Nat → Nat → Option (Codec UInt8)) (d p : Nat) (l : Link) :
    Link.Event → Go Link
  | .write b => do
    let (_, server, wire) ← l.server.encodeData Wire.send b l.wire
    pure { l with server, wire, cur := l.cur ++ [b] }
  | .renew =>
    match newFec rs d p 0 with
    | some server => pure { l with server, past := l.cur :: l.past, cur := [] }
    | none => .error .nilDeref
  | .read a => do
    let (data, client, _) ← l.client.decodeData [a]
    pure { l with client, got := l.got ++ data.toList }

/-- Where a link starts. -/
def Link.Start (rs : Nat → Nat → Option (Codec UInt8)) (d p : Nat) (l : Link) : Prop :=
  ∃ fec fails, newFec rs d p 0 = some fec ∧ l = Link.new fec fails

/-- The payloads of each `Fec` of the server. -/
def Link.lives (l : Link) : List (List Bytes) := l.cur :: l.past

/-- The events that can happen: payloads that fit the pool's buffers, messages that were sent. -/
def Link.Possible (l : Link) : Link.Event → Prop
  | .write b => b.length ≤ mtuLimit - 8
  | .renew => True
  | .read a => a.data ∈ l.wire.sent

instance (l : Link) (e : Link.Event) : Decidable (l.Possible e) :=
  match e with
  | .write b => inferInstanceAs (Decidable (b.length ≤ mtuLimit - 8))
  | .renew => inferInstanceAs (Decidable True)
  | .read a => inferInstanceAs (Decidable (a.data ∈ l.wire.sent))

end Faketcp
