import TcpRaw.Fec.Fec
import TcpRaw.Lib.Trans

/-!
# Reading from a `Client` (`faketcp/client.go`, `Client.Read`)

With FEC a call of `Read` returns what `DecodeData` returns. Its `getData` reads a message from the
client's flow into a buffer of `len(b) + FecHeaderSizePlus2` bytes, and `ReadFrom` cuts off what
does not fit. Then `Read` copies the payload to `b` and reports the payload's length.

The messages of the flow that are not read yet are the `inbox`; `ReadFrom` fails where it is empty
(a deadline, or the end of the connection), and the call returns an error. A call that blocks until
further messages arrive is one that is made after them. `taken` records the messages that were read,
each with the length of the buffer `b` of the call that read it.
-/

namespace Faketcp

open GoRt

/-- `copy(b, data)`: the buffer after it. -/
def copyTo (b data : Bytes) : Bytes := data.take b.length ++ b.drop data.length

/-- `tcpConn.ReadFrom` with a buffer of `n` bytes: what it reads of a message. -/
def Arrival.readFrom (n : Nat) (a : Arrival) : Arrival := { a with data := a.data.take n }

/-- The part of a `Client` that `Read` uses. -/
structure Client where
  fec : Option Fec
  rxBytes : UInt64

/-- `NewClient` -/
def newClient (fec : Option Fec) : Client where
  fec := fec
  rxBytes := 0

/-- `Client.Read` with the buffer `b`: the reported length and the buffer after it, `none` for an
error, and the messages left. -/
def Client.read (c : Client) (b : Bytes) (inbox : List Arrival) :
    Go (Option (Nat × Bytes) × Client × List Arrival) :=
  match c.fec with
  | some fec => do
    let d ← fec.decodeData (inbox.map (Arrival.readFrom (b.length + fecHeaderSizePlus2)))
    let inbox := inbox.drop (inbox.length - d.2.2.length)
    match d.1 with
    | none => pure (none, { c with fec := some d.2.1 }, inbox)
    | some data =>
      pure (some (data.length, copyTo b data),
        { fec := some d.2.1, rxBytes := c.rxBytes + UInt64.ofNat data.length }, inbox)
  | none =>
    match inbox with
    | [] => pure (none, c, [])
    | a :: inbox =>
      let data := (a.readFrom b.length).data
      pure (some (data.length, copyTo b data),
        { c with rxBytes := c.rxBytes + UInt64.ofNat data.length }, inbox)

/-- A message that was read by a call with a buffer of `len` bytes. -/
structure Taken where
  msg : Bytes
  len : Nat

/-- A client and the messages of its flow. -/
structure Reader where
  client : Client
  inbox : List Arrival
  taken : List Taken

/-- The steps of a client. -/
inductive Reader.Event where
  /-- A message of its flow arrives. -/
  | arrive (a : Arrival)
  /-- `Read` is called. -/
  | read (b : Bytes)

/-- One step. -/
def Reader.step (r : Reader) : Reader.Event → Go Reader
  | .arrive a => pure { r with inbox := r.inbox ++ [a] }
  | .read b => do
    let res ← r.client.read b r.inbox
    let consumed := r.inbox.take (r.inbox.length - res.2.2.length)
    pure
      { client := res.2.1
        inbox := res.2.2
        taken := r.taken ++ consumed.map fun a => { msg := a.data, len := b.length } }

/-- The states that a new client reaches. -/
def Reader.Reachable (fec : Fec) : Reader → Prop :=
  Trans.Reach (· = { client := newClient (some fec), inbox := [], taken := [] }) fun r e r' =>
    r.step e = .ok r'

end Faketcp
