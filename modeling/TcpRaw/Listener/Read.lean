import TcpRaw.Fec.Fec
import TcpRaw.Listener.Listener

/-!
# Reading from a `FakeConn` (`faketcp/listener.go`, `FakeConn.Read`)

A call of `Read` holds `readLock` to its end, so one call runs at a time; it shares `recvch` with
the `Push` of the accept loop. A call returns from `recvLeft` while something is left there. Else it
needs a slice: one from `recvch` without FEC, what `DecodeData` returns with FEC, whose `getData`
receives from `recvch`. Where it finds `recvch` empty it waits with the lock held, and goes on with
the next slice: each receive is one step. Nothing closes `recvch`, so a receive does not fail;
`fecTest` is false.

The last fields of `Reading` are what happened so far.
-/

namespace Faketcp

open GoRt Common

/-- What a call of `Read` with a buffer of `len` bytes returned: `n`, and the first `n` bytes of the
buffer. -/
structure ReadResult where
  len : Nat
  n : Nat
  data : Bytes
  deriving DecidableEq, Repr

/-- A `FakeConn` with what `Read` uses. -/
structure Reading where
  conn : FakeConn
  recvLeft : Bytes
  rxBytes : UInt64
  fec : Option Fec
  /-- The buffer length of the call that waits for a slice. -/
  waiting : Option Nat
  /-- The slices that `Push` put on `recvch`. -/
  accepted : List Bytes
  /-- The slices that `Push` dropped. -/
  refused : List Bytes
  /-- The slices that were received from `recvch`, each with the pool buffer of its packet. -/
  received : List Arrival
  /-- The slices that `DecodeData` returned. -/
  decoded : List Bytes
  /-- What the calls of `Read` returned. -/
  reads : List ReadResult

/-- A new `FakeConn`. -/
def Reading.new (addr : Peer) (fec : Option Fec) : Reading where
  conn := newFakeConn addr
  recvLeft := []
  rxBytes := 0
  fec := fec
  waiting := none
  accepted := []
  refused := []
  received := []
  decoded := []
  reads := []

/-- `FakeConn.Push` -/
def Reading.push (r : Reading) (now : Time) (b : Bytes) : Reading :=
  if r.conn.recvch.length < recvchCap then
    { r with conn := r.conn.push now b, accepted := r.accepted ++ [b] }
  else { r with conn := r.conn.push now b, refused := r.refused ++ [b] }

/-- A call returns: `copy` wrote the first bytes of `data` to its buffer. -/
def Reading.ret (r : Reading) (len : Nat) (data : Bytes) : Reading :=
  let n := min len data.length
  { r with
    rxBytes := r.rxBytes + UInt64.ofNat n
    waiting := none
    reads := r.reads ++ [{ len, n, data := data.take n }] }

/-- The end of a call that got the slice `data`. -/
def Reading.finish (r : Reading) (len : Nat) (data : Bytes) : Reading :=
  let n := min len data.length
  { r.ret len data with recvLeft := if n < data.length then data.drop n else r.recvLeft }

/-- A call waits for the next slice. -/
def Reading.wait (r : Reading) (len : Nat) : Reading := { r with waiting := some len }

/-- The call that waits has received a slice. -/
def Reading.recv (r : Reading) (a : Arrival) (recvch : List Bytes) : Reading :=
  { r with conn := { r.conn with recvch }, received := r.received ++ [a] }

/-- `DecodeData` has left the `Fec` as `fec`, and returned `data`. -/
def Reading.decode (r : Reading) (fec : Fec) (data : Option Bytes) : Reading :=
  { r with fec := some fec, decoded := r.decoded ++ data.toList }

/-- `DecodeData` in a call, with the slices that `getData` returns before it waits again. -/
def Reading.decodeData (r : Reading) (len : Nat) (fec : Fec) (slices : List Arrival) :
    Go Reading := do
  let d ← fec.decodeData slices
  match d.1 with
  | none => pure ((r.decode d.2.1 none).wait len)
  | some data => pure ((r.decode d.2.1 (some data)).finish len data)

/-- `FakeConn.Read`, up to its first receive. -/
def Reading.read (r : Reading) (len : Nat) : Go Reading :=
  if r.recvLeft.length > 0 then
    pure { r.ret len r.recvLeft with recvLeft := r.recvLeft.drop (min len r.recvLeft.length) }
  else
    match r.fec with
    | none => pure (r.wait len)
    | some fec => r.decodeData len fec []

/-- `FakeConn.Read`, from a receive on. -/
def Reading.receive (r : Reading) (len : Nat) (a : Arrival) : Go Reading :=
  match r.fec with
  | none => pure (r.finish len a.data)
  | some fec => r.decodeData len fec [a]

/-- The steps on a `FakeConn`. -/
inductive Reading.Event where
  /-- The accept loop calls `Push`. -/
  | push (now : Time) (b : Bytes)
  /-- `Read` is called with a buffer of `len` bytes. -/
  | read (len : Nat)
  /-- The call that waits receives a slice; `buf` is what the pool gives for its packet. -/
  | receive (buf : PoolBuf)

/-- One step. A call has to wait for `readLock`, and a receive for a slice. -/
def Reading.step (r : Reading) : Reading.Event → Go Reading
  | .push now b => pure (r.push now b)
  | .read len =>
    match r.waiting with
    | none => r.read len
    | some _ => pure r
  | .receive buf =>
    match r.waiting, r.conn.recvch with
    | some len, b :: recvch => (r.recv ⟨b, buf⟩ recvch).receive len ⟨b, buf⟩
    | _, _ => pure r

/-- The states that the calls and receives on a new `FakeConn` reach, in any interleaving. -/
def Reading.Reachable (addr : Peer) (fec : Option Fec) : Reading → Prop :=
  Trans.Reach (· = Reading.new addr fec) fun r e r' => r.step e = .ok r'

end Faketcp
