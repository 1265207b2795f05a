import TcpRaw.Flow.Conn
import TcpRaw.Listener.Listener

/-!
# The accept loop with a buffer (`faketcp/listener.go`, `acceptDataLoop`)

`acceptDataLoop` is the loop that `acceptDataLoopv2` replaced. It reads every message into one
buffer (`ReadFrom`), which keeps what earlier messages left in it, and copies the message out of the
buffer again before `Push`. Everything else is as in a listener with `acceptDataLoopv2`, and the
other goroutines are the same.
-/

namespace Faketcp

open GoRt Common

/-- Where `acceptDataLoop` is, with the length of the message in its buffer. -/
inductive BufLoop where
  | read
  | lookup (n : Nat) (src : Peer)
  | create (n : Nat) (src : Peer)
  | send (n : Nat) (src : Peer) (f : Nat)
  | insert (n : Nat) (src : Peer) (f : Nat)
  | push (n : Nat) (f : Nat)

/-- A listener with `acceptDataLoop`. -/
structure BufListener where
  /-- What the goroutines share; its own loop does not run. -/
  shared : Listener
  buf : Bytes
  loop : BufLoop

/-- The buffer has `MaxPayloadSize` bytes. -/
def BufListener.new (now : Time) : BufListener where
  shared := .new now
  buf := List.replicate Tcpraw.maxPayloadSize 0
  loop := .read

/-- `ReadFrom(buf)` for the message `bts`: the number of bytes, and the buffer after it. -/
def readFrom (buf bts : Bytes) : Nat × Bytes :=
  (min buf.length bts.length, overwrite buf 0 (bts.take buf.length))

/-- The copy of `buf[:n]` that goes to `Push`. -/
def copyOut (buf : Bytes) (n : Nat) : Bytes := buf.take n

/-- The next step of `acceptDataLoop`. -/
def BufListener.advance (s : BufListener) : Option BufListener :=
  let l := s.shared
  match s.loop with
  | .read => none
  | .lookup n src =>
    match l.connMap.lookup src.key with
    | some f => some { s with loop := .push n f }
    | none => some { s with loop := .create n src }
  | .create n src =>
    some { s with
      shared := { l with conns := l.conns ++ [newFakeConn src] }
      loop := .send n src l.conns.length }
  | .send n src f =>
    if l.connChan.length < connChanCap then
      some { s with
        shared := { l with connChan := l.connChan ++ [f], sent := f :: l.sent }
        loop := .insert n src f }
    else some { s with loop := .read }
  | .insert n src f =>
    some { s with
      shared := { l with connMap := l.connMap.insert src.key f, inserted := f :: l.inserted }
      loop := .push n f }
  | .push n f =>
    some { s with
      shared := { l with conns := l.conns.modify f (·.push l.now (copyOut s.buf n)) }
      loop := .read }

/-- One step, if it is possible. -/
def BufListener.step (s : BufListener) : Event → Option BufListener
  | .recv data src =>
    match s.loop with
    | .read =>
      let r := readFrom s.buf data
      some { s with buf := r.2, loop := .lookup r.1 src }
    | _ => none
  | .advance => s.advance
  | e => (s.shared.step e).map fun shared => { s with shared }

end Faketcp
