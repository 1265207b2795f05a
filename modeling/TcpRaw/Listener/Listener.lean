import TcpRaw.Common.AddrKey
import TcpRaw.Lib.GoMap
import TcpRaw.Lib.Trans

/-!
# The listener (`faketcp/listener.go`)

A `Listener` turns the messages of one `tcpConn` into one `FakeConn` per peer. Its goroutines share
`connMap` and `delayMap` under one lock: the accept loop (`acceptDataLoopv2`) looks the sender of a
message up, creates a `FakeConn`, hands it to the application and only then inserts it; an
application's `Close` schedules the deletion of its key; the cleaner deletes the keys that are due,
and closes idle `FakeConn`s; `Listener.Close` closes all that are left.

Each critical section is one step. `FakeConn`s are numbered in the order of their creation. A close
is two steps: it sets `closed`, and then takes the listener's lock. Closes in flight and the
`FakeConn`s that a sweep collected are not tied to a goroutine, so the model has every interleaving
of the code.
-/

namespace Faketcp

open GoRt Common

/-- The part of a `FakeConn` that the listener's goroutines share. -/
structure FakeConn where
  addr : Peer
  recvch : List Bytes
  /-- `none` is the zero time. -/
  ts : Option Time
  dropRxBytes : UInt64
  closed : Bool

/-- The capacity of `recvch`. -/
def recvchCap : Nat := 2048

/-- The capacity of `connChan`. -/
def connChanCap : Nat := 1024

/-- `newFakeConn` -/
def newFakeConn (addr : Peer) : FakeConn where
  addr := addr
  recvch := []
  ts := none
  dropRxBytes := 0
  closed := false

/-- `FakeConn.Push` -/
def FakeConn.push (f : FakeConn) (now : Time) (b : Bytes) : FakeConn :=
  if f.recvch.length < recvchCap then { f with recvch := f.recvch ++ [b], ts := some now }
  else { f with dropRxBytes := f.dropRxBytes + UInt64.ofNat b.length }

/-- The expiry test of the cleaner: `time.Since(fc.ts) > time.Minute`. -/
def FakeConn.expired (f : FakeConn) (now : Time) : Bool :=
  match f.ts with
  | none => true
  | some ts => ts + 60 * second < now

/-- Where the accept loop is, with the message it handles. -/
inductive Loop where
  | read
  | lookup (data : Bytes) (src : Peer)
  | create (data : Bytes) (src : Peer)
  | send (data : Bytes) (src : Peer) (f : Nat)
  | insert (data : Bytes) (src : Peer) (f : Nat)
  | push (data : Bytes) (f : Nat)

/-- The second critical section of a close: the deletion, or its schedule. -/
inductive CloseKind where
  | immediately
  | delayed (t : Time)

/-- The state that the goroutines of a listener share, and what happened so far. -/
structure Listener where
  now : Time
  conns : List FakeConn
  connMap : GoMap AddrKey Nat
  delayMap : GoMap Nat Time
  connChan : List Nat
  loop : Loop
  /-- The closes that set `closed` and have yet to take the lock. -/
  closing : GoMap Nat CloseKind
  /-- The `FakeConn`s that the expiry sweep or `closeAllFakeConns` will close. -/
  targets : List Nat
  /-- `l.ctx` is cancelled. -/
  cancelled : Bool
  /-- The cleaner has returned. -/
  cleanerDone : Bool
  /-- The `FakeConn`s that `Accept` returned. -/
  accepted : List Nat
  /-- The `FakeConn`s that were sent on `connChan`. -/
  sent : List Nat
  /-- The `FakeConn`s that were inserted in `connMap`. -/
  inserted : List Nat

/-- A listener that has just started. -/
def Listener.new (now : Time) : Listener where
  now := now
  conns := []
  connMap := ∅
  delayMap := ∅
  connChan := []
  loop := .read
  closing := ∅
  targets := []
  cancelled := false
  cleanerDone := false
  accepted := []
  sent := []
  inserted := []

/-- The key of a `FakeConn`. -/
def Listener.key (l : Listener) (f : Nat) : Option AddrKey := (l.conns[f]?).map fun c => c.addr.key

/-- The steps. -/
inductive Event where
  /-- Time passes. -/
  | tick (t : Time)
  /-- `ReadFromv2` returns a message to the accept loop. -/
  | recv (data : Bytes) (src : Peer)
  /-- The accept loop's next step with the message. -/
  | advance
  /-- `Accept` returns a `FakeConn`. -/
  | accept
  /-- A `Read` receives from `recvch`. -/
  | take (f : Nat)
  /-- The application calls `FakeConn.Close`. -/
  | close (f : Nat)
  /-- A collected `FakeConn` is closed: `close(true)`. -/
  | closeTarget (f : Nat)
  /-- A close in flight takes the lock. -/
  | finish (f : Nat)
  /-- The delayed-delete sweep; `clock` are its readings. -/
  | delaySweep (clock : Nat → Time)
  /-- The expiry sweep collects; `clock` are its readings. -/
  | expireSweep (clock : Nat → Time)
  /-- `FatchOneFakeConn` returns the entry at a key. -/
  | fetch (k : AddrKey)
  /-- `Listener.Close` cancels `l.ctx`. -/
  | cancel
  /-- The cleaner sees that `l.ctx` is done. -/
  | cleanerExit

/-- The accept loop's next step. -/
def Listener.advance (l : Listener) : Option Listener :=
  match l.loop with
  | .read => none
  | .lookup data src =>
    match l.connMap.lookup src.key with
    | some f => some { l with loop := .push data f }
    | none => some { l with loop := .create data src }
  | .create data src =>
    some { l with conns := l.conns ++ [newFakeConn src], loop := .send data src l.conns.length }
  | .send data src f =>
    if l.connChan.length < connChanCap then
      some { l with
        connChan := l.connChan ++ [f]
        sent := f :: l.sent
        loop := .insert data src f }
    else some { l with loop := .read }
  | .insert data src f =>
    some { l with
      connMap := l.connMap.insert src.key f
      inserted := f :: l.inserted
      loop := .push data f }
  | .push data f => some { l with conns := l.conns.modify f (·.push l.now data), loop := .read }

/-- The first critical section of `FakeConn.close`. -/
def Listener.beginClose (l : Listener) (f : Nat) (kind : CloseKind) : Listener :=
  match l.conns[f]? with
  | some c =>
    if c.closed then l
    else { l with
      conns := l.conns.set f { c with closed := true }
      closing := l.closing.insert f kind }
  | none => l

/-- The second critical section of `FakeConn.close`: `deleteFakeConn` or `deleteFakeConnDelay`. -/
def Listener.finishClose (l : Listener) (f : Nat) : Option Listener :=
  match l.closing.lookup f with
  | some .immediately =>
    some { l with
      connMap := GoMap.eraseAll l.connMap ([f].filterMap l.key)
      closing := l.closing.erase f }
  | some (.delayed t) =>
    some { l with delayMap := l.delayMap.insert f t, closing := l.closing.erase f }
  | none => none

/-- The latest of the readings that a sweep over `fs` makes. -/
def lastReading (clock : Nat → Time) (now : Time) (fs : List Nat) : Time :=
  fs.foldl (fun t f => max t (clock f)) now

/-- The `FakeConn`s whose delayed deletion is due. -/
def Listener.due (l : Listener) (clock : Nat → Time) : List Nat :=
  (l.delayMap.entries.filter fun e => decide (e.2 < clock e.1)).map (·.1)

/-- The `FakeConn`s in `connMap` that have expired. -/
def Listener.idle (l : Listener) (clock : Nat → Time) : List Nat :=
  (l.connMap.entries.map (·.2)).filter fun f =>
    match l.conns[f]? with
    | some c => c.expired (clock f)
    | none => false

/-- The `FakeConn`s whose keys a step deletes from `connMap`. -/
def Listener.deletions (l : Listener) : Event → List Nat
  | .finish f =>
    match l.closing.lookup f with
    | some .immediately => [f]
    | _ => []
  | .delaySweep clock => l.due clock
  | _ => []

/-- One step, if it is possible. -/
def Listener.step (l : Listener) : Event → Option Listener
  | .tick t => if l.now ≤ t then some { l with now := t } else none
  | .recv data src =>
    match l.loop with
    | .read => some { l with loop := .lookup data src }
    | _ => none
  | .advance => l.advance
  | .accept =>
    match l.connChan with
    | [] => none
    | f :: connChan => some { l with connChan, accepted := f :: l.accepted }
  | .take f =>
    if f ∈ l.accepted then
      some { l with conns := l.conns.modify f fun c => { c with recvch := c.recvch.tail } }
    else none
  | .close f =>
    if f ∈ l.accepted then some (l.beginClose f (.delayed (l.now + 10 * second))) else none
  | .closeTarget f =>
    if f ∈ l.targets then
      some ({ l with targets := l.targets.erase f }.beginClose f .immediately)
    else none
  | .finish f => l.finishClose f
  | .delaySweep clock =>
    if l.cleanerDone = false ∧ ∀ f ∈ l.delayMap.keys, l.now ≤ clock f then
      some { l with
        now := lastReading clock l.now l.delayMap.keys
        connMap := GoMap.eraseAll l.connMap ((l.due clock).filterMap l.key)
        delayMap := GoMap.eraseAll l.delayMap (l.due clock) }
    else none
  | .expireSweep clock =>
    if l.cleanerDone = false ∧ ∀ e ∈ l.connMap.entries, l.now ≤ clock e.2 then
      some { l with
        now := lastReading clock l.now (l.connMap.entries.map (·.2))
        targets := l.targets ++ l.idle clock }
    else none
  | .fetch k =>
    if l.cancelled then
      match l.connMap.lookup k with
      | some f => some { l with targets := l.targets ++ [f] }
      | none => none
    else none
  | .cancel => some { l with cancelled := true }
  | .cleanerExit => if l.cancelled then some { l with cleanerDone := true } else none

/-- The states that a listener can reach. -/
def Listener.Reachable (l : Listener) : Prop :=
  Trans.Reach (fun l => ∃ now, l = Listener.new now) (fun l e l' => l.step e = some l') l

/-! ## Shutdown -/

/-- `FakeConn.close(true)`: both critical sections, or nothing if it is closed. -/
def Listener.closeNow (l : Listener) (f : Nat) : Listener :=
  match l.conns[f]? with
  | some c => if c.closed then l else ((l.beginClose f .immediately).finishClose f).getD l
  | none => l

/-- `FatchOneFakeConn`: the entry that the map iteration visits first, which `i` chooses. -/
def Listener.fatchOneFakeConn (l : Listener) (i : Nat) : Option Nat :=
  (l.connMap.entries[i % l.connMap.entries.length]?).map (·.2)

/-- `closeAllFakeConns` from iteration `i` on, for at most `n` iterations; `pick` are the choices of
the map iterations. `none` if the loop has not ended by then. -/
def Listener.closeAllFakeConns (pick : Nat → Nat) : Nat → Nat → Listener → Option Listener
  | 0, _, _ => none
  | n + 1, i, l =>
    match l.fatchOneFakeConn (pick i) with
    | none => some l
    | some f => closeAllFakeConns pick n (i + 1) (l.closeNow f)

end Faketcp
