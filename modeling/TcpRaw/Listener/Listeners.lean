import TcpRaw.Listener.Listener

/-!
# Several listeners as one (`faketcp/listeners.go`)

`Listeners` listens on several addresses. The first call of `Accept` starts a goroutine per
listener, which calls that listener's `Accept` until it fails and sends each `FakeConn` on one
channel; `Accept` receives from the channel. `Listeners.Close` closes the listeners one after the
other, and cancels nothing of its own: `l.ctx` is done only when the context of the caller is, and
the contexts of the listeners, which derive from it, are done after that at the latest. So a
listener's `cancel` may come at any time.

`Listener.Close` also closes the listener's `tcpConn`. From then on `ReadFromv2` may return `io.EOF`
(it may still return a message that is on `chMessage`), and the accept loop panics. Its deferred
calls run before the process ends, and the other goroutines go on until it does.
-/

namespace Faketcp

open GoRt Common

/-- Where the goroutine that forwards from a listener is. -/
inductive Forwarder where
  /-- It is in the listener's `Accept`. -/
  | accepting
  /-- It sends a `FakeConn` on the channel. -/
  | sending (f : Nat)
  | returned
  deriving DecidableEq, Repr

/-- A listener's `tcpConn`, and what its accept loop read from it. -/
inductive ConnPhase where
  | opened
  /-- `die` is closed. -/
  | closed
  /-- `ReadFromv2` returned `io.EOF`, and the accept loop panics. -/
  | eof
  deriving DecidableEq, Repr

/-- A listener with the goroutine that forwards from it. -/
structure Branch where
  listener : Listener
  forwarder : Forwarder
  conn : ConnPhase

/-- `Listeners`. A `FakeConn` is named by the position of its listener and its number there. -/
structure Listeners where
  branches : List Branch
  /-- `once` has run: the goroutines are there. -/
  once : Bool
  connChan : List (Nat × Nat)
  /-- `l.ctx` is done. -/
  cancelled : Bool
  /-- The `FakeConn`s that `Accept` returned, in order. -/
  returned : List (Nat × Nat)
  /-- A panic has ended the process. -/
  ended : Bool

/-- The capacity of `connChan`. -/
def listenersChanCap : Nat := 1024

/-- `FakeTcpListeners` on `n` addresses. -/
def fakeTcpListeners (n : Nat) (now : Time) : Listeners where
  branches := List.replicate n ⟨.new now, .accepting, .opened⟩
  once := false
  connChan := []
  cancelled := false
  returned := []
  ended := false

/-- The steps. -/
inductive ListenersEvent where
  /-- A step of the `i`-th listener, other than its `Accept`. -/
  | listener (i : Nat) (e : Event)
  /-- `Close` of the `i`-th listener closes its `tcpConn`. -/
  | closeConn (i : Nat)
  /-- `ReadFromv2` returns `io.EOF` to the `i`-th accept loop, which panics. -/
  | eof (i : Nat)
  /-- The deferred calls of the `i`-th accept loop are over: the panic ends the process. -/
  | crash (i : Nat)
  /-- A first `Accept` starts the goroutines. -/
  | start
  /-- The `i`-th goroutine receives a `FakeConn` from its listener. -/
  | fetch (i : Nat)
  /-- The `i`-th listener's `Accept` fails. -/
  | stop (i : Nat)
  /-- The `i`-th goroutine sends its `FakeConn` on the channel. -/
  | send (i : Nat)
  /-- `Accept` returns a `FakeConn`. -/
  | accept
  /-- `Accept` returns the error "listeners context done". -/
  | fail
  /-- `l.ctx` is done. -/
  | cancel

/-- The application has a `FakeConn` once `Accept` returned it; the goroutines alone call a
listener's `Accept`; and an accept loop that panics reads no more. -/
def Listeners.allows (ls : Listeners) (i : Nat) (conn : ConnPhase) : Event → Bool
  | .accept => false
  | .recv _ _ => decide (conn ≠ .eof)
  | .take f | .close f => decide ((i, f) ∈ ls.returned)
  | _ => true

/-- `ls` with `b` for its `i`-th branch. -/
def Listeners.setBranch (ls : Listeners) (i : Nat) (b : Branch) : Listeners :=
  { ls with branches := ls.branches.set i b }

/-- One step of a process that runs, if it is possible. -/
def Listeners.act (ls : Listeners) : ListenersEvent → Option Listeners
  | .listener i e =>
    match ls.branches[i]? with
    | some b =>
      if ls.allows i b.conn e then
        (b.listener.step e).map fun listener => ls.setBranch i { b with listener }
      else none
    | none => none
  | .closeConn i =>
    match ls.branches[i]? with
    | some ⟨l, forwarder, .opened⟩ =>
      -- `Close` cancels the context first
      if l.cancelled then some (ls.setBranch i ⟨l, forwarder, .closed⟩) else none
    | _ => none
  | .eof i =>
    match ls.branches[i]? with
    | some ⟨l, forwarder, .closed⟩ =>
      match l.loop with
      | .read => some (ls.setBranch i ⟨l, forwarder, .eof⟩)
      | _ => none
    | _ => none
  | .crash i =>
    match ls.branches[i]? with
    | some ⟨_, _, .eof⟩ => some { ls with ended := true }
    | _ => none
  | .start => some { ls with once := true }
  | .fetch i =>
    match ls.branches[i]? with
    | some ⟨l, .accepting, conn⟩ =>
      if ls.once then
        l.connChan.head?.bind fun f => (l.step .accept).map fun l =>
          ls.setBranch i ⟨l, .sending f, conn⟩
      else none
    | _ => none
  | .stop i =>
    match ls.branches[i]? with
    | some ⟨l, .accepting, conn⟩ =>
      if ls.once ∧ l.cancelled then some (ls.setBranch i ⟨l, .returned, conn⟩) else none
    | _ => none
  | .send i =>
    match ls.branches[i]? with
    | some ⟨l, .sending f, conn⟩ =>
      if ls.connChan.length < listenersChanCap then
        some { ls.setBranch i ⟨l, .accepting, conn⟩ with connChan := ls.connChan ++ [(i, f)] }
      else none
    | _ => none
  | .accept =>
    match ls.connChan with
    | [] => none
    | x :: connChan =>
      if ls.once then some { ls with connChan, returned := ls.returned ++ [x] } else none
  | .fail => if ls.once ∧ ls.cancelled then some ls else none
  | .cancel => some { ls with cancelled := true }

/-- One step, if it is possible. -/
def Listeners.step (ls : Listeners) (e : ListenersEvent) : Option Listeners :=
  if ls.ended then none else ls.act e

/-- The states that `Listeners` on `n` addresses can reach. -/
def Listeners.Reachable (n : Nat) (now : Time) : Listeners → Prop :=
  Trans.Reach (· = fakeTcpListeners n now) fun ls e ls' => ls.step e = some ls'

end Faketcp
