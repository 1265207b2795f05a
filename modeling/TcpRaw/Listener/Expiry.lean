import TcpRaw.Listener.Listener

/-!
# The expiry of idle `FakeConn`s (`faketcp/listener.go`, `Listener.cleaner`)

The cleaner collects under the lock the `FakeConn`s of `connMap` whose `ts` is more than a minute
old, and closes them after it has given the lock back. `ts` is the time of the last `Push` that
found room in `recvch`; it is zero until the first.

A `Timed` is a listener together with the times of its inserts and of its accepted `Push`es, the
`FakeConn`s that the cleaner has collected and has yet to close, and what it closed. The listener's
own steps do not tell the cleaner's closes from those of `Listener.Close`; here the cleaner's are a
step of their own (`TimedEvent.expire`).
-/

namespace Faketcp

open GoRt Common

/-- `expire` of the cleaner: `time.Minute`. -/
def expireAfter : Time := 60 * second

/-- A `FakeConn` that the cleaner closed. -/
structure ExpiryClose where
  conn : Nat
  time : Time
  /-- When it was inserted in `connMap`. -/
  insertedAt : Option Time
  /-- When it had last accepted a `Push`. -/
  pushedAt : Option Time
  deriving DecidableEq, Repr

/-- It was inserted, and had last accepted a `Push`, more than a minute before. -/
def ExpiryClose.Idle (c : ExpiryClose) : Prop :=
  (∃ t, c.insertedAt = some t ∧ t + expireAfter < c.time) ∧
    ∃ t, c.pushedAt = some t ∧ t + expireAfter < c.time

/-- A listener with its times; the lists have the newest first. -/
structure Timed where
  l : Listener
  insertedAt : List (Nat × Time)
  pushedAt : List (Nat × Time)
  /-- `deleteFcs`: what the cleaner has yet to close. -/
  expiring : List Nat
  closes : List ExpiryClose

def Timed.new (now : Time) : Timed where
  l := Listener.new now
  insertedAt := []
  pushedAt := []
  expiring := []
  closes := []

/-- The steps. -/
inductive TimedEvent where
  /-- Any but the cleaner's closes. -/
  | step (e : Event)
  /-- The cleaner closes a `FakeConn` that it has collected. -/
  | expire (f : Nat)

/-- What the accept loop's next step, to `l'`, adds to the times. -/
def Timed.recordAdvance (t : Timed) (l' : Listener) : Timed :=
  match t.l.loop with
  | .insert _ _ f => { t with l := l', insertedAt := (f, t.l.now) :: t.insertedAt }
  | .push _ f =>
    match t.l.conns[f]?, l'.conns[f]? with
    | some before, some after =>
      -- the call put something in `recvch`
      if before.recvch.length < after.recvch.length then
        { t with l := l', pushedAt := (f, t.l.now) :: t.pushedAt }
      else { t with l := l' }
    | _, _ => { t with l := l' }
  | _ => { t with l := l' }

/-- What a step to `l'` adds. -/
def Timed.record (t : Timed) (l' : Listener) : Event → Timed
  | .advance => t.recordAdvance l'
  | .expireSweep clock => { t with l := l', expiring := t.expiring ++ t.l.idle clock }
  | _ => { t with l := l' }

/-- What a close by the cleaner, to `l'`, adds; a `FakeConn` that is closed already stays so. -/
def Timed.recordExpire (t : Timed) (l' : Listener) (f : Nat) : Timed :=
  { t with
    l := l'
    expiring := t.expiring.erase f
    closes :=
      match t.l.conns[f]? with
      | some c =>
        if c.closed then t.closes
        else ⟨f, t.l.now, t.insertedAt.lookup f, t.pushedAt.lookup f⟩ :: t.closes
      | none => t.closes }

/-- The close is one of `Listener.Close`, not of the cleaner. -/
def Timed.others (t : Timed) : Event → Bool
  | .closeTarget f => decide (t.expiring.count f < t.l.targets.count f)
  | _ => true

/-- One step, if it is possible. -/
def Timed.step (t : Timed) : TimedEvent → Option Timed
  | .step e => if t.others e then (t.l.step e).map fun l' => t.record l' e else none
  | .expire f =>
    if f ∈ t.expiring then (t.l.step (.closeTarget f)).map fun l' => t.recordExpire l' f else none

/-- The states of all runs. -/
def Timed.Reachable (t : Timed) : Prop :=
  Trans.Reach (fun t => ∃ now, t = Timed.new now) (fun t e t' => t.step e = some t') t

/-! ## The two races -/

/-- The `FakeConn` that the accept loop is about to push to. -/
def Loop.pushing : Loop → Option Nat
  | .push _ f => some f
  | _ => none

/-- The accept loop's next step is a `Push` that `f` has room for. -/
def Listener.Accepting (l : Listener) (f : Nat) : Prop :=
  l.loop.pushing = some f ∧ ∃ c ∈ l.conns[f]?, c.recvch.length < recvchCap

/-- `f` is open and has not accepted its first `Push`. -/
def Listener.Unpushed (l : Listener) (f : Nat) : Prop :=
  ∃ c ∈ l.conns[f]?, c.closed = false ∧ c.ts = none

instance (l : Listener) (f : Nat) : Decidable (l.Accepting f) := inferInstanceAs (Decidable (_ ∧ _))

instance (l : Listener) (f : Nat) : Decidable (l.Unpushed f) :=
  inferInstanceAs (Decidable (∃ c ∈ l.conns[f]?, c.closed = false ∧ c.ts = none))

/-- No expiry sweep falls between the insert of a `FakeConn` and its first `Push`, and no `Push` is
accepted between the collection of a `FakeConn` and its close. -/
def Timed.Careful (t : Timed) : TimedEvent → Prop
  | .step (.expireSweep _) => ∀ x ∈ t.l.connMap.entries, ¬ t.l.Unpushed x.2
  | .step .advance => ∀ f ∈ t.expiring, t.l.Accepting f → ∀ c ∈ t.l.conns[f]?, c.closed = true
  | _ => True

instance (t : Timed) : DecidablePred t.Careful
  | .step (.expireSweep _) =>
    inferInstanceAs (Decidable (∀ x ∈ t.l.connMap.entries, ¬ t.l.Unpushed x.2))
  | .step .advance => inferInstanceAs
      (Decidable (∀ f ∈ t.expiring, t.l.Accepting f → ∀ c ∈ t.l.conns[f]?, c.closed = true))
  | .step (.tick _) | .step (.recv _ _) | .step .accept | .step (.take _) | .step (.close _)
  | .step (.closeTarget _) | .step (.finish _) | .step (.delaySweep _) | .step (.fetch _)
  | .step .cancel | .step .cleanerExit | .expire _ => isTrue trivial

/-- One step, if it is possible and careful. -/
def Timed.stepCarefully (t : Timed) (e : TimedEvent) : Option Timed :=
  if t.Careful e then t.step e else none

/-- The states of the runs all of whose steps are careful. -/
def Timed.CarefullyReachable (t : Timed) : Prop :=
  Trans.Reach (fun t => ∃ now, t = Timed.new now)
    (fun t e t' => t.stepCarefully e = some t') t

end Faketcp
