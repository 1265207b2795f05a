import TcpRaw.Listener.Listener

/-!
# The history of a listener

A listener together with what its accept loop did: the messages that `ReadFromv2` returned, the
calls of `Push`, the messages for which `connChan` had no room, and what the application received.
The history is written only: each step is the listener's own (`Traced.step`), so `Traced.l` ranges
over the runs of the listener.

The accept loop is one goroutine, so a `Push` and a full `connChan` concern the message that it read
last.
-/

namespace Faketcp

open GoRt Common

/-- A message that `ReadFromv2` returned. -/
structure Message where
  data : Bytes
  src : Peer

/-- A call of `Push`. -/
structure Offer where
  /-- The message, by its position in the order of `ReadFromv2`. -/
  msg : Nat
  /-- The `FakeConn` that it is offered to. -/
  conn : Nat
  data : Bytes
  /-- That `FakeConn` before and after the call. -/
  before : FakeConn
  after : FakeConn

/-- The call put something in `recvch`. -/
def Offer.entered (o : Offer) : Bool := decide (o.before.recvch.length < o.after.recvch.length)

/-- A message whose new `FakeConn` found `connChan` full. -/
structure Rejection where
  msg : Nat
  /-- The number of `FakeConn`s in `connChan` at that time. -/
  waiting : Nat

/-- A listener with its history. -/
structure Traced where
  l : Listener
  msgs : List Message
  offers : List Offer
  rejections : List Rejection
  /-- What a `Read` received, and of which `FakeConn`. -/
  taken : List (Nat × Bytes)

def Traced.new (now : Time) : Traced where
  l := Listener.new now
  msgs := []
  offers := []
  rejections := []
  taken := []

/-- What the accept loop's next step, to `l'`, adds to the history. -/
def Traced.recordAdvance (t : Traced) (l' : Listener) : Traced :=
  match t.l.loop with
  | .push data f =>
    match t.l.conns[f]?, l'.conns[f]? with
    | some before, some after =>
      { t with l := l', offers := t.offers ++ [⟨t.msgs.length - 1, f, data, before, after⟩] }
    | _, _ => { t with l := l' }
  | .send _ _ _ =>
    if t.l.connChan.length < connChanCap then { t with l := l' }
    else
      { t with l := l', rejections := t.rejections ++ [⟨t.msgs.length - 1, t.l.connChan.length⟩] }
  | _ => { t with l := l' }

/-- What a step to `l'` adds to the history. -/
def Traced.record (t : Traced) (l' : Listener) : Event → Traced
  | .recv data src => { t with l := l', msgs := t.msgs ++ [⟨data, src⟩] }
  | .advance => t.recordAdvance l'
  | .take f =>
    match (t.l.conns[f]?).bind fun c => c.recvch.head? with
    | some b => { t with l := l', taken := t.taken ++ [(f, b)] }
    | none => { t with l := l' }
  | _ => { t with l := l' }

/-- The sources of messages have the port of a TCP header: `int(tcp.SrcPort)`. -/
def Event.SrcFits : Event → Prop
  | .recv _ src => src.addr.PortFits
  | _ => True

instance : DecidablePred Event.SrcFits
  | .recv _ src => inferInstanceAs (Decidable src.addr.PortFits)
  | .tick _ | .advance | .accept | .take _ | .close _ | .closeTarget _ | .finish _
  | .delaySweep _ | .expireSweep _ | .fetch _ | .cancel | .cleanerExit => isTrue trivial

/-- One step of the listener, with its record. -/
def Traced.step (t : Traced) (e : Event) : Option Traced :=
  if e.SrcFits then (t.l.step e).map fun l' => t.record l' e else none

/-- The histories of all runs. -/
def Traced.Reachable (t : Traced) : Prop :=
  Trans.Reach (fun t => ∃ now, t = Traced.new now) (fun t e t' => t.step e = some t') t

/-! ## Per `FakeConn` -/

/-- The offers to `f` that entered its `recvch`. -/
def enteredOf (offers : List Offer) (f : Nat) : List Offer :=
  offers.filter fun o => o.conn = f ∧ o.entered = true

/-- The total length of what `Push` refused for `f`. -/
def refusedOf (offers : List Offer) (f : Nat) : Nat :=
  ((offers.filter fun o => o.conn = f ∧ o.entered = false).map fun o => o.data.length).sum

/-- What the application received from `f`. -/
def takenOf (taken : List (Nat × Bytes)) (f : Nat) : List Bytes :=
  (taken.filter fun x => x.1 = f).map (·.2)

/-- The messages that entered `recvch` of `f`, in order. -/
def Traced.received (t : Traced) (f : Nat) : List Message :=
  (enteredOf t.offers f).filterMap fun o => t.msgs[o.msg]?

end Faketcp
