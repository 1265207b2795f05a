import TcpRaw.Flow.Conn
import TcpRaw.Lib.Trans

/-!
# The flow table as one map

The operations on the flows of a `tcpConn`, each as a whole: `lockflow` and `getflow` with their
callbacks, a tick of the cleaner and `Close`. `TcpConn.op` makes them on the sharded table.

`FlatConn` is what the shards are for: one map from keys to entries, and the same operations on it.
The callbacks are any; the pointer they are called with is part of an operation's result.
-/

namespace Tcpraw

open GoRt

/-- A callback of `lockflow` or `getflow`: what it returns for a nil entry, what it returns for an
entry and makes of it. -/
structure Callback (ρ : Type) where
  onNil : ρ
  onEntry : TcpFlow → ρ × TcpFlow

/-- Call back with the pointer `e`. -/
def Callback.call {ρ : Type} (f : Callback ρ) (flows : List (AddrKey × TcpFlow)) (e : Option Nat) :
    ρ × List (AddrKey × TcpFlow) :=
  match e with
  | none => (f.onNil, flows)
  | some e =>
    match flows[e]? with
    | none => (f.onNil, flows)
    | some (key, flow) => ((f.onEntry flow).1, flows.set e (key, (f.onEntry flow).2))

/-- The operations on the flows of a `tcpConn`. -/
inductive FlowOp (ρ : Type) where
  | lockflow (key : AddrKey) (now : Time) (f : Callback ρ)
  | getflow (key : AddrKey) (f : Callback ρ)
  /-- The cleaner ticks; `clock` are its readings. -/
  | tick (clock : AddrKey → Time)
  | close

/-- What an operation returns: the pointer that it calls back with, and what the callback
returns. -/
abbrev FlowResult (ρ : Type) := Option (Option Nat × ρ)

/-- The kernel connections of entries. -/
def connsOf (flows : List (AddrKey × TcpFlow)) (es : List ((_ : AddrKey) × Nat)) : List Nat :=
  es.filterMap fun e => (flows[e.2]?).bind (·.2.conn)

/-! ## With shards -/

/-- Delete the entries that `p` chooses from the shards `is`, one shard after the other, and close
their kernel connections. -/
def TcpConn.dropShards (p : List (AddrKey × TcpFlow) → AddrKey → Nat → Bool) (is : List Nat)
    (conn : TcpConn) : TcpConn :=
  is.foldl (fun conn i =>
    conn.drop i ((conn.table.shard i).entries.filter fun e => p conn.flows e.1 e.2)) conn

/-- The flow tables at `Close`, which acts once. A dialed `tcpConn` closes `tcpconn`, a listening
one (`none`) the connections of all its flows. -/
def TcpConn.closeFlows (conn : TcpConn) (tcpconn : Option Nat) : TcpConn :=
  if conn.die then conn
  else
    match tcpconn with
    | some c => { conn with die := true, closed := conn.closed ++ [c] }
    | none =>
      TcpConn.dropShards (fun _ _ _ => true) (List.range conn.table.sharding)
        { conn with die := true }

/-- One operation on a `tcpConn`. -/
def TcpConn.op {ρ : Type} (tcpconn : Option Nat) (conn : TcpConn) :
    FlowOp ρ → FlowResult ρ × TcpConn
  | .lockflow key now f =>
    let (e, conn) := conn.lockflow key now
    let (r, flows) := f.call conn.flows (some e)
    (some (some e, r), { conn with flows })
  | .getflow key f =>
    let e := conn.table.lookup key
    let (r, flows) := f.call conn.flows e
    (some (e, r), { conn with flows })
  | .tick clock => (none, conn.clean clock)
  | .close => (none, conn.closeFlows tcpconn)

/-- An entry is stored for a key, in whatever shard. -/
def TcpConn.Stores (conn : TcpConn) (key : AddrKey) (flow : TcpFlow) : Prop :=
  ∃ (i : Nat) (m : GoMap AddrKey Nat) (e : Nat) (k : AddrKey), conn.table.flowTables[i]? = some m ∧
    ⟨key, e⟩ ∈ m.entries ∧ conn.flows[e]? = some (k, flow)

/-! ## With one map -/

/-- The flows of a `tcpConn` in one map. -/
structure FlatConn where
  table : GoMap AddrKey Nat
  flows : List (AddrKey × TcpFlow)
  die : Bool
  closed : List Nat

def FlatConn.new : FlatConn where
  table := ∅
  flows := []
  die := false
  closed := []

def FlatConn.lockflow (conn : FlatConn) (key : AddrKey) (now : Time) : Nat × FlatConn :=
  match conn.table.lookup key with
  | some e => (e, conn)
  | none =>
    (conn.flows.length, { conn with
      flows := conn.flows ++ [(key, TcpFlow.new now)]
      table := conn.table.insert key conn.flows.length })

/-- Delete the entries that `p` chooses, and close their kernel connections. -/
def FlatConn.drop (conn : FlatConn) (p : AddrKey → Nat → Bool) : FlatConn :=
  let es := conn.table.entries.filter fun e => p e.1 e.2
  { conn with
    table := GoMap.eraseAll conn.table (es.map (·.1))
    closed := conn.closed ++ connsOf conn.flows es }

def FlatConn.close (conn : FlatConn) (tcpconn : Option Nat) : FlatConn :=
  if conn.die then conn
  else
    match tcpconn with
    | some c => { conn with die := true, closed := conn.closed ++ [c] }
    | none => FlatConn.drop { conn with die := true } fun _ _ => true

/-- One operation on one map. -/
def FlatConn.op {ρ : Type} (tcpconn : Option Nat) (conn : FlatConn) :
    FlowOp ρ → FlowResult ρ × FlatConn
  | .lockflow key now f =>
    let (e, conn) := conn.lockflow key now
    let (r, flows) := f.call conn.flows (some e)
    (some (some e, r), { conn with flows })
  | .getflow key f =>
    let e := conn.table.lookup key
    let (r, flows) := f.call conn.flows e
    (some (e, r), { conn with flows })
  | .tick clock => (none, conn.drop fun k e => staleIn conn.flows (clock k) e)
  | .close => (none, conn.close tcpconn)

/-- An entry is stored for a key. -/
def FlatConn.Stores (conn : FlatConn) (key : AddrKey) (flow : TcpFlow) : Prop :=
  ∃ (e : Nat) (k : AddrKey), ⟨key, e⟩ ∈ conn.table.entries ∧ conn.flows[e]? = some (k, flow)

end Tcpraw
