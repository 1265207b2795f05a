import TcpRaw.Flow.Server

/-!
# Finished updates of flow entries (`tcp_linux.go`, `lockflow`, `cleaner`)

`lockflow` gives the shard's lock back before its callback touches the entry. A `Tracked` is a
`Server` together with the updates that have been finished and that the table has to keep (`owed`):
that of a captured segment, and the record of an accepted connection as `e.conn`. An update is owed
until `Close`, or until a sweep of its shard reads for its key a time more than `expire` after it.

The readings of a sweep do not go back: each is no earlier than the clock before the sweep, and the
clock after it no earlier than any of them.
-/

namespace Tcpraw

open GoRt

/-- A finished update of an entry. -/
structure Update where
  key : AddrKey
  entry : Nat
  time : Time
  deriving DecidableEq, Repr

/-- A `tcpConn` with its finished updates. -/
structure Tracked where
  s : Server
  owed : List Update
  /-- The entries that connections were recorded in, and when. -/
  boundAt : List (Nat × Time)

def Tracked.new (sharding : Nat) (pos : 0 < sharding) (now : Time) : Tracked where
  s := .new sharding pos now
  owed := []
  boundAt := []

/-- The clock after a sweep over the keys `ks`. -/
def lastReading (clock : AddrKey → Time) (now : Time) (ks : List AddrKey) : Time :=
  ks.foldl (fun t k => max t (clock k)) now

/-- A sweep of shard `i` runs more than `expire` after the update. -/
def Tracked.outlived (t : Tracked) (i : Nat) (clock : AddrKey → Time) (u : Update) : Bool :=
  decide (shardOf t.s.conn.table.sharding u.key = i ∧ u.time + expire < clock u.key)

/-- The updates that are owed after one more; none is once `Close` was called. -/
def Tracked.owe (t : Tracked) (u : Update) : List Update :=
  if t.s.conn.die then t.owed else u :: t.owed

/-- What a step to `s'` adds to the updates. -/
def Tracked.record (t : Tracked) (s' : Server) : ServerEvent → Tracked
  | .update i =>
    match t.s.captures[i]? with
    | some c => { t with s := s', owed := t.owe ⟨c.key, c.entry, t.s.now⟩ }
    | none => { t with s := s' }
  | .bind i =>
    match t.s.accepts[i]? with
    | some a =>
      { s := s'
        owed := t.owe ⟨a.key, a.entry, t.s.now⟩
        boundAt := (a.entry, t.s.now) :: t.boundAt }
    | none => { t with s := s' }
  | .sweep i clock =>
    { t with
      s := { s' with now := lastReading clock t.s.now (t.s.conn.table.shard i).keys }
      owed := t.owed.filter fun u => !t.outlived i clock u }
  | .close => { t with s := s', owed := [] }
  | _ => { t with s := s' }

/-- The readings of a sweep do not go back. -/
def Tracked.timely (t : Tracked) : ServerEvent → Bool
  | .sweep i clock => decide (∀ k ∈ (t.s.conn.table.shard i).keys, t.s.now ≤ clock k)
  | _ => true

/-- One step, if it is possible. -/
def Tracked.step (t : Tracked) (e : ServerEvent) : Option Tracked :=
  if t.timely e then (t.s.step e).map fun s' => t.record s' e else none

/-- The states of all runs. -/
def Tracked.Reachable (t : Tracked) : Prop :=
  Trans.Reach (fun t => ∃ sharding pos now, t = Tracked.new sharding pos now)
    (fun t e t' => t.step e = some t') t

/-- **No update is lost**: each update that is owed is in the entry at its key. -/
def Tracked.Kept (t : Tracked) : Prop :=
  ∀ u ∈ t.owed, t.s.conn.table.lookup u.key = some u.entry

instance (t : Tracked) : Decidable t.Kept :=
  inferInstanceAs (Decidable (∀ u ∈ t.owed, t.s.conn.table.lookup u.key = some u.entry))

/-! ## The races of the cleaner -/

/-- A segment, or an accepted connection, has fetched the entry and has yet to update it. -/
def Server.Held (s : Server) (e : Nat) : Prop :=
  (∃ c ∈ s.captures, c.stage = .fetched ∧ c.entry = e) ∨ ∃ a ∈ s.accepts, a.entry = e

instance (s : Server) (e : Nat) : Decidable (s.Held e) := inferInstanceAs (Decidable (_ ∨ _))

/-- Before `Close`, a sweep removes no entry that is held, and none in which a connection was
recorded within the last minute. -/
def Tracked.Careful (t : Tracked) : ServerEvent → Prop
  | .sweep i clock => t.s.conn.die = false → ∀ x ∈ t.s.conn.expired i clock,
      ¬ t.s.Held x.2 ∧ ∀ b ∈ t.boundAt, b.1 = x.2 → b.2 + expire < clock x.1
  | _ => True

instance (t : Tracked) : DecidablePred t.Careful
  | .sweep i clock => inferInstanceAs
      (Decidable (t.s.conn.die = false → ∀ x ∈ t.s.conn.expired i clock,
        ¬ t.s.Held x.2 ∧ ∀ b ∈ t.boundAt, b.1 = x.2 → b.2 + expire < clock x.1))
  | .tick _ | .capture _ _ _ _ | .update _ | .push _ | .discard _ | .accept _ _ | .bind _ | .close
  | .wipe _ | .read => isTrue trivial

/-- One step, if it is possible and careful. -/
def Tracked.stepCarefully (t : Tracked) (e : ServerEvent) : Option Tracked :=
  if t.Careful e then t.step e else none

/-- The states of the runs all of whose steps are careful. -/
def Tracked.CarefullyReachable (t : Tracked) : Prop :=
  Trans.Reach (fun t => ∃ sharding pos now, t = Tracked.new sharding pos now)
    (fun t e t' => t.stepCarefully e = some t') t

end Tcpraw
