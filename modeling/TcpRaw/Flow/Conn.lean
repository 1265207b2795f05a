import TcpRaw.Flow.Table

/-!
# The flow operations of a `tcpConn` (`tcp_linux.go`)

The critical sections of `lockflow`, of the update of `decodeTCPPacket`, of the cleaner's sweep over
a shard and of `Close`, and the calls of `decodeTCPPacket` and `WriteTo` as a whole. Entries live in
`flows`, by pointer, each with the key that it was made for. Deadlines and errors of the raw socket
are left out.
-/

namespace Tcpraw

open GoRt

/-- A message of a peer. -/
structure Message where
  bts : Bytes
  addr : AddrKey
  deriving DecidableEq, Repr

/-- `tcpConn` -/
structure TcpConn where
  table : FlowTable
  flows : List (AddrKey × TcpFlow)
  chMessage : List Message
  /-- `die` is closed. -/
  die : Bool
  /-- The kernel connections that were closed. -/
  closed : List Nat

/-- The capacity of `chMessage`. -/
def chMessageCap : Nat := 2048

/-- `MaxPayloadSize` -/
def maxPayloadSize : Nat := 52048

/-- `expire` -/
def expire : Time := 60 * second

/-- A `tcpConn` without flows. -/
def TcpConn.new (sharding : Nat) (pos : 0 < sharding) : TcpConn where
  table := .init sharding pos
  flows := []
  chMessage := []
  die := false
  closed := []

/-- The critical section of `lockflow`: the pointer to the entry of a key, which is made if there is
none. -/
def TcpConn.lockflow (conn : TcpConn) (key : AddrKey) (now : Time) : Nat × TcpConn :=
  match conn.table.lookup key with
  | some e => (e, { conn with table := conn.table.store key e })
  | none =>
    (conn.flows.length, { conn with
      flows := conn.flows ++ [(key, TcpFlow.new now)]
      table := conn.table.store key conn.flows.length })

/-- Update an entry. -/
def TcpConn.modifyFlow (conn : TcpConn) (e : Nat) (f : TcpFlow → TcpFlow) : TcpConn :=
  { conn with flows := conn.flows.modify e fun (k, flow) => (k, f flow) }

/-- The orphan test of `decodeTCPPacket`: no kernel connection is bound to the entry. -/
def TcpConn.orphan (conn : TcpConn) (e : Nat) : Bool :=
  match conn.flows[e]? with
  | some (_, flow) => flow.conn.isNone
  | none => true

/-- The entry was silent for longer than `expire` at the time `now`. -/
def staleIn (flows : List (AddrKey × TcpFlow)) (now : Time) (e : Nat) : Bool :=
  match flows[e]? with
  | some (_, flow) => decide (flow.ts + expire < now)
  | none => false

/-- The test of the cleaner. -/
def TcpConn.stale (conn : TcpConn) (now : Time) (e : Nat) : Bool := staleIn conn.flows now e

/-- The entries of a shard that the cleaner finds expired; `clock` are its readings. -/
def TcpConn.expired (conn : TcpConn) (i : Nat) (clock : AddrKey → Time) :
    List ((_ : AddrKey) × Nat) :=
  (conn.table.shard i).entries.filter fun e => conn.stale (clock e.1) e.2

/-- Delete entries of a shard from the table and close their kernel connections. -/
def TcpConn.drop (conn : TcpConn) (i : Nat) (es : List ((_ : AddrKey) × Nat)) : TcpConn :=
  { conn with
    table := conn.table.erase i (es.map (·.1))
    closed := conn.closed ++ es.filterMap fun e => (conn.flows[e.2]?).bind (·.2.conn) }

/-- One tick of the cleaner: a sweep over every shard. -/
def TcpConn.clean (conn : TcpConn) (clock : AddrKey → Time) : TcpConn :=
  (List.range conn.table.sharding).foldl (fun conn i => conn.drop i (conn.expired i clock)) conn

/-- What becomes of a captured segment. -/
inductive Verdict where
  /-- It is for another port. -/
  | otherPort
  /-- Its flow has no kernel connection. -/
  | orphan
  | noData
  /-- Out of reach: the capture buffer has `maxPayloadSize` bytes, headers included. -/
  | panicked
  /-- `chMessage` is full. -/
  | dropped
  | pushed
  deriving DecidableEq, Repr

/-- `decodeTCPPacket` after the TCP layer was found, for any `MaxPayloadSize`: its critical sections
in a row, before `Close`. -/
def TcpConn.decodeSegment (conn : TcpConn) (maxPayloadSize : Nat) (port : UInt16) (handle : Nat)
    (ip : UInt32) (tcp : Segment) (now : Time) : Verdict × TcpConn :=
  if tcp.dstPort ≠ port then (.otherPort, conn)
  else
    let key : AddrKey := { dip := ip, dport := tcp.srcPort }
    let (e, conn) := conn.lockflow key now
    let orphan := conn.orphan e
    let conn := conn.modifyFlow e fun flow => flow.capture tcp handle now
    if orphan then (.orphan, conn)
    else if tcp.PSH = false then (.noData, conn)
    else if maxPayloadSize ≤ tcp.payload.length then (.panicked, conn)
    else if chMessageCap ≤ conn.chMessage.length then (.dropped, conn)
    else
      let m : Message := { bts := tcp.payload, addr := key }
      (.pushed, { conn with chMessage := conn.chMessage ++ [m] })

/-- `decodeTCPPacket` with the default `MaxPayloadSize`. -/
def TcpConn.decodeTCPPacket (conn : TcpConn) (port : UInt16) (handle : Nat) (ip : UInt32)
    (tcp : Segment) (now : Time) : Verdict × TcpConn :=
  conn.decodeSegment maxPayloadSize port handle ip tcp now

/-- What `WriteTo` returns. -/
inductive WriteResult where
  | eof
  | errFlowNotFound
  /-- The entry has no handle yet: nothing sent, no error. -/
  | noHandle
  | sent (tcp : Segment)
  deriving DecidableEq, Repr

/-- `WriteTo` -/
def TcpConn.writeTo (conn : TcpConn) (lport : UInt16) (p : Bytes) (addr : AddrKey) :
    WriteResult × TcpConn :=
  if conn.die then (.eof, conn)
  else
    match conn.table.lookup addr with
    | none => (.errFlowNotFound, conn)
    | some e =>
      match conn.flows[e]? with
      | none => (.errFlowNotFound, conn)
      | some (_, flow) =>
        match flow.emit lport addr.dport p with
        | none => (.noHandle, conn)
        | some (tcp, flow') => (.sent tcp, conn.modifyFlow e fun _ => flow')

/-! ## Lemmas -/

section
variable {conn : TcpConn}

/-- **`lockflow`**: the key's pointer after it, and what it leaves unchanged. -/
theorem TcpConn.lockflow_cases (conn : TcpConn) (key : AddrKey) (now : Time) :
    (conn.table.lookup key = some (conn.lockflow key now).1 ∧
        (conn.lockflow key now).2.flows = conn.flows ∨
      conn.table.lookup key = none ∧ (conn.lockflow key now).1 = conn.flows.length ∧
        (conn.lockflow key now).2.flows = conn.flows ++ [(key, TcpFlow.new now)]) ∧
      (∀ k, (conn.lockflow key now).2.table.lookup k =
        if k = key then some (conn.lockflow key now).1 else conn.table.lookup k) ∧
      (conn.lockflow key now).2.chMessage = conn.chMessage := by
  unfold TcpConn.lockflow
  cases hl : conn.table.lookup key with
  | some e => exact ⟨.inl ⟨rfl, rfl⟩, fun k => FlowTable.lookup_store _ _ _ _, rfl⟩
  | none => exact ⟨.inr ⟨rfl, rfl, rfl⟩, fun k => FlowTable.lookup_store _ _ _ _, rfl⟩

theorem TcpConn.lockflow_flow {key : AddrKey} {now : Time} {e : Nat} {x : AddrKey × TcpFlow}
    (h : conn.flows[e]? = some x) : (conn.lockflow key now).2.flows[e]? = some x := by
  obtain ⟨⟨-, hf⟩ | ⟨-, -, hf⟩, -⟩ := conn.lockflow_cases key now
  · rw [hf]
    exact h
  · rw [hf, List.getElem?_append_left (List.getElem?_eq_some_iff.1 h).1]
    exact h

theorem TcpConn.flow_of_lockflow {key k : AddrKey} {now : Time} {e : Nat} {flow : TcpFlow}
    (h : (conn.lockflow key now).2.flows[e]? = some (k, flow)) :
    conn.flows[e]? = some (k, flow) ∨ conn.flows[e]? = none ∧ flow.conn = none := by
  obtain ⟨⟨-, hf⟩ | ⟨-, -, hf⟩, -⟩ := conn.lockflow_cases key now
  · rw [hf] at h
    exact .inl h
  · rw [hf] at h
    rcases Nat.lt_or_ge e conn.flows.length with he | he
    · rw [List.getElem?_append_left he] at h
      exact .inl h
    · rw [List.getElem?_append_right he] at h
      cases List.mem_singleton.1 (List.mem_of_getElem? h)
      exact .inr ⟨List.getElem?_eq_none he, rfl⟩

theorem TcpConn.lookup_lockflow (conn : TcpConn) (key : AddrKey) (now : Time) (k : AddrKey) :
    (conn.lockflow key now).2.table.lookup k =
      if k = key then some (conn.lockflow key now).1 else conn.table.lookup k :=
  (conn.lockflow_cases key now).2.1 k

/-- The entry at pointer `e` was made for the key `k`. -/
def TcpConn.Owns (conn : TcpConn) (e : Nat) (k : AddrKey) : Prop :=
  ∃ flow, conn.flows[e]? = some (k, flow)

theorem TcpConn.Owns.unique {e : Nat} {k k' : AddrKey} (h : conn.Owns e k) (h' : conn.Owns e k') :
    k = k' := by
  obtain ⟨f, hf⟩ := h
  obtain ⟨f', hf'⟩ := h'
  rw [hf] at hf'
  cases hf'
  rfl

theorem TcpConn.Owns.lockflow {e : Nat} {k key : AddrKey} {now : Time} (h : conn.Owns e k) :
    (conn.lockflow key now).2.Owns e k := by
  obtain ⟨f, hf⟩ := h
  exact ⟨f, TcpConn.lockflow_flow hf⟩

/-- After `lockflow` a key has the pointer it had, or that of a new entry of its own. -/
theorem TcpConn.lookup_or_fresh {key k : AddrKey} {now : Time} {e : Nat}
    (h : (conn.lockflow key now).2.table.lookup k = some e) :
    conn.table.lookup k = some e ∨
      conn.flows[e]? = none ∧ (conn.lockflow key now).2.Owns e k := by
  rw [TcpConn.lookup_lockflow] at h
  split at h
  case isFalse => exact .inl h
  case isTrue hk =>
    subst hk
    cases h
    obtain ⟨⟨hl, -⟩ | ⟨-, he, hf⟩, -⟩ := conn.lockflow_cases k now
    · exact .inl hl
    · refine .inr ⟨List.getElem?_eq_none (Nat.le_of_eq he.symm), TcpFlow.new now, ?_⟩
      rw [hf, he]
      exact List.getElem?_concat_length

/-- Every key has an entry of its own. -/
def TcpConn.Owned (conn : TcpConn) : Prop := ∀ k e, conn.table.lookup k = some e → conn.Owns e k

theorem TcpConn.Owned.lockflow (h : conn.Owned) (key : AddrKey) (now : Time) :
    (conn.lockflow key now).2.Owned := by
  intro k e he
  rcases TcpConn.lookup_or_fresh he with he | ⟨-, he⟩
  · exact (h k e he).lockflow
  · exact he

theorem TcpConn.getElem?_modifyFlow (conn : TcpConn) (e : Nat) (f : TcpFlow → TcpFlow) (i : Nat) :
    (conn.modifyFlow e f).flows[i]? =
      if i = e then (conn.flows[i]?).map fun (k, flow) => (k, f flow) else conn.flows[i]? := by
  unfold TcpConn.modifyFlow
  dsimp only
  rw [List.getElem?_modify]
  by_cases h : e = i
  · subst h
    simp
  · simp [h, Ne.symm h]

theorem TcpConn.Owns.modifyFlow {e i : Nat} {k : AddrKey} {g : TcpFlow → TcpFlow}
    (h : conn.Owns e k) : (conn.modifyFlow i g).Owns e k := by
  obtain ⟨f, hf⟩ := h
  unfold TcpConn.Owns
  rw [TcpConn.getElem?_modifyFlow, hf]
  split
  · exact ⟨g f, rfl⟩
  · exact ⟨f, rfl⟩

theorem TcpConn.Owned.modifyFlow (h : conn.Owned) (i : Nat) (g : TcpFlow → TcpFlow) :
    (conn.modifyFlow i g).Owned :=
  fun k e he => (h k e he).modifyFlow

/-- **Dropping entries of a shard** takes their keys out of the table. -/
theorem TcpConn.lookup_drop {i : Nat} {es : List ((_ : AddrKey) × Nat)}
    (hes : ∀ e ∈ es, e ∈ (conn.table.shard i).entries) (k : AddrKey) :
    (conn.drop i es).table.lookup k = if k ∈ es.map (·.1) then none else conn.table.lookup k := by
  apply FlowTable.lookup_erase
  intro k hk
  obtain ⟨e, he, rfl⟩ := List.mem_map.1 hk
  exact AList.mem_keys.2 (List.mem_map_of_mem (hes e he))

/-- Dropping the entries of a shard that `p` chooses takes their keys out of the table. -/
theorem TcpConn.lookup_drop_filter (conn : TcpConn) (i : Nat) (p : AddrKey → Nat → Bool)
    (k : AddrKey) :
    (conn.drop i ((conn.table.shard i).entries.filter fun e => p e.1 e.2)).table.lookup k =
      if shardOf conn.table.sharding k = i then (conn.table.lookup k).filter fun e => !p k e
      else conn.table.lookup k := by
  rw [TcpConn.lookup_drop fun e he => (List.mem_filter.1 he).1]
  have hmem : k ∈ ((conn.table.shard i).entries.filter fun e => p e.1 e.2).map (·.1) ↔
      shardOf conn.table.sharding k = i ∧
        ∃ e, conn.table.lookup k = some e ∧ p k e = true := by
    constructor
    · intro hk
      obtain ⟨⟨k', e⟩, he, rfl⟩ := List.mem_map.1 hk
      obtain ⟨he, hp⟩ := List.mem_filter.1 he
      obtain ⟨hi, he⟩ := FlowTable.mem_entries.1 he
      exact ⟨hi, e, he, hp⟩
    · rintro ⟨hi, e, he, hp⟩
      exact List.mem_map.2 ⟨⟨k, e⟩, List.mem_filter.2 ⟨FlowTable.mem_entries.2 ⟨hi, he⟩, hp⟩, rfl⟩
  by_cases hi : shardOf conn.table.sharding k = i
  · rw [if_pos hi]
    cases hl : conn.table.lookup k with
    | none => simp
    | some e => cases hp : p k e <;> simp [hmem, hi, hl, hp, Option.filter_some]
  · rw [if_neg hi, if_neg (fun hk => hi (hmem.1 hk).1)]

theorem TcpConn.lookup_sweep (conn : TcpConn) (i : Nat) (clock : AddrKey → Time) (k : AddrKey) :
    (conn.drop i (conn.expired i clock)).table.lookup k =
      if shardOf conn.table.sharding k = i then
        (conn.table.lookup k).filter fun e => !conn.stale (clock k) e
      else conn.table.lookup k :=
  conn.lookup_drop_filter i (fun k e => conn.stale (clock k) e) k

/-- **A tick of the cleaner** takes the keys of the stale entries out of the table; entries stay as
they are. -/
theorem TcpConn.lookup_clean (conn : TcpConn) (clock : AddrKey → Time) (k : AddrKey) :
    (conn.clean clock).table.lookup k =
      (conn.table.lookup k).filter fun e => !conn.stale (clock k) e := by
  have hfold : ∀ (is : List Nat) (conn : TcpConn),
      (is.foldl (fun conn i => conn.drop i (conn.expired i clock)) conn).table.lookup k =
        if shardOf conn.table.sharding k ∈ is then
          (conn.table.lookup k).filter fun e => !conn.stale (clock k) e
        else conn.table.lookup k := by
    intro is
    induction is with
    | nil => exact fun conn => rfl
    | cons i is ih =>
      intro conn
      -- the sweep of a shard changes neither the entries nor the shard of a key
      have hnext := ih (conn.drop i (conn.expired i clock))
      rw [List.foldl_cons, hnext, TcpConn.lookup_sweep]
      change (if shardOf conn.table.sharding k ∈ is then
          Option.filter (fun e => !conn.stale (clock k) e) _ else _) = _
      by_cases hi : shardOf conn.table.sharding k = i
      · simp [hi, Option.filter_filter]
      · simp [hi]
  rw [TcpConn.clean, hfold, if_pos (List.mem_range.2 (shardOf_lt conn.table.pos k))]

theorem TcpConn.flows_clean (conn : TcpConn) (clock : AddrKey → Time) :
    (conn.clean clock).flows = conn.flows := by
  unfold TcpConn.clean
  generalize List.range conn.table.sharding = is
  induction is generalizing conn with
  | nil => rfl
  | cons i is ih =>
    rw [List.foldl_cons, ih]
    rfl

end

end Tcpraw
