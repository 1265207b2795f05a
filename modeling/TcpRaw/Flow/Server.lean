import TcpRaw.Flow.Conn
import TcpRaw.Lib.Trans

/-!
# A listening `tcpConn`

The goroutines of a listening `tcpConn`: the capture goroutines (`decodeTCPPacket`), the accept loop
of `Listen`, the cleaner, `Close` and the readers. Each critical section is one step. A captured
segment takes three: it fetches the entry of its source (`lockflow`), updates it under the entry's
lock, and puts its payload on `chMessage`. An accepted kernel connection takes two: it fetches the
entry, and binds itself to it, without any lock. `log` is the history, newest first.
-/

namespace Tcpraw

open GoRt

/-- How far a captured segment is. -/
inductive Stage where
  | fetched
  | updated (orphan : Bool)
  deriving DecidableEq, Repr

/-- A segment being processed: its source, and the entry that it fetched. -/
structure Capture where
  id : Nat
  key : AddrKey
  entry : Nat
  tcp : Segment
  handle : Nat
  stage : Stage

/-- An accepted connection that has yet to bind itself to the entry that it fetched. -/
structure Accept where
  key : AddrKey
  entry : Nat
  conn : Nat

/-- What happened. -/
inductive LogEntry where
  /-- The processing of a segment from `key` starts. -/
  | started (id : Nat) (key : AddrKey)
  /-- The accept loop fetches the entry of a kernel connection from `key`. -/
  | accepted (key : AddrKey) (conn : Nat)
  /-- The connection is recorded as `e.conn` of that entry. -/
  | recorded (key : AddrKey) (conn : Nat)
  /-- A message is put on `chMessage`. -/
  | pushed (id : Nat) (m : Message)
  /-- `ReadFrom` or `ReadFromv2` returns a message. -/
  | read (m : Message)
  /-- A sweep, or `Close`, removes flows. -/
  | removed (keys : List AddrKey)
  deriving DecidableEq, Repr

/-- A listening `tcpConn` and what is in progress on it. -/
structure Server where
  conn : TcpConn
  now : Time
  captures : List Capture
  accepts : List Accept
  nextId : Nat
  log : List LogEntry

/-- A `tcpConn` of `Listen`, before the first segment. -/
def Server.new (sharding : Nat) (pos : 0 < sharding) (now : Time) : Server where
  conn := .new sharding pos
  now := now
  captures := []
  accepts := []
  nextId := 0
  log := []

/-- The shards of a `tcpConn` of `Listen`. -/
def listenSharding : Nat := 8

theorem listenSharding_pos : 0 < listenSharding := by decide

/-- The steps. -/
inductive ServerEvent where
  | tick (t : Time)
  /-- A segment for `port` is captured on `handle`, from the address `ip`. -/
  | capture (port : UInt16) (handle : Nat) (ip : UInt32) (tcp : Segment)
  /-- The `i`-th segment in progress updates its entry. -/
  | update (i : Nat)
  /-- The `i`-th segment in progress is put on `chMessage`. -/
  | push (i : Nat)
  /-- The `i`-th segment in progress is not put on `chMessage`. -/
  | discard (i : Nat)
  /-- The accept loop fetches the entry of a connection. -/
  | accept (key : AddrKey) (conn : Nat)
  /-- The `i`-th accepted connection binds itself to its entry. -/
  | bind (i : Nat)
  /-- The cleaner sweeps a shard. -/
  | sweep (i : Nat) (clock : AddrKey → Time)
  /-- `Close` closes `die`. -/
  | close
  /-- `Close` empties a shard. -/
  | wipe (i : Nat)
  /-- A reader receives from `chMessage`. -/
  | read

/-- The message of a segment. -/
def Capture.message (c : Capture) : Message := { bts := c.tcp.payload, addr := c.key }

/-- One step, if it is possible. -/
def Server.step (s : Server) : ServerEvent → Option Server
  | .tick t => if s.now ≤ t then some { s with now := t } else none
  | .capture port handle ip tcp =>
    -- segments for another port are dropped
    if tcp.dstPort ≠ port then some s
    else
      let key : AddrKey := { dip := ip, dport := tcp.srcPort }
      let (entry, conn) := s.conn.lockflow key s.now
      some { s with
        conn
        captures := s.captures ++ [{ id := s.nextId, key, entry, tcp, handle, stage := .fetched }]
        nextId := s.nextId + 1
        log := .started s.nextId key :: s.log }
  | .update i =>
    match s.captures[i]? with
    | some c =>
      if c.stage = .fetched then
        some { s with
          conn := s.conn.modifyFlow c.entry fun e => e.capture c.tcp c.handle s.now
          captures := s.captures.set i { c with stage := .updated (s.conn.orphan c.entry) } }
      else none
    | none => none
  | .push i =>
    match s.captures[i]? with
    | some c =>
      -- a payload of `maxPayloadSize` or more panics
      if c.stage = .updated false ∧ c.tcp.PSH ∧ c.tcp.payload.length < maxPayloadSize ∧
          s.conn.chMessage.length < chMessageCap then
        some { s with
          conn := { s.conn with chMessage := s.conn.chMessage ++ [c.message] }
          captures := s.captures.eraseIdx i
          log := .pushed c.id c.message :: s.log }
      else none
    | none => none
  | .discard i =>
    match s.captures[i]? with
    | some c =>
      -- an orphan or no data; else `die` is closed or the channel is full
      if c.stage = .updated true ∨ c.stage = .updated false ∧ (c.tcp.PSH = false ∨ s.conn.die ∨
          chMessageCap ≤ s.conn.chMessage.length) then
        some { s with captures := s.captures.eraseIdx i }
      else none
    | none => none
  | .accept key id =>
    let (entry, conn) := s.conn.lockflow key s.now
    some { s with
      conn
      accepts := s.accepts ++ [{ key, entry, conn := id }]
      log := .accepted key id :: s.log }
  | .bind i =>
    match s.accepts[i]? with
    | some a =>
      some { s with
        conn := s.conn.modifyFlow a.entry fun e => { e with conn := some a.conn }
        accepts := s.accepts.eraseIdx i
        log := .recorded a.key a.conn :: s.log }
    | none => none
  | .sweep i clock =>
    let es := s.conn.expired i clock
    some { s with conn := s.conn.drop i es, log := .removed (es.map (·.1)) :: s.log }
  | .close => some { s with conn := { s.conn with die := true } }
  | .wipe i =>
    if s.conn.die then
      let es := (s.conn.table.shard i).entries
      some { s with conn := s.conn.drop i es, log := .removed (es.map (·.1)) :: s.log }
    else none
  | .read =>
    match s.conn.chMessage with
    | [] => none
    | m :: chMessage =>
      some { s with conn := { s.conn with chMessage }, log := .read m :: s.log }

/-- The states that a listening `tcpConn` can reach. -/
def Server.Reachable (s : Server) : Prop :=
  Trans.Reach (fun s => ∃ sharding pos now, s = Server.new sharding pos now)
    (fun s e s' => s.step e = some s') s

/-! ## The steps, case by case -/

/-- One step of the listening `tcpConn`: when it is possible, and the state after it. -/
inductive ServerStep (s : Server) : ServerEvent → Server → Prop
  | tick {t : Time} (h : s.now ≤ t) : ServerStep s (.tick t) { s with now := t }
  | otherPort {port : UInt16} {handle : Nat} {ip : UInt32} {tcp : Segment}
      (h : tcp.dstPort ≠ port) : ServerStep s (.capture port handle ip tcp) s
  | capture {port : UInt16} {handle : Nat} {ip : UInt32} {tcp : Segment} {key : AddrKey}
      (h : tcp.dstPort = port) (hkey : key = { dip := ip, dport := tcp.srcPort }) :
      ServerStep s (.capture port handle ip tcp) { s with
        conn := (s.conn.lockflow key s.now).2
        captures := s.captures ++ [
          { id := s.nextId, key, entry := (s.conn.lockflow key s.now).1, tcp, handle
            stage := .fetched }]
        nextId := s.nextId + 1
        log := .started s.nextId key :: s.log }
  | update {i : Nat} {c : Capture} (hc : s.captures[i]? = some c) (hst : c.stage = .fetched) :
      ServerStep s (.update i) { s with
        conn := s.conn.modifyFlow c.entry fun e => e.capture c.tcp c.handle s.now
        captures := s.captures.set i { c with stage := .updated (s.conn.orphan c.entry) } }
  | push {i : Nat} {c : Capture} (hc : s.captures[i]? = some c) (hst : c.stage = .updated false) :
      ServerStep s (.push i) { s with
        conn := { s.conn with chMessage := s.conn.chMessage ++ [c.message] }
        captures := s.captures.eraseIdx i
        log := .pushed c.id c.message :: s.log }
  | discard {i : Nat} {c : Capture} {orphan : Bool} (hc : s.captures[i]? = some c)
      (hst : c.stage = .updated orphan) :
      ServerStep s (.discard i) { s with captures := s.captures.eraseIdx i }
  | accept {key : AddrKey} {id : Nat} :
      ServerStep s (.accept key id) { s with
        conn := (s.conn.lockflow key s.now).2
        accepts := s.accepts ++ [{ key, entry := (s.conn.lockflow key s.now).1, conn := id }]
        log := .accepted key id :: s.log }
  | bind {i : Nat} {a : Accept} (ha : s.accepts[i]? = some a) :
      ServerStep s (.bind i) { s with
        conn := s.conn.modifyFlow a.entry fun e => { e with conn := some a.conn }
        accepts := s.accepts.eraseIdx i
        log := .recorded a.key a.conn :: s.log }
  | sweep {i : Nat} {clock : AddrKey → Time} :
      ServerStep s (.sweep i clock) { s with
        conn := s.conn.drop i (s.conn.expired i clock)
        log := .removed ((s.conn.expired i clock).map (·.1)) :: s.log }
  | close : ServerStep s .close { s with conn := { s.conn with die := true } }
  | wipe {i : Nat} (hdie : s.conn.die = true) :
      ServerStep s (.wipe i) { s with
        conn := s.conn.drop i (s.conn.table.shard i).entries
        log := .removed ((s.conn.table.shard i).entries.map (·.1)) :: s.log }
  | read {m : Message} {chMessage : List Message} (hch : s.conn.chMessage = m :: chMessage) :
      ServerStep s .read { s with conn := { s.conn with chMessage }, log := .read m :: s.log }

/-- **`Server.step` makes these steps.** -/
theorem serverStep {s t : Server} {e : ServerEvent} (h : s.step e = some t) : ServerStep s e t := by
  unfold Server.step at h
  split at h
  · split at h <;> cases h
    exact .tick ‹_›
  · split at h
    · cases h
      exact .otherPort ‹_›
    · rename_i hport
      cases h
      exact .capture (not_not.1 hport) rfl
  · split at h
    · rename_i hc
      split at h <;> cases h
      exact .update hc ‹_›
    · cases h
  · split at h
    · rename_i hc
      obtain ⟨hready, h⟩ := Option.ite_none_right_eq_some.1 h
      cases h
      exact .push hc hready.1
    · cases h
  · split at h
    · rename_i hc
      obtain ⟨hst | ⟨hst, -⟩, h⟩ := Option.ite_none_right_eq_some.1 h
      · cases h
        exact .discard hc hst
      · cases h
        exact .discard hc hst
    · cases h
  · cases h
    exact .accept
  · split at h <;> cases h
    exact .bind ‹_›
  · cases h
    exact .sweep
  · cases h
    exact .close
  · split at h <;> cases h
    exact .wipe ‹_›
  · split at h <;> cases h
    exact .read ‹_›

/-! ## What a step leaves as it is -/

/-- The step is one of a captured segment. -/
def ServerEvent.decodes : ServerEvent → Bool
  | .capture _ _ _ _ | .update _ | .push _ | .discard _ => true
  | _ => false

/-- The step looks an entry up or removes entries. -/
def ServerEvent.usesTable : ServerEvent → Bool
  | .capture _ _ _ _ | .accept _ _ | .sweep _ _ | .wipe _ => true
  | _ => false

/-- What a step leaves of the segments in progress, of `die` and of the table. -/
structure Server.Frame (s t : Server) (e : ServerEvent) : Prop where
  captures : e.decodes = false → t.captures = s.captures
  die : s.conn.die = true → t.conn.die = true
  table : e.usesTable = false → t.conn.table = s.conn.table

theorem TcpConn.die_lockflow (conn : TcpConn) (key : AddrKey) (now : Time) :
    (conn.lockflow key now).2.die = conn.die := by
  unfold TcpConn.lockflow
  split <;> rfl

theorem Server.step_frame {s t : Server} {e : ServerEvent} (h : s.step e = some t) :
    Server.Frame s t e := by
  cases serverStep h with
  | capture => exact ⟨nofun, fun hdie => (TcpConn.die_lockflow _ _ _).trans hdie, nofun⟩
  | accept => exact ⟨fun _ => rfl, fun hdie => (TcpConn.die_lockflow _ _ _).trans hdie, nofun⟩
  | otherPort => exact ⟨nofun, id, nofun⟩
  | update | push | discard => exact ⟨nofun, id, fun _ => rfl⟩
  | sweep | wipe => exact ⟨fun _ => rfl, id, nofun⟩
  | close => exact ⟨fun _ => rfl, fun _ => rfl, fun _ => rfl⟩
  | tick | bind | read => exact ⟨fun _ => rfl, id, fun _ => rfl⟩

/-- **A segment that is processed without interruption**: its steps are the call of
`decodeTCPPacket`. -/
theorem Server.exec_decode (s : Server) {port : UInt16} (handle : Nat) (ip : UInt32) {tcp : Segment}
    (hport : tcp.dstPort = port) (hlen : tcp.payload.length < maxPayloadSize) :
    ∃ last, (last = .push s.captures.length ∨ last = .discard s.captures.length) ∧
      (Trans.exec Server.step [.capture port handle ip tcp, .update s.captures.length, last] s).map
          (fun s' => (s'.conn, s'.captures)) =
        some ((s.conn.decodeTCPPacket port handle ip tcp s.now).2, s.captures) := by
  have herase : ∀ c : Capture, (s.captures ++ [c]).eraseIdx s.captures.length = s.captures :=
    fun c => by simp [List.eraseIdx_append_of_length_le]
  have hlen' : ¬ maxPayloadSize ≤ tcp.payload.length := Nat.not_le.2 hlen
  rcases hfetch : s.conn.lockflow { dip := ip, dport := tcp.srcPort } s.now with ⟨e, conn⟩
  cases ho : conn.orphan e with
  | true =>
    refine ⟨.discard s.captures.length, .inr rfl, ?_⟩
    simp [Trans.exec, Server.step, TcpConn.decodeTCPPacket, TcpConn.decodeSegment, hport, hfetch,
      ho, herase]
  | false =>
    cases hpsh : tcp.PSH with
    | false =>
      refine ⟨.discard s.captures.length, .inr rfl, ?_⟩
      simp [Trans.exec, Server.step, TcpConn.decodeTCPPacket, TcpConn.decodeSegment, hport, hfetch,
        ho, hpsh, herase]
    | true =>
      by_cases hroom : chMessageCap ≤ conn.chMessage.length
      · refine ⟨.discard s.captures.length, .inr rfl, ?_⟩
        simp [Trans.exec, Server.step, TcpConn.decodeTCPPacket, TcpConn.decodeSegment,
          TcpConn.modifyFlow, hport, hfetch, ho, hpsh, hlen', hroom, herase]
      · refine ⟨.push s.captures.length, .inl rfl, ?_⟩
        simp [Trans.exec, Server.step, TcpConn.decodeTCPPacket, TcpConn.decodeSegment,
          TcpConn.modifyFlow, Capture.message, hport, hfetch, ho, hpsh, hlen, hlen', hroom,
          Nat.lt_of_not_le hroom, herase]

end Tcpraw
