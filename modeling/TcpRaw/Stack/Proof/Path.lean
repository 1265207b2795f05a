import TcpRaw.Flow.Proof.Gate
import TcpRaw.Listener.Proof.Demux
import TcpRaw.Stack.Path

/-!
# What a `FakeConn` receives was captured

The segments pass three queues on their way: the packet that `captureFlow` decodes, `chMessage`, and
the accept loop of the listener. There is one capture goroutine and one accept loop, and each queue
is first in, first out; `QueueStep` says what a step does to the first two, the listener's history
covers the third. `Path.Ok` is what holds over whole runs:

* `only_captured_payloads`: what a `FakeConn` received is a subsequence of the payloads captured
  from its own address, and a kernel connection of that address was accepted before.
* `captured_payloads_accounted`: each segment with data is in one place, or it was dropped for a
  reason.
-/

namespace Stack

open GoRt Tcpraw

variable {cfg : Config} {now : Time} {s t : State} {p q : Path} {e : Event}

/-! ## The queues -/

/-- A segment in progress. -/
def inProgress (server : Server) : List (AddrKey × Segment) :=
  server.captures.map fun c => (c.key, c.tcp)

/-- The messages on `chMessage`. -/
def queued (server : Server) : List (AddrKey × Bytes) :=
  server.conn.chMessage.map fun m => (m.addr, m.bts)

/-- The segments with data, as messages. -/
def payloads (segments : List (AddrKey × Segment)) : List (AddrKey × Bytes) :=
  (segments.filter fun x => x.2.PSH).map fun x => (x.1, x.2.payload)

theorem payloads_append (xs ys : List (AddrKey × Segment)) :
    payloads (xs ++ ys) = payloads xs ++ payloads ys := by
  rw [payloads, List.filter_append, List.map_append]
  rfl

section
variable {server server' : Server}

/-- The cleaner, the accept loop of `Listen` and `Close` leave the queues as they are. -/
theorem server_keeps {ev : ServerEvent} (h : server.step ev = some server')
    (hdecodes : ev.decodes = false) (hread : ev ≠ .read) :
    inProgress server' = inProgress server ∧ queued server' = queued server := by
  cases serverStep h with
  | tick | bind | sweep | close | wipe => exact ⟨rfl, rfl⟩
  | accept =>
    refine ⟨rfl, ?_⟩
    rw [queued, (TcpConn.lockflow_cases ..).2.2]
    rfl
  | read => exact absurd rfl hread
  | otherPort | capture | update | push | discard => cases hdecodes

theorem server_update (h : server.step (.update 0) = some server') :
    inProgress server' = inProgress server ∧ queued server' = queued server := by
  cases serverStep h with
  | update hc => exact ⟨Faketcp.map_set_of hc rfl, rfl⟩

theorem server_push (h : server.step (.push 0) = some server') :
    ∃ x, x.2.PSH = true ∧ inProgress server = x :: inProgress server' ∧
      queued server' = queued server ++ [(x.1, x.2.payload)] := by
  unfold Server.step at h
  dsimp only at h
  split at h
  · rename_i c hc
    obtain ⟨hready, h⟩ := Option.ite_none_right_eq_some.1 h
    cases h
    refine ⟨(c.key, c.tcp), hready.2.1, ?_, ?_⟩
    · cases hcap : server.captures with
      | nil => simp [hcap] at hc
      | cons c' cs =>
        rw [hcap] at hc
        cases hc
        simp [inProgress, hcap]
    · rw [queued, List.map_append]
      rfl
  · cases h

theorem server_discard (h : server.step (.discard 0) = some server') :
    ∃ c cs, server.captures = c :: cs ∧ inProgress server' = cs.map (fun c => (c.key, c.tcp)) ∧
      queued server' = queued server ∧
      (c.tcp.PSH = true → c.stage = .updated true ∨ server.conn.die = true ∨
        chMessageCap ≤ server.conn.chMessage.length) := by
  unfold Server.step at h
  dsimp only at h
  split at h
  · rename_i c hc
    obtain ⟨hready, h⟩ := Option.ite_none_right_eq_some.1 h
    cases h
    cases hcap : server.captures with
    | nil => simp [hcap] at hc
    | cons c' cs =>
      rw [hcap] at hc
      cases hc
      refine ⟨c, cs, rfl, by simp [inProgress], rfl, fun hpsh => ?_⟩
      rcases hready with ho | ⟨-, hno | hdie | hfull⟩
      · exact .inl ho
      · rw [hpsh] at hno
        cases hno
      · exact .inr (.inl hdie)
      · exact .inr (.inr hfull)
  · cases h

theorem log_suffix {ev : ServerEvent} (h : server.step ev = some server') :
    server.log <:+ server'.log := by
  cases serverStep h with
  | tick | otherPort | update | discard | close => exact List.suffix_refl _
  | capture | push | accept | bind | sweep | wipe | read => exact List.suffix_cons ..

theorem shaken_mono {k : AddrKey} {log log' : List LogEntry} (h : Shaken k log)
    (hlog : log <:+ log') : Shaken k log' := by
  obtain ⟨n, ha, hr⟩ := h
  exact ⟨n, hlog.subset ha, hlog.subset hr⟩

end

/-! ## The steps -/

/-- The step of the `tcpConn`, if there is one. -/
def State.serverEvent (cfg : Config) (s : State) : Event → Option ServerEvent
  | .capture .decode =>
    match s.capture with
    | .running (.ipv4 ip tcp :: _) => some (.capture cfg.port cfg.handle ip tcp)
    | _ => none
  | .capture .update => some (.update 0)
  | .capture .push => some (.push 0)
  | .capture .discard => some (.discard 0)
  | .close =>
    match s.closing with
    | .die => some .close
    | .wipe i => if i < s.server.conn.table.sharding then some (.wipe i) else none
    | _ => none
  | .recv _ => some .read
  | .serve ev => some ev
  | _ => none

/-- `decodeTCPPacket` takes up a packet of an IPv4 address; another one is skipped, or is the
end. -/
theorem decode_cases (h : s.captureStep cfg .decode = some t) :
    t.top = s.top ∧
      ((∃ ip tcp ds, s.capture = .running (.ipv4 ip tcp :: ds) ∧ s.server.captures = [] ∧
          s.server.step (.capture cfg.port cfg.handle ip tcp) = some t.server) ∨
        ((∀ ip tcp ds, s.capture ≠ .running (.ipv4 ip tcp :: ds)) ∧ t.server = s.server)) := by
  simp only [State.captureStep] at h
  split at h
  · rename_i ip tcp ds hrun hidle
    obtain ⟨server, hstep, rfl⟩ := Option.map_eq_some_iff.1 h
    exact ⟨rfl, .inl ⟨ip, tcp, ds, hrun, hidle, hstep⟩⟩
  · rename_i d ds hother hrun hidle
    have hnone : ∀ ip tcp ds, s.capture ≠ .running (.ipv4 ip tcp :: ds) := by
      intro ip tcp ds' hipv4
      rw [hrun] at hipv4
      cases hipv4
      exact hother ip tcp rfl
    split at h <;> cases h <;> exact ⟨rfl, .inr ⟨hnone, rfl⟩⟩
  · cases h

theorem serverEvent_decode (h : ∀ ip tcp ds, s.capture ≠ .running (.ipv4 ip tcp :: ds)) :
    s.serverEvent cfg (.capture .decode) = none ∧ s.takes cfg (.capture .decode) = none :=
  ⟨by simp only [State.serverEvent], by simp only [State.takes]⟩

/-- A step of the connection is one of its `tcpConn`, or leaves that as it is. -/
theorem serverEvent_step (h : s.step cfg e = some t) :
    (∃ ev, s.serverEvent cfg e = some ev ∧ s.server.step ev = some t.server) ∨
      (s.serverEvent cfg e = none ∧ t.server = s.server) := by
  obtain ⟨-, h⟩ := Option.ite_none_left_eq_some.1 h
  have hmap : ∀ {ev : ServerEvent} {f : Server → State}, (∀ server, (f server).server = server) →
      (s.server.step ev).map f = some t → s.server.step ev = some t.server := by
    intro ev f hf h
    obtain ⟨server, hserver, rfl⟩ := Option.map_eq_some_iff.1 h
    rw [hserver, hf]
  cases e with
  | capture ce =>
    cases ce with
    | read ds =>
      simp only [State.captureStep] at h
      split at h
      · obtain ⟨-, h⟩ := Option.ite_none_right_eq_some.1 h
        cases h
        exact .inr ⟨rfl, rfl⟩
      · cases h
    | readError =>
      simp only [State.captureStep] at h
      split at h
      · obtain ⟨-, h⟩ := Option.ite_none_left_eq_some.1 h
        split at h <;> cases h <;> exact .inr ⟨rfl, rfl⟩
      · cases h
    | decode =>
      obtain ⟨-, ⟨ip, tcp, ds, hrun, -, hstep⟩ | ⟨hother, hserver⟩⟩ := decode_cases h
      · exact .inl ⟨_, by simp only [State.serverEvent, hrun], hstep⟩
      · exact .inr ⟨(serverEvent_decode hother).1, hserver⟩
    | update => exact .inl ⟨_, rfl, hmap (fun _ => rfl) h⟩
    | push => exact .inl ⟨_, rfl, hmap (fun _ => rfl) h⟩
    | discard => exact .inl ⟨_, rfl, hmap (fun _ => rfl) h⟩
  | close =>
    cases hcl : s.closing with
    | die =>
      simp only [State.closeStep, hcl] at h
      exact .inl ⟨_, by simp only [State.serverEvent, hcl], hmap (fun _ => rfl) h⟩
    | wipe i =>
      simp only [State.closeStep, hcl] at h
      split at h
      · rename_i hi
        exact .inl ⟨_, by simp only [State.serverEvent, hcl, if_pos hi], hmap (fun _ => rfl) h⟩
      · rename_i hi
        cases h
        exact .inr ⟨by simp only [State.serverEvent, hcl, if_neg hi], rfl⟩
    | sockets =>
      simp only [State.closeStep, hcl] at h
      split at h <;> cases h <;> exact .inr ⟨by simp only [State.serverEvent, hcl], rfl⟩
    | done =>
      simp only [State.closeStep, hcl] at h
      cases h
    | handles | iptables | connList =>
      simp only [State.closeStep, hcl] at h
      cases h
      exact .inr ⟨by simp only [State.serverEvent, hcl], rfl⟩
  | recv src =>
    simp only [State.recvStep] at h
    split at h
    · obtain ⟨-, h⟩ := Option.ite_none_right_eq_some.1 h
      obtain ⟨l', -, h⟩ := Option.bind_eq_some_iff.1 h
      exact .inl ⟨_, rfl, hmap (fun _ => rfl) h⟩
    · cases h
  | eof =>
    simp only [State.eofStep] at h
    split at h
    · split at h
      · obtain ⟨-, h⟩ := Option.ite_none_right_eq_some.1 h
        cases h
        exact .inr ⟨rfl, rfl⟩
      · cases h
    · cases h
  | listener e' =>
    simp only [State.listenerStep] at h
    split at h
    · cases h
    · obtain ⟨l, -, h⟩ := Option.bind_eq_some_iff.1 h
      obtain ⟨l', -, rfl⟩ := Option.map_eq_some_iff.1 h
      exact .inr ⟨rfl, rfl⟩
  | serve ev =>
    obtain ⟨-, h⟩ := Option.ite_none_right_eq_some.1 h
    exact .inl ⟨_, rfl, hmap (fun _ => rfl) h⟩

/-- What a step does to the queues, with a listener on top. -/
inductive QueueStep (cfg : Config) (s t : State) : Event → Prop
  | takeUp {x : AddrKey × Segment} (htakes : s.takes cfg (.capture .decode) = some x)
      (hidle : inProgress s.server = []) (hprogress : inProgress t.server = [x])
      (hqueued : queued t.server = queued s.server) : QueueStep cfg s t (.capture .decode)
  | push {x : AddrKey × Segment} (hpsh : x.2.PSH = true)
      (hprogress : inProgress s.server = x :: inProgress t.server)
      (hqueued : queued t.server = queued s.server ++ [(x.1, x.2.payload)]) :
      QueueStep cfg s t (.capture .push)
  | empty {x : AddrKey × Segment} (hpsh : x.2.PSH = false)
      (hprogress : inProgress s.server = x :: inProgress t.server)
      (hqueued : queued t.server = queued s.server)
      (hdrops : s.drops (.capture .discard) = none) : QueueStep cfg s t (.capture .discard)
  | lose {x : Loss} (hpsh : x.tcp.PSH = true)
      (hwhy : x.orphan = true ∨ x.closed = true ∨ chMessageCap ≤ x.waiting)
      (hprogress : inProgress s.server = (x.key, x.tcp) :: inProgress t.server)
      (hqueued : queued t.server = queued s.server)
      (hdrops : s.drops (.capture .discard) = some x) : QueueStep cfg s t (.capture .discard)
  | recv {data : Bytes} {src : Common.Peer} (htop : s.topEvent (.recv src) = some (.recv data src))
      (hprogress : inProgress t.server = inProgress s.server)
      (hqueued : queued s.server = (flowKey src.key, data) :: queued t.server) :
      QueueStep cfg s t (.recv src)
  | keep {e : Event} (htakes : s.takes cfg e = none) (hdrops : s.drops e = none)
      (htop : ∀ data src, s.topEvent e ≠ some (.recv data src))
      (hprogress : inProgress t.server = inProgress s.server)
      (hqueued : queued t.server = queued s.server) : QueueStep cfg s t e

theorem queueStep_decode (h : s.step cfg (.capture .decode) = some t) :
    QueueStep cfg s t (.capture .decode) := by
  obtain ⟨-, h⟩ := Option.ite_none_left_eq_some.1 h
  obtain ⟨-, ⟨ip, tcp, ds, hrun, hidle, hstep⟩ | ⟨hother, hserver⟩⟩ := decode_cases h
  · generalize hserver : t.server = server at hstep
    cases serverStep hstep with
    | otherPort hport =>
      have htakes : s.takes cfg (.capture .decode) = none := by
        simp only [State.takes, hrun, if_neg hport]
      exact .keep htakes rfl nofun (by rw [hserver]) (by rw [hserver])
    | capture hport hkey =>
      refine .takeUp (by simp only [State.takes, hrun, if_pos hport]; rfl) ?_ ?_ ?_
      · rw [inProgress, hidle, List.map_nil]
      · simp only [inProgress, hserver, hidle, hkey, List.nil_append, List.map_cons, List.map_nil]
      · rw [hserver, queued, (TcpConn.lockflow_cases ..).2.2]
        rfl
  · exact .keep (serverEvent_decode hother).2 rfl nofun (by rw [hserver]) (by rw [hserver])

theorem queueStep_discard (h : s.step cfg (.capture .discard) = some t) :
    QueueStep cfg s t (.capture .discard) := by
  obtain ⟨-, h⟩ := Option.ite_none_left_eq_some.1 h
  obtain ⟨server, hstep, rfl⟩ := Option.map_eq_some_iff.1 h
  obtain ⟨c, cs, hcs, hprogress, hqueued, hwhy⟩ := server_discard hstep
  have hcons : inProgress s.server = (c.key, c.tcp) :: inProgress server := by
    rw [inProgress, hcs, hprogress, List.map_cons]
  by_cases hpsh : c.tcp.PSH = true
  · refine .lose (x := ⟨c.key, c.tcp, decide (c.stage = .updated true), s.server.conn.die,
      s.server.conn.chMessage.length⟩) hpsh ?_ hcons hqueued ?_
    · rcases hwhy hpsh with ho | hdie | hfull
      · exact .inl (decide_eq_true ho)
      · exact .inr (.inl hdie)
      · exact .inr (.inr hfull)
    · simp only [State.drops, hcs, if_pos hpsh]
  · refine .empty (Bool.eq_false_iff.2 hpsh) hcons hqueued ?_
    simp only [State.drops, hcs, if_neg hpsh]

theorem queueStep_recv {src : Common.Peer} (h : s.step cfg (.recv src) = some t) :
    QueueStep cfg s t (.recv src) := by
  obtain ⟨-, h⟩ := Option.ite_none_left_eq_some.1 h
  simp only [State.recvStep] at h
  split at h
  · rename_i l m chMessage _ hch
    obtain ⟨hkey, h⟩ := Option.ite_none_right_eq_some.1 h
    obtain ⟨l', -, h⟩ := Option.bind_eq_some_iff.1 h
    obtain ⟨server, hstep, rfl⟩ := Option.map_eq_some_iff.1 h
    cases serverStep hstep with
    | read hch' =>
      rw [hch] at hch'
      cases hch'
      have htop : s.topEvent (.recv src) = some (.recv m.bts src) := by
        simp only [State.topEvent, hch, List.head?_cons, Option.map_some]
      refine .recv htop rfl ?_
      simp only [queued, hch, List.map_cons, flowKey, hkey.1, hkey.2]
  · cases h

/-- **A step of the connection** does one of these things to the queues. -/
theorem queueStep (htop : s.top.isSome = true) (h : s.step cfg e = some t) :
    QueueStep cfg s t e := by
  have hserver := serverEvent_step h
  -- steps that are not of the decoder and do not read leave both queues
  have hkeep : ∀ {ev : ServerEvent}, s.server.step ev = some t.server → ev.decodes = false →
      ev ≠ .read → s.takes cfg e = none → s.drops e = none →
      (∀ data src, s.topEvent e ≠ some (.recv data src)) → QueueStep cfg s t e := by
    intro ev hev hdec hread htakes hdrops hrecv
    obtain ⟨hprogress, hqueued⟩ := server_keeps hev hdec hread
    exact .keep htakes hdrops hrecv hprogress hqueued
  have hsame : s.serverEvent cfg e = none → s.takes cfg e = none → s.drops e = none →
      (∀ data src, s.topEvent e ≠ some (.recv data src)) → QueueStep cfg s t e := by
    intro hnone htakes hdrops hrecv
    rcases hserver with ⟨ev, hev, -⟩ | ⟨-, hserver⟩
    · rw [hnone] at hev
      cases hev
    · exact .keep htakes hdrops hrecv (by rw [hserver]) (by rw [hserver])
  cases e with
  | capture ce =>
    cases ce with
    | read ds => exact hsame rfl rfl rfl nofun
    | readError => exact hsame rfl rfl rfl nofun
    | decode => exact queueStep_decode h
    | update =>
      obtain ⟨ev, hev, hstep⟩ | ⟨hev, -⟩ := hserver
      · cases hev
        obtain ⟨hprogress, hqueued⟩ := server_update hstep
        exact .keep rfl rfl nofun hprogress hqueued
      · cases hev
    | push =>
      obtain ⟨ev, hev, hstep⟩ | ⟨hev, -⟩ := hserver
      · cases hev
        obtain ⟨x, hpsh, hprogress, hqueued⟩ := server_push hstep
        exact .push hpsh hprogress hqueued
      · cases hev
    | discard => exact queueStep_discard h
  | recv src => exact queueStep_recv h
  | eof => exact hsame rfl rfl rfl nofun
  | listener e' =>
    refine hsame rfl rfl rfl fun data src hrecv => ?_
    cases hrecv
    obtain ⟨-, h⟩ := Option.ite_none_left_eq_some.1 h
    cases h
  | close =>
    cases hev : s.serverEvent cfg .close with
    | none => exact hsame hev rfl rfl nofun
    | some ev =>
      obtain ⟨ev', hev', hstep⟩ | ⟨hev', -⟩ := hserver
      · simp only [State.serverEvent] at hev'
        split at hev'
        · cases hev'
          exact hkeep hstep rfl nofun rfl rfl nofun
        · obtain ⟨-, hev'⟩ := Option.ite_none_right_eq_some.1 hev'
          cases hev'
          exact hkeep hstep rfl nofun rfl rfl nofun
        · cases hev'
      · rw [hev] at hev'
        cases hev'
  | serve ev =>
    obtain ⟨ev', hev', hstep⟩ | ⟨hev', -⟩ := hserver
    · cases hev'
      obtain ⟨-, h⟩ := Option.ite_none_left_eq_some.1 h
      obtain ⟨hserves, -⟩ := Option.ite_none_right_eq_some.1 h
      refine hkeep hstep ?_ ?_ rfl rfl nofun
      · cases ev <;> first | rfl | cases hserves
      · rintro rfl
        simp only [State.serves, Option.isNone_iff_eq_none] at hserves
        rw [hserves] at htop
        cases htop
    · cases hev'

/-- A step of the connection is one of the listener on top, or leaves that as it is. -/
theorem topEvent_step {l : Faketcp.Listener} (htop : s.top = some l) (h : s.step cfg e = some t) :
    (∃ ev l', s.topEvent e = some ev ∧ l.step ev = some l' ∧ t.top = some l') ∨
      (s.topEvent e = none ∧ t.top = some l) := by
  obtain ⟨-, h⟩ := Option.ite_none_left_eq_some.1 h
  cases e with
  | capture ce =>
    refine .inr ⟨rfl, Eq.trans ?_ htop⟩
    have hmap : ∀ {ev : ServerEvent} {f : Server → State}, (s.server.step ev).map f = some t →
        (∀ server, (f server).top = s.top) → t.top = s.top := by
      intro ev f h hf
      obtain ⟨server, -, rfl⟩ := Option.map_eq_some_iff.1 h
      exact hf server
    cases ce with
    | read ds =>
      simp only [State.captureStep] at h
      split at h
      · obtain ⟨-, h⟩ := Option.ite_none_right_eq_some.1 h
        cases h
        rfl
      · cases h
    | readError =>
      simp only [State.captureStep] at h
      split at h
      · obtain ⟨-, h⟩ := Option.ite_none_left_eq_some.1 h
        split at h <;> cases h <;> rfl
      · cases h
    | decode =>
      exact (decode_cases h).1
    | update => exact hmap h fun _ => rfl
    | push => exact hmap h fun _ => rfl
    | discard => exact hmap h fun _ => rfl
  | close =>
    refine .inr ⟨rfl, Eq.trans ?_ htop⟩
    simp only [State.closeStep] at h
    split at h
    · obtain ⟨server, -, rfl⟩ := Option.map_eq_some_iff.1 h
      rfl
    · split at h <;> cases h <;> rfl
    · split at h
      · obtain ⟨server, -, rfl⟩ := Option.map_eq_some_iff.1 h
        rfl
      · cases h
        rfl
    all_goals cases h
    all_goals rfl
  | recv src =>
    simp only [State.recvStep, htop] at h
    split at h
    · rename_i l m chMessage hl hch
      cases hl
      obtain ⟨-, h⟩ := Option.ite_none_right_eq_some.1 h
      obtain ⟨l', hl', h⟩ := Option.bind_eq_some_iff.1 h
      obtain ⟨server, -, rfl⟩ := Option.map_eq_some_iff.1 h
      refine .inl ⟨_, l', ?_, hl', rfl⟩
      simp only [State.topEvent, hch, List.head?_cons, Option.map_some]
    · cases h
  | eof =>
    refine .inr ⟨rfl, ?_⟩
    simp only [State.eofStep, htop] at h
    split at h
    · obtain ⟨-, h⟩ := Option.ite_none_right_eq_some.1 h
      cases h
      rfl
    · cases h
  | listener ev =>
    simp only [State.listenerStep, htop] at h
    split at h
    · cases h
    · obtain ⟨l', hl', rfl⟩ := Option.map_eq_some_iff.1 h
      exact .inl ⟨_, l', rfl, hl', rfl⟩
  | serve ev =>
    obtain ⟨-, h⟩ := Option.ite_none_right_eq_some.1 h
    obtain ⟨server, -, rfl⟩ := Option.map_eq_some_iff.1 h
    exact .inr ⟨rfl, htop⟩

/-! ## The record -/

/-- The record is of the listener's new state; only a message that is read is added to the
messages. -/
theorem record_keeps (tr : Faketcp.Traced) (l' : Faketcp.Listener) (ev : Faketcp.Event) :
    (tr.record l' ev).l = l' ∧
      ((∀ data src, ev ≠ .recv data src) → (tr.record l' ev).msgs = tr.msgs) := by
  cases ev with
  | advance =>
    simp only [Faketcp.Traced.record, Faketcp.Traced.recordAdvance]
    split
    · split <;> exact ⟨rfl, fun _ => rfl⟩
    · split <;> exact ⟨rfl, fun _ => rfl⟩
    · exact ⟨rfl, fun _ => rfl⟩
  | take f =>
    simp only [Faketcp.Traced.record]
    split <;> exact ⟨rfl, fun _ => rfl⟩
  | recv data src => exact ⟨rfl, fun h => absurd rfl (h data src)⟩
  | _ => exact ⟨rfl, fun _ => rfl⟩

theorem Path.step_eq (h : p.step cfg e = some q) :
    p.state.step cfg e = some q.state ∧ p.tracedStep e = some q.traced ∧
      q.segments = p.segments ++ (p.state.takes cfg e).toList ∧
      q.losses = p.losses ++ (p.state.drops e).toList := by
  obtain ⟨state, hstate, h⟩ := Option.bind_eq_some_iff.1 h
  obtain ⟨traced, htraced, h⟩ := Option.bind_eq_some_iff.1 h
  cases h
  exact ⟨hstate, htraced, rfl, rfl⟩

/-- **The record never holds a step back**: every step of the connection has one, if the address of
the message it reads has a port of a TCP header. -/
theorem Path.step_some (htop : p.state.top = some p.traced.l) (h : p.state.step cfg e = some t)
    (hfits : ∀ src, e = .recv src → src.addr.PortFits) :
    ∃ q, p.step cfg e = some q ∧ q.state = t := by
  obtain ⟨traced, htraced⟩ : ∃ traced, p.tracedStep e = some traced := by
    unfold Path.tracedStep
    rcases topEvent_step htop h with ⟨ev, l', hev, hl', -⟩ | ⟨hev, -⟩
    · have hfit : ev.SrcFits := by
        cases ev with
        | recv data src =>
          refine hfits src ?_
          cases e with
          | recv src' =>
            obtain ⟨m, -, hm⟩ := Option.map_eq_some_iff.1 hev
            cases hm
            rfl
          | listener ev =>
            cases hev
            obtain ⟨-, h⟩ := Option.ite_none_left_eq_some.1 h
            cases h
          | _ => cases hev
        | _ => trivial
      rw [hev]
      refine ⟨p.traced.record l' ev, ?_⟩
      dsimp only
      rw [Faketcp.Traced.step, if_pos hfit, hl', Option.map_some]
    · rw [hev]
      exact ⟨_, rfl⟩
  exact ⟨_, by rw [Path.step, h, htraced]; rfl, rfl⟩

/-! ## Whole runs -/

/-- What came out of the decoder: the messages that the accept loop read, then those on
`chMessage`. -/
def Path.carried (p : Path) : List (AddrKey × Bytes) :=
  (p.traced.msgs.map fun m => (flowKey m.src.key, m.data)) ++ queued p.state.server

/-- The payloads that were dropped. -/
def Path.lost (p : Path) : List (AddrKey × Bytes) := p.losses.map fun x => (x.key, x.tcp.payload)

/-- The segments `settled` went out of the decoder: in their order as `carried`, or as `lost`. -/
structure Settled (settled : List (AddrKey × Segment)) (carried lost : List (AddrKey × Bytes)) :
    Prop where
  ordered : carried.Sublist (payloads settled)
  each : (payloads settled).Perm (carried ++ lost)

section
variable {settled : List (AddrKey × Segment)} {carried lost : List (AddrKey × Bytes)}
  {x : AddrKey × Segment}

theorem payloads_data (hpsh : x.2.PSH = true) : payloads [x] = [(x.1, x.2.payload)] := by
  simp [payloads, hpsh]

theorem payloads_empty (hpsh : x.2.PSH = false) : payloads [x] = [] := by
  simp [payloads, hpsh]

theorem Settled.push (h : Settled settled carried lost) (hpsh : x.2.PSH = true) :
    Settled (settled ++ [x]) (carried ++ [(x.1, x.2.payload)]) lost := by
  constructor
  · rw [payloads_append, payloads_data hpsh]
    exact h.ordered.append (List.Sublist.refl _)
  · rw [payloads_append, payloads_data hpsh, List.append_assoc]
    exact ((h.each.append_right _).trans (by rw [List.append_assoc])).trans
      (List.perm_append_comm.append_left carried)

theorem Settled.empty (h : Settled settled carried lost) (hpsh : x.2.PSH = false) :
    Settled (settled ++ [x]) carried lost := by
  constructor
  · rw [payloads_append, payloads_empty hpsh, List.append_nil]
    exact h.ordered
  · rw [payloads_append, payloads_empty hpsh, List.append_nil]
    exact h.each

theorem Settled.lose (h : Settled settled carried lost) (hpsh : x.2.PSH = true) :
    Settled (settled ++ [x]) carried (lost ++ [(x.1, x.2.payload)]) := by
  constructor
  · rw [payloads_append]
    exact h.ordered.trans (List.sublist_append_left _ _)
  · rw [payloads_append, payloads_data hpsh, ← List.append_assoc]
    exact h.each.append_right _

end

/-- What holds over whole runs (module doc). -/
structure Path.Ok (cfg : Config) (p : Path) : Prop where
  top : p.state.top = some p.traced.l
  traced : p.traced.Reachable
  server : p.state.server.Reachable
  port : ∀ x ∈ p.segments, x.2.dstPort = cfg.port
  settled : ∃ settled, p.segments = settled ++ inProgress p.state.server ∧
    Settled settled p.carried p.lost
  losses : ∀ x ∈ p.losses, x.orphan = true ∨ x.closed = true ∨ chMessageCap ≤ x.waiting
  shaken : ∀ m ∈ p.traced.msgs, Shaken (flowKey m.src.key) p.state.server.log

theorem ok_init {port : UInt16} (horigin : cfg.origin = .listen port) (htop : cfg.onTop = true) :
    (cfg.path now).Ok cfg := by
  have hserver : cfg.server now = .new listenSharding listenSharding_pos now := by
    rw [Config.server, horigin]
  refine ⟨by simp [Config.path, Config.init, htop, Faketcp.Traced.new], .init ⟨now, rfl⟩, ?_, nofun,
    ?_, nofun, nofun⟩
  · exact .init ⟨_, _, now, hserver⟩
  · refine ⟨[], ?_, ?_⟩
    · show [] = [] ++ inProgress (cfg.server now)
      rw [hserver]
      rfl
    · show Settled [] ([] ++ queued (cfg.server now)) []
      rw [hserver]
      exact ⟨List.Sublist.refl _, List.Perm.refl _⟩

/-- The listener's history after a step: it is one of the listener, or as it was. -/
theorem tracedStep_cases (h : p.tracedStep e = some q.traced) :
    (∃ ev, p.state.topEvent e = some ev ∧ p.traced.step ev = some q.traced) ∨
      (p.state.topEvent e = none ∧ q.traced = p.traced) := by
  unfold Path.tracedStep at h
  split at h
  · rename_i ev hev
    exact .inl ⟨ev, hev, h⟩
  · rename_i hev
    exact .inr ⟨hev, (Option.some.inj h).symm⟩

theorem msgs_keep (h : p.tracedStep e = some q.traced)
    (hrecv : ∀ data src, p.state.topEvent e ≠ some (.recv data src)) :
    q.traced.msgs = p.traced.msgs := by
  rcases tracedStep_cases h with ⟨ev, hev, hstep⟩ | ⟨-, hsame⟩
  · obtain ⟨-, l', -, hq⟩ := Faketcp.Traced.step_eq hstep
    rw [hq]
    refine (record_keeps _ _ _).2 fun data src hevent => hrecv data src ?_
    rw [hev, hevent]
  · rw [hsame]

theorem msgs_recv {data : Bytes} {src : Common.Peer} (h : p.tracedStep e = some q.traced)
    (htop : p.state.topEvent e = some (.recv data src)) :
    q.traced.msgs = p.traced.msgs ++ [⟨data, src⟩] := by
  rcases tracedStep_cases h with ⟨ev, hev, hstep⟩ | ⟨hev, -⟩
  · rw [htop] at hev
    cases hev
    obtain ⟨-, l', -, hq⟩ := Faketcp.Traced.step_eq hstep
    rw [hq]
    rfl
  · rw [htop] at hev
    cases hev

theorem shaken_of_queued {server : Server} (h : server.Reachable) {x : AddrKey × Bytes}
    (hx : x ∈ queued server) : Shaken x.1 server.log := by
  obtain ⟨m, hm, rfl⟩ := List.mem_map.1 hx
  have hgate := gate_of_reachable h
  obtain ⟨id, hid⟩ := hgate.channel m hm
  exact hgate.shaken_of_pushed (List.nil_append _).symm hid

theorem settled_step (h : p.Ok cfg) (hs : p.step cfg e = some q) :
    ∃ settled, q.segments = settled ++ inProgress q.state.server ∧
      Settled settled q.carried q.lost := by
  obtain ⟨hstate, htraced, hsegments, hlosses⟩ := Path.step_eq hs
  obtain ⟨settled, hsettled, hok⟩ := h.settled
  -- what is carried and lost where the step neither reads nor drops
  have hcarried : (∀ data src, p.state.topEvent e ≠ some (.recv data src)) → ∀ {xs},
      queued q.state.server = queued p.state.server ++ xs → q.carried = p.carried ++ xs := by
    intro hrecv xs hqueued
    rw [Path.carried, Path.carried, msgs_keep htraced hrecv, hqueued, List.append_assoc]
  have hlost : p.state.drops e = none → q.lost = p.lost := by
    intro hdrops
    rw [Path.lost, Path.lost, hlosses, hdrops, Option.toList_none, List.append_nil]
  cases queueStep (by rw [h.top]; rfl) hstate with
  | @takeUp x htakes hidle hprogress hqueued =>
    refine ⟨settled, ?_, ?_⟩
    · rw [hsegments, hsettled, hidle, htakes, hprogress, List.append_nil]
      rfl
    · rw [hcarried nofun (hqueued.trans (List.append_nil _).symm), List.append_nil, hlost rfl]
      exact hok
  | @push x hpsh hprogress hqueued =>
    refine ⟨settled ++ [x], ?_, ?_⟩
    · rw [hsegments, hsettled, hprogress, List.append_assoc, List.append_assoc]
      exact congrArg _ (List.append_nil _)
    · rw [hcarried nofun hqueued, hlost rfl]
      exact hok.push hpsh
  | @empty x hpsh hprogress hqueued hdrops =>
    refine ⟨settled ++ [x], ?_, ?_⟩
    · rw [hsegments, hsettled, hprogress, List.append_assoc, List.append_assoc]
      exact congrArg _ (List.append_nil _)
    · rw [hcarried nofun (hqueued.trans (List.append_nil _).symm), List.append_nil, hlost hdrops]
      exact hok.empty hpsh
  | @lose x hpsh hwhy hprogress hqueued hdrops =>
    refine ⟨settled ++ [(x.key, x.tcp)], ?_, ?_⟩
    · rw [hsegments, hsettled, hprogress, List.append_assoc, List.append_assoc]
      exact congrArg _ (List.append_nil _)
    · rw [hcarried nofun (hqueued.trans (List.append_nil _).symm), List.append_nil, Path.lost,
        hlosses, hdrops, List.map_append]
      exact hok.lose hpsh
  | @recv data src htop hprogress hqueued =>
    refine ⟨settled, ?_, ?_⟩
    · rw [hsegments, hsettled, hprogress]
      exact List.append_nil _
    · have hsame : q.carried = p.carried := by
        rw [Path.carried, Path.carried, msgs_recv htraced htop, hqueued, List.map_append,
          List.append_assoc]
        rfl
      rw [hsame, hlost rfl]
      exact hok
  | keep htakes hdrops hrecv hprogress hqueued =>
    refine ⟨settled, ?_, ?_⟩
    · rw [hsegments, hsettled, hprogress, htakes]
      exact List.append_nil _
    · rw [hcarried hrecv (hqueued.trans (List.append_nil _).symm), List.append_nil, hlost hdrops]
      exact hok

theorem takes_port {x : AddrKey × Segment} (h : s.takes cfg e = some x) :
    x.2.dstPort = cfg.port := by
  unfold State.takes at h
  split at h
  · split at h
    · obtain ⟨hport, h⟩ := Option.ite_none_right_eq_some.1 h
      cases h
      exact hport
    · cases h
  · cases h

/-- **The invariant is kept by every step.** -/
theorem ok_step (h : p.Ok cfg) (hs : p.step cfg e = some q) : q.Ok cfg := by
  obtain ⟨hstate, htraced, hsegments, hlosses⟩ := Path.step_eq hs
  have hlog : p.state.server.log <:+ q.state.server.log := by
    rcases serverEvent_step hstate with ⟨ev, -, hev⟩ | ⟨-, hsame⟩
    · exact log_suffix hev
    · exact hsame ▸ List.suffix_refl _
  have hqueue := queueStep (by rw [h.top]; rfl) hstate
  refine ⟨?_, ?_, ?_, ?_, settled_step h hs, ?_, ?_⟩
  · rcases tracedStep_cases htraced with ⟨ev, hev, hstep⟩ | ⟨hev, hsame⟩
    · obtain ⟨-, l', hl', hq⟩ := Faketcp.Traced.step_eq hstep
      rcases topEvent_step h.top hstate with ⟨ev', l'', hev', hl'', htop⟩ | ⟨hev', -⟩
      · rw [hev] at hev'
        cases hev'
        rw [hl'] at hl''
        cases hl''
        rw [htop, hq, (record_keeps _ _ _).1]
      · rw [hev] at hev'
        cases hev'
    · rcases topEvent_step h.top hstate with ⟨ev', l'', hev', -⟩ | ⟨-, htop⟩
      · rw [hev] at hev'
        cases hev'
      · rw [htop, hsame]
  · rcases tracedStep_cases htraced with ⟨ev, -, hstep⟩ | ⟨-, hsame⟩
    · exact .step h.traced hstep
    · rw [hsame]
      exact h.traced
  · rcases serverEvent_step hstate with ⟨ev, -, hev⟩ | ⟨-, hsame⟩
    · exact .step h.server hev
    · rw [hsame]
      exact h.server
  · intro x hx
    rw [hsegments] at hx
    rcases List.mem_append.1 hx with hx | hx
    · exact h.port x hx
    · exact takes_port (Option.mem_toList.1 hx)
  · intro x hx
    rw [hlosses] at hx
    rcases List.mem_append.1 hx with hx | hx
    · exact h.losses x hx
    · have hx := Option.mem_toList.1 hx
      cases hqueue with
      | lose hpsh hwhy hprogress hqueued hdrops =>
        rw [hdrops] at hx
        cases hx
        exact hwhy
      | empty hpsh hprogress hqueued hdrops =>
        rw [hdrops] at hx
        cases hx
      | keep htakes hdrops =>
        rw [hdrops] at hx
        cases hx
      | _ => cases hx
  · intro m hm
    cases hqueue with
    | @recv data src htop hprogress hqueued =>
      rw [msgs_recv htraced htop] at hm
      rcases List.mem_append.1 hm with hm | hm
      · exact shaken_mono (h.shaken m hm) hlog
      · rw [List.mem_singleton.1 hm]
        refine shaken_mono (shaken_of_queued h.server (x := (flowKey src.key, data)) ?_) hlog
        rw [hqueued]
        exact List.mem_cons_self
    | keep htakes hdrops hrecv =>
      rw [msgs_keep htraced hrecv] at hm
      exact shaken_mono (h.shaken m hm) hlog
    | _ =>
      rw [msgs_keep htraced nofun] at hm
      exact shaken_mono (h.shaken m hm) hlog

theorem ok_of_reachable {port : UInt16} (horigin : cfg.origin = .listen port)
    (htop : cfg.onTop = true) (h : p.Reachable cfg now) : p.Ok cfg := by
  refine h.invariant ?_ fun _ _ _ h hs => ok_step h hs
  rintro _ rfl
  exact ok_init horigin htop

/-! ## What a `FakeConn` receives -/

theorem key_of_same {a b : Common.Peer} (h : a.addr.same b.addr = true) : a.key = b.key := by
  obtain ⟨ip, port, ip4, hea, hipa, hbea, hpa⟩ := Common.addrToKey_ok a.key_ok
  obtain ⟨ip', port', ip4', heb, hipb, hbeb, hpb⟩ := Common.addrToKey_ok b.key_ok
  rw [hea, heb] at h
  simp only [Common.NetAddr.same, hipa, hipb, Bool.and_eq_true, beq_iff_eq, Option.some.injEq] at h
  obtain ⟨rfl, rfl⟩ := h
  have hip : a.key.ip = b.key.ip := Except.ok.inj (hbea.symm.trans hbeb)
  have hport : a.key.port = b.key.port := hpa.trans hpb.symm
  cases ha : a.key with
  | mk i j =>
    cases hb : b.key with
    | mk i' j' =>
      rw [ha, hb] at hip hport
      cases hip
      cases hport
      rfl

theorem Settled.of_key {settled : List (AddrKey × Segment)} {carried lost : List (AddrKey × Bytes)}
    (h : Settled settled carried lost) (k : AddrKey) :
    ((carried.filter fun x => x.1 = k).map (·.2)).Sublist
      ((settled.filter fun x => x.1 = k ∧ x.2.PSH).map fun x => x.2.payload) := by
  have hsub := (h.ordered.filter fun x => x.1 = k).map (·.2)
  rw [payloads, List.filter_map, List.map_map, List.filter_filter] at hsub
  refine hsub.trans ((List.monotone_filter_right _ fun x hx => ?_).map _)
  simpa using hx

/-- **What a `FakeConn` receives was captured from its peer.** In every run of a listening `tcpConn`
with a listener on top: what the application received from a `FakeConn`, and what waits in it, are
payloads of segments that were captured from its own address for the listening port, in the order of
their capture and each at most once; and if there is anything, a kernel connection of that address
was accepted before. -/
theorem only_captured_payloads {port : UInt16} (horigin : cfg.origin = .listen port)
    (htop : cfg.onTop = true) (hp : p.Reachable cfg now) {f : Nat} {c : Faketcp.FakeConn}
    (hc : p.traced.l.conns[f]? = some c) :
    p.state.top = some p.traced.l ∧
      (Faketcp.takenOf p.traced.taken f ++ c.recvch).Sublist
        ((p.segments.filter fun x => x.1 = flowKey c.addr.key ∧ x.2.dstPort = port ∧ x.2.PSH).map
          fun x => x.2.payload) ∧
      (Faketcp.takenOf p.traced.taken f ++ c.recvch ≠ [] →
        Shaken (flowKey c.addr.key) p.state.server.log) := by
  have h := ok_of_reachable horigin htop hp
  obtain ⟨hrouted, haccounts⟩ := Faketcp.history_of_reachable h.traced
  obtain ⟨hsub, hdata⟩ := Faketcp.received_of hrouted haccounts hc
  obtain ⟨settled, hsegments, hsettled⟩ := h.settled
  have hport : cfg.port = port := by rw [Config.port, horigin]
  rw [← hdata]
  refine ⟨h.top, ?_, fun hne => ?_⟩
  · have hmsgs : ((p.traced.received f).map (·.data)).Sublist
        ((p.traced.msgs.filter fun m => flowKey m.src.key = flowKey c.addr.key).map (·.data)) := by
      refine (hsub.trans (List.monotone_filter_right _ fun m hm => ?_)).map _
      exact decide_eq_true (congrArg flowKey (key_of_same hm).symm)
    have hcarried : ((p.traced.msgs.filter fun m => flowKey m.src.key = flowKey c.addr.key).map
        (·.data)).Sublist ((p.carried.filter fun x => x.1 = flowKey c.addr.key).map (·.2)) := by
      rw [Path.carried, List.filter_append, List.map_append, List.filter_map, List.map_map]
      exact List.sublist_append_left _ _
    have hwhole : ((settled.filter fun x => x.1 = flowKey c.addr.key ∧ x.2.PSH).map
        fun x => x.2.payload).Sublist ((p.segments.filter fun x =>
          x.1 = flowKey c.addr.key ∧ x.2.dstPort = port ∧ x.2.PSH).map fun x => x.2.payload) := by
      have hpre : settled.Sublist p.segments := hsegments ▸ List.sublist_append_left _ _
      have hall : p.segments.filter (fun x => x.1 = flowKey c.addr.key ∧ x.2.PSH) =
          p.segments.filter fun x => x.1 = flowKey c.addr.key ∧ x.2.dstPort = port ∧ x.2.PSH :=
        List.filter_congr fun x hx => by simp [(h.port x hx).trans hport]
      rw [← hall]
      exact (hpre.filter _).map _
    exact (hmsgs.trans hcarried).trans ((hsettled.of_key _).trans hwhole)
  · -- something was received, so some message of the peer was read
    obtain ⟨m, hm⟩ : ∃ m, m ∈ p.traced.received f :=
      List.exists_mem_of_ne_nil _ fun hnil => hne (by rw [hnil, List.map_nil])
    obtain ⟨hm, hsame⟩ := List.mem_filter.1 (hsub.subset hm)
    rw [key_of_same hsame]
    exact h.shaken m hm

/-- A listener on port 80. -/
def listen80 : Config where
  origin := .listen 80
  batchSize := 1
  onTop := true
  arrives _ := true

/-- A kernel connection is accepted, a segment is captured, and its payload read by the
application. -/
def onePayload : List Event :=
  [.serve (.accept gatePeer 7), .serve (.bind 0), .capture (.read [.ipv4 gatePeer.dip gateSegment]),
    .capture .decode, .capture .update, .capture .push, .recv Faketcp.peerA, .listener .advance,
    .listener .advance, .listener .advance, .listener .advance, .listener .advance,
    .listener .accept, .listener (.take 0)]

theorem only_captured_payloads_one :
    ∃ p c, Trans.exec (Path.step listen80) onePayload (listen80.path 0) = some p ∧
      p.traced.l.conns[0]? = some c ∧ Faketcp.takenOf p.traced.taken 0 = [[42]] ∧
      Shaken (flowKey c.addr.key) p.state.server.log := by
  have hrun : (Trans.exec (Path.step listen80) onePayload (listen80.path 0)).map (fun p =>
      (Faketcp.takenOf p.traced.taken 0, (p.traced.l.conns[0]?).isSome)) = some ([[42]], true) := by
    decide +kernel
  obtain ⟨p, hp, hres⟩ := Option.map_eq_some_iff.1 hrun
  obtain ⟨htaken, hconn⟩ := Prod.mk.inj hres
  obtain ⟨c, hc⟩ := Option.isSome_iff_exists.1 hconn
  have hreach : p.Reachable listen80 0 := Trans.Reach.exec (fun _ _ _ h => h) (.init rfl) hp
  obtain ⟨-, -, hshaken⟩ := only_captured_payloads (show listen80.origin = .listen 80 from rfl) rfl
    hreach hc
  refine ⟨p, c, hp, hc, htaken, hshaken ?_⟩
  rw [htaken]
  exact List.cons_ne_nil _ _

/-- **Every captured payload is accounted for.** In every run of a listening `tcpConn` with a
listener on top, the segments with data that were captured for its port are, each once: those that
the accept loop read, those on `chMessage`, those that were dropped, and the one that is being
decoded. A segment is dropped only if its flow was not bound to a kernel connection, `die` is
closed, or `chMessage` is full. -/
theorem captured_payloads_accounted {port : UInt16} (horigin : cfg.origin = .listen port)
    (htop : cfg.onTop = true) (hp : p.Reachable cfg now) :
    (payloads p.segments).Perm
        ((p.traced.msgs.map fun m => (flowKey m.src.key, m.data)) ++ queued p.state.server ++
          (p.losses.map fun x => (x.key, x.tcp.payload)) ++ payloads (inProgress p.state.server)) ∧
      ∀ x ∈ p.losses, x.orphan = true ∨ x.closed = true ∨ chMessageCap ≤ x.waiting := by
  have h := ok_of_reachable horigin htop hp
  obtain ⟨settled, hsegments, hsettled⟩ := h.settled
  refine ⟨?_, h.losses⟩
  rw [hsegments, payloads_append]
  exact hsettled.each.append_right _

/-- A second segment of another peer, without a kernel connection, is dropped. -/
theorem captured_payloads_accounted_orphan :
    ∃ p, Trans.exec (Path.step listen80) (onePayload ++
        [.capture (.read [.ipv4 0x0a000002 gateSegment]), .capture .decode, .capture .update,
          .capture .discard]) (listen80.path 0) = some p ∧
      (payloads p.segments).Perm [(gatePeer, [42]), ({ dip := 0x0a000002, dport := 4000 }, [42])] ∧
      p.losses.map (fun x => x.orphan) = [true] := by
  have hrun : (Trans.exec (Path.step listen80) (onePayload ++
      [.capture (.read [.ipv4 0x0a000002 gateSegment]), .capture .decode, .capture .update,
        .capture .discard]) (listen80.path 0)).map (fun p =>
      ((p.traced.msgs.map fun m => (flowKey m.src.key, m.data)) ++ queued p.state.server ++
          (p.losses.map fun x => (x.key, x.tcp.payload)) ++ payloads (inProgress p.state.server),
        p.losses.map (fun x => x.orphan))) =
      some ([(gatePeer, [42]), ({ dip := 0x0a000002, dport := 4000 }, [42])], [true]) := by
    decide +kernel
  obtain ⟨p, hp, hres⟩ := Option.map_eq_some_iff.1 hrun
  obtain ⟨hplaces, horphan⟩ := Prod.mk.inj hres
  have hreach : p.Reachable listen80 0 := Trans.Reach.exec (fun _ _ _ h => h) (.init rfl) hp
  obtain ⟨hperm, -⟩ := captured_payloads_accounted (show listen80.origin = .listen 80 from rfl) rfl
    hreach
  rw [hplaces] at hperm
  exact ⟨p, hp, hperm, horphan⟩

end Stack
