import TcpRaw.Stack.Stack

/-!
# When a connection closes without a panic

`shutdown_iff`: in every interleaving of `Close` with the loops of a connection no loop panics, and
`captureFlow` returns once its handle is closed, exactly if `BatchSize < 2`, no listener is on top,
and neither a packet without a TCP layer nor one over IPv6 for the port is read. With a larger
`BatchSize` the error that ends `captureFlow` is a panic, and the accept loop of a listener has no
other end than one.

`captureFlow` returns because a closed handle gives it nothing new to decode: `State.pending` counts
the steps that it has left, each of its steps takes one of them (`pending_step`), and none of them
can block (`capture_enabled`).
-/

namespace Stack

open GoRt Tcpraw

variable {cfg : Config} {now : Time} {s t : State}

/-! ## The packet being decoded -/

/-- The steps that are left for a packet that `lockflow` was called for. -/
def captureSteps (c : Capture) : Nat :=
  match c.stage with
  | .fetched => 2
  | .updated _ => 1

/-- The steps that are left for the packets being decoded. -/
def work (server : Server) : Nat := (server.captures.map captureSteps).sum

/-- At most one packet is being decoded: there is one capture goroutine. -/
def Single (server : Server) : Prop := server.captures = [] ∨ ∃ c, server.captures = [c]

section
variable {server server' : Server}

theorem capture_step (hidle : server.captures = []) (port : UInt16) (handle : Nat) (ip : UInt32)
    (tcp : Segment) :
    ∃ server', server.step (.capture port handle ip tcp) = some server' ∧
      server'.conn.die = server.conn.die ∧ Single server' ∧
      work server' = if tcp.dstPort = port then 2 else 0 := by
  by_cases hport : tcp.dstPort = port
  · refine ⟨_, if_neg (not_not_intro hport), TcpConn.die_lockflow _ _ _, ?_, ?_⟩
    · exact .inr ⟨_, by rw [hidle]; rfl⟩
    · simp [work, hidle, captureSteps, hport]
  · refine ⟨server, if_pos hport, rfl, .inl hidle, ?_⟩
    simp [work, hidle, hport]

theorem decode_step {e : ServerEvent} (hsingle : Single server)
    (he : e = .update 0 ∨ e = .push 0 ∨ e = .discard 0) (h : server.step e = some server') :
    server.captures ≠ [] ∧ server'.conn.die = server.conn.die ∧ Single server' ∧
      work server' + 1 = work server := by
  -- the packet is the only one in progress
  have hfirst : ∀ {c}, server.captures[0]? = some c → server.captures = [c] := by
    intro c hc
    obtain hnil | ⟨c', hone⟩ := hsingle
    · simp [hnil] at hc
    · simpa [hone] using hc
  rcases he with rfl | rfl | rfl
  · cases serverStep h with
    | update hc hst =>
      simp [Single, work, hfirst hc, captureSteps, hst, TcpConn.modifyFlow]
  · cases serverStep h with
    | push hc hst => simp [Single, work, hfirst hc, captureSteps, hst]
  · cases serverStep h with
    | discard hc hst => simp [Single, work, hfirst hc, captureSteps, hst]

end

/-! ## What a step can do -/

/-- The steps that a packet takes, the call of `lockflow` included. -/
def Datagram.steps (port : UInt16) : Datagram → Nat
  | .ipv4 _ tcp => if tcp.dstPort = port then 3 else 1
  | _ => 1

/-- What no step of `captureFlow` touches; one packet at most is being decoded. -/
structure CaptureFrame (s t : State) : Prop where
  closing : t.closing = s.closing
  top : t.top = s.top
  die : t.server.conn.die = s.server.conn.die
  single : Single t.server

/-- The steps of `captureFlow`: a read, a failed read, the next packet, a packet that it panics on,
or a step of the packet that is being decoded. -/
inductive CaptureStep (cfg : Config) (s t : State) : Prop
  | read {ds : List Datagram} (hopen : s.closing.handleClosed = false)
      (hread : cfg.readable ds = true) (hpanicked : t.panicked = s.panicked)
      (hcapture : t.capture = .running ds)
  | failed (hrunning : s.capture = .running []) (hidle : s.server.captures = [])
      (hserver : t.server = s.server)
      (hpanicked : t.panicked = if cfg.batchSize < 2 then s.panicked else some .readBatch)
      (hcapture : t.capture = if cfg.batchSize < 2 then .returned else .running [])
  | next {d : Datagram} {ds : List Datagram} (hrunning : s.capture = .running (d :: ds))
      (hidle : s.server.captures = []) (hpanicked : t.panicked = s.panicked)
      (hcapture : t.capture = .running ds) (hwork : work t.server + 1 = d.steps cfg.port)
  | fault {d : Datagram} {ds : List Datagram} {fault : Fault}
      (hrunning : s.capture = .running (d :: ds)) (hfault : d.fault cfg.port = some fault)
  | decoding (hbusy : s.server.captures ≠ []) (hpanicked : t.panicked = s.panicked)
      (hcapture : t.capture = s.capture) (hwork : work t.server + 1 = work s.server)

theorem captureStep_decoding {e : ServerEvent} (hsingle : Single s.server)
    (he : e = .update 0 ∨ e = .push 0 ∨ e = .discard 0)
    (h : (s.server.step e).map (fun server => { s with server }) = some t) :
    CaptureFrame s t ∧ CaptureStep cfg s t := by
  obtain ⟨server, hserver, rfl⟩ := Option.map_eq_some_iff.1 h
  obtain ⟨hbusy, hdie, hs, hwork⟩ := decode_step hsingle he hserver
  exact ⟨⟨rfl, rfl, hdie, hs⟩, .decoding hbusy rfl rfl hwork⟩

/-- **`State.captureStep` makes these steps.** -/
theorem captureStep_cases {e : CaptureEvent} (hsingle : Single s.server)
    (h : s.captureStep cfg e = some t) : CaptureFrame s t ∧ CaptureStep cfg s t := by
  cases e with
  | read ds =>
    simp only [State.captureStep] at h
    split at h
    case h_2 => cases h
    case h_1 hcap hidle =>
      split at h
      case isFalse => cases h
      case isTrue hopen =>
        cases h
        exact ⟨⟨rfl, rfl, rfl, hsingle⟩, .read hopen.1 hopen.2 rfl rfl⟩
  | readError =>
    simp only [State.captureStep] at h
    split at h
    case h_2 => cases h
    case h_1 hcap hidle =>
      split at h
      case isTrue => cases h
      case isFalse =>
        by_cases hbatch : cfg.batchSize < 2
        · rw [if_pos hbatch] at h
          cases h
          exact ⟨⟨rfl, rfl, rfl, hsingle⟩,
            .failed hcap hidle rfl (by simp [hbatch]) (by simp [hbatch])⟩
        · rw [if_neg hbatch] at h
          cases h
          exact ⟨⟨rfl, rfl, rfl, hsingle⟩,
            .failed hcap hidle rfl (by simp [hbatch]) (by simp [hbatch, hcap])⟩
  | decode =>
    simp only [State.captureStep] at h
    split at h
    case h_3 => cases h
    case h_1 ip tcp ds hcap hidle =>
      obtain ⟨server, hserver, hdie, hs, hwork⟩ :=
        capture_step hidle cfg.port cfg.handle ip tcp
      rw [hserver] at h
      cases h
      refine ⟨⟨rfl, rfl, hdie, hs⟩, .next hcap hidle rfl rfl ?_⟩
      rw [hwork, Datagram.steps]
      split <;> rfl
    case h_2 d ds hother hcap hidle =>
      split at h
      case h_1 fault hfault =>
        cases h
        exact ⟨⟨rfl, rfl, rfl, hsingle⟩, .fault hcap hfault⟩
      case h_2 hfault =>
        cases h
        refine ⟨⟨rfl, rfl, rfl, hsingle⟩, .next hcap hidle rfl rfl ?_⟩
        simp only [work, hidle, List.map_nil, List.sum_nil]
        cases d with
        | ipv4 ip tcp => exact absurd rfl (hother ip tcp)
        | _ => rfl
  | update => exact captureStep_decoding hsingle (.inl rfl) h
  | push => exact captureStep_decoding hsingle (.inr (.inl rfl)) h
  | discard => exact captureStep_decoding hsingle (.inr (.inr rfl)) h

/-- What the other steps leave of the state of `captureFlow`, and how far `Close` is after them. -/
structure Undisturbed (s t : State) : Prop where
  capture : t.capture = s.capture
  captures : t.server.captures = s.server.captures
  die : s.server.conn.die = true → t.server.conn.die = true
  panicked : t.panicked = s.panicked
  top : s.top = none → t.top = none
  closed : s.closing.handleClosed = true → t.closing.handleClosed = true
  begun : t.closing ≠ .die → s.closing ≠ .die ∨ t.server.conn.die = true

theorem undisturbed_serve {e : ServerEvent} (h : s.serveStep cfg e = some t) :
    Undisturbed s t := by
  unfold State.serveStep at h
  split at h
  case isFalse => cases h
  case isTrue hserves =>
    obtain ⟨server, hserver, rfl⟩ := Option.map_eq_some_iff.1 h
    have hframe := Server.step_frame hserver
    have hdecodes : e.decodes = false := by
      cases e <;> first | rfl | cases hserves
    exact ⟨rfl, hframe.captures hdecodes, hframe.die, rfl, id, id, .inl⟩

theorem undisturbed_recv {src : Common.Peer} (h : s.recvStep src = some t) : Undisturbed s t := by
  unfold State.recvStep at h
  split at h
  case h_2 => cases h
  case h_1 l m chMessage htop hmsg =>
    split at h
    case isFalse => cases h
    case isTrue =>
      obtain ⟨l', -, h⟩ := Option.bind_eq_some_iff.1 h
      obtain ⟨server, hserver, rfl⟩ := Option.map_eq_some_iff.1 h
      have hframe := Server.step_frame hserver
      exact ⟨rfl, hframe.captures rfl, hframe.die, rfl, by simp [htop], id, .inl⟩

theorem undisturbed_listener {e : Faketcp.Event} (h : s.listenerStep e = some t) :
    Undisturbed s t := by
  unfold State.listenerStep at h
  split at h
  · cases h
  · obtain ⟨l, htop, h⟩ := Option.bind_eq_some_iff.1 h
    obtain ⟨l', -, rfl⟩ := Option.map_eq_some_iff.1 h
    exact ⟨rfl, rfl, id, rfl, by simp [htop], id, .inl⟩

theorem undisturbed_close (h : s.closeStep cfg = some t) : Undisturbed s t := by
  unfold State.closeStep at h
  split at h
  case h_1 hphase =>
    cases h
    exact ⟨rfl, rfl, fun _ => rfl, rfl, id, by simp [hphase, ClosePhase.handleClosed],
      fun _ => .inr rfl⟩
  case h_2 hphase =>
    split at h <;> cases h <;>
      exact ⟨rfl, rfl, id, rfl, id, by simp [hphase, ClosePhase.handleClosed],
        fun _ => .inl (by simp [hphase])⟩
  case h_3 i hphase =>
    split at h
    case isTrue hi =>
      obtain ⟨server, hserver, rfl⟩ := Option.map_eq_some_iff.1 h
      have hframe := Server.step_frame hserver
      exact ⟨rfl, hframe.captures rfl, hframe.die, rfl, id,
        by simp [hphase, ClosePhase.handleClosed], fun _ => .inl (by simp [hphase])⟩
    case isFalse =>
      cases h
      exact ⟨rfl, rfl, id, rfl, id, by simp [hphase, ClosePhase.handleClosed],
        fun _ => .inl (by simp [hphase])⟩
  case h_7 => cases h
  all_goals
    rename_i hphase
    cases h
    exact ⟨rfl, rfl, id, rfl, id, fun _ => rfl, fun _ => .inl (by simp [hphase])⟩

/-- **The other steps** leave `captureFlow` as it is, and panic only with a listener on top. -/
theorem undisturbed_step {e : Event} (h : s.step cfg e = some t) (he : ∀ e', e ≠ .capture e')
    (heof : e ≠ .eof) : Undisturbed s t := by
  unfold State.step at h
  split at h
  case isTrue => cases h
  case isFalse =>
    cases e with
    | capture e => exact absurd rfl (he e)
    | eof => exact absurd rfl heof
    | close => exact undisturbed_close h
    | recv src => exact undisturbed_recv h
    | listener e => exact undisturbed_listener h
    | serve e => exact undisturbed_serve h

/-! ## No listener on top, no batches, and packets that nothing panics on -/

/-- No packet that can be read makes `decodeTCPPacket` panic. -/
def Config.Clean (cfg : Config) : Prop :=
  ∀ d, cfg.readable [d] = true → d ≠ .noTCP ∧ ∀ tcp, d = .ipv6 tcp → tcp.dstPort ≠ cfg.port

/-- Without batches a read returns one packet, which is harmless if the arrivals are clean. -/
theorem Config.Clean.fault_eq_none (hclean : cfg.Clean) (hbatch : cfg.batchSize < 2)
    {ds : List Datagram} (hread : cfg.readable ds = true) :
    ∀ d ∈ ds, d.fault cfg.port = none := by
  have hone : ds.length = 1 ∧ ds.all Datagram.unbatched = true := by
    simp only [Config.readable, hbatch, if_true, Bool.and_eq_true, decide_eq_true_eq] at hread
    exact hread.2
  obtain ⟨d, rfl⟩ := List.length_eq_one_iff.1 hone.1
  obtain ⟨hlayer, hport⟩ := hclean d hread
  intro d' hd'
  rw [List.mem_singleton.1 hd']
  cases d with
  | ipv4 ip tcp => rfl
  | ipv6 tcp => exact if_neg (hport tcp rfl)
  | noTCP => exact absurd rfl hlayer
  | other => rfl
  | short => cases hone.2

/-- What holds as long as nothing panics. -/
structure Orderly (cfg : Config) (s : State) : Prop where
  panicked : s.panicked = none
  top : s.top = none
  single : Single s.server
  /-- `captureFlow` returns from its read. -/
  returned : s.capture = .returned → s.server.captures = []
  die : s.closing ≠ .die → s.server.conn.die = true
  todo : ∀ ds, s.capture = .running ds → ∀ d ∈ ds, d.fault cfg.port = none

theorem captures_init (cfg : Config) (now : Time) : (cfg.init now).server.captures = [] := by
  unfold Config.init Config.server
  dsimp only
  split <;> rfl

theorem orderly_init (htop : cfg.onTop = false) : Orderly cfg (cfg.init now) where
  panicked := rfl
  top := by simp [Config.init, htop]
  single := .inl (captures_init cfg now)
  returned := nofun
  die h := absurd rfl h
  todo ds h d hd := by
    cases h
    cases hd

theorem Orderly.captureStep (hs : Orderly cfg s) {e : CaptureEvent}
    (h : s.step cfg (.capture e) = some t) : s.captureStep cfg e = some t := by
  rwa [State.step, hs.panicked] at h

theorem Orderly.no_fault (hs : Orderly cfg s) {d : Datagram} {ds : List Datagram} {fault : Fault}
    (hrunning : s.capture = .running (d :: ds)) : d.fault cfg.port ≠ some fault := by
  rw [hs.todo _ hrunning d List.mem_cons_self]
  nofun

/-- **A step without batches, without a listener on top and with clean arrivals** does not panic. -/
theorem orderly_step (hbatch : cfg.batchSize < 2) (hclean : cfg.Clean) (hs : Orderly cfg s)
    {e : Event} (h : s.step cfg e = some t) : Orderly cfg t := by
  cases e with
  | capture e =>
    obtain ⟨hframe, hstep⟩ := captureStep_cases hs.single (hs.captureStep h)
    have hdie : t.closing ≠ .die → t.server.conn.die = true := by
      rw [hframe.closing, hframe.die]
      exact hs.die
    have htop : t.top = none := hframe.top.trans hs.top
    cases hstep with
    | read _ hread hpanicked hcapture =>
      refine ⟨hpanicked.trans hs.panicked, htop, hframe.single, ?_, hdie, ?_⟩
      · rw [hcapture]
        nofun
      · rw [hcapture]
        rintro _ ⟨⟩
        exact hclean.fault_eq_none hbatch hread
    | failed _ hidle hserver hpanicked hcapture =>
      rw [if_pos hbatch] at hpanicked hcapture
      refine ⟨hpanicked.trans hs.panicked, htop, hframe.single, fun _ => ?_, hdie, ?_⟩
      · rw [hserver]
        exact hidle
      · rw [hcapture]
        nofun
    | next hrunning _ hpanicked hcapture =>
      refine ⟨hpanicked.trans hs.panicked, htop, hframe.single, ?_, hdie, ?_⟩
      · rw [hcapture]
        nofun
      · rw [hcapture]
        rintro _ ⟨⟩ d hd
        exact hs.todo _ hrunning d (List.mem_cons_of_mem _ hd)
    | fault hrunning hfault => exact absurd hfault (hs.no_fault hrunning)
    | decoding hbusy hpanicked hcapture =>
      refine ⟨hpanicked.trans hs.panicked, htop, hframe.single, ?_, hdie, ?_⟩
      · rw [hcapture]
        exact fun hret => absurd (hs.returned hret) hbusy
      · rw [hcapture]
        exact hs.todo
  | eof =>
    simp [State.step, hs.panicked, State.eofStep, hs.top] at h
  | _ =>
    have hu := undisturbed_step h nofun nofun
    refine ⟨hu.panicked.trans hs.panicked, hu.top hs.top, ?_, ?_, fun hne => ?_, ?_⟩
    · unfold Single
      rw [hu.captures]
      exact hs.single
    · rw [hu.capture, hu.captures]
      exact hs.returned
    · rcases hu.begun hne with hbegun | hdie
      · exact hu.die (hs.die hbegun)
      · exact hdie
    · rw [hu.capture]
      exact hs.todo

theorem orderly_of_reachable (hbatch : cfg.batchSize < 2) (htop : cfg.onTop = false)
    (hclean : cfg.Clean) (h : s.Reachable cfg now) : Orderly cfg s := by
  refine Trans.Reach.invariant ?_ ?_ h
  · rintro _ rfl
    exact orderly_init htop
  · intro s e t hs hstep
    exact orderly_step hbatch hclean hs hstep

/-! ## `captureFlow` after its handle was closed -/

/-- The step is one of `captureFlow`. -/
def Event.isCapture : Event → Bool
  | .capture _ => true
  | _ => false

/-- The steps that `captureFlow` has left if it reads nothing more. -/
def State.pending (cfg : Config) (s : State) : Nat :=
  match s.capture with
  | .running todo => (todo.map (Datagram.steps cfg.port)).sum + work s.server + 1
  | .returned => 0

theorem closed_step (hs : Orderly cfg s) (hclosed : s.closing.handleClosed = true) {e : Event}
    (h : s.step cfg e = some t) : t.closing.handleClosed = true := by
  cases e with
  | capture e =>
    rw [(captureStep_cases hs.single (hs.captureStep h)).1.closing]
    exact hclosed
  | eof => simp [State.step, hs.panicked, State.eofStep, hs.top] at h
  | _ => exact (undisturbed_step h nofun nofun).closed hclosed

/-- **Each step of `captureFlow` is one less to go**, and no other step adds to them. -/
theorem pending_step (hbatch : cfg.batchSize < 2) (hs : Orderly cfg s)
    (hclosed : s.closing.handleClosed = true) {e : Event} (h : s.step cfg e = some t) :
    t.pending cfg + (if e.isCapture then 1 else 0) = s.pending cfg := by
  cases e with
  | capture e =>
    change t.pending cfg + 1 = s.pending cfg
    cases (captureStep_cases hs.single (hs.captureStep h)).2 with
    | read hopen =>
      rw [hclosed] at hopen
      cases hopen
    | failed hrunning hidle hserver _ hcapture =>
      simp [State.pending, hrunning, hcapture, hbatch, work, hidle]
    | fault hrunning hfault => exact absurd hfault (hs.no_fault hrunning)
    | next hrunning hidle _ hcapture hwork =>
      have hnone : work s.server = 0 := by simp [work, hidle]
      simp only [State.pending, hrunning, hcapture, List.map_cons, List.sum_cons]
      omega
    | decoding hbusy _ hcapture hwork =>
      cases hrunning : s.capture with
      | returned => exact absurd (hs.returned hrunning) hbusy
      | running ds =>
        simp only [State.pending, hcapture, hrunning]
        omega
  | eof => simp [State.step, hs.panicked, State.eofStep, hs.top] at h
  | _ =>
    have hu := undisturbed_step h nofun nofun
    simp [State.pending, work, hu.capture, hu.captures, Event.isCapture]

/-- **`captureFlow` is not blocked** once its handle is closed: a packet that is being decoded can
be discarded, and a read fails. -/
theorem capture_enabled (hs : Orderly cfg s) (hclosed : s.closing.handleClosed = true) :
    s.capture = .returned ∨ ∃ e, (s.step cfg (.capture e)).isSome := by
  have hdie : s.server.conn.die = true := by
    apply hs.die
    intro hphase
    rw [hphase] at hclosed
    cases hclosed
  cases hcap : s.capture with
  | returned => exact .inl rfl
  | running todo =>
    right
    simp only [State.step, hs.panicked, Option.isSome_none, Bool.false_eq_true, if_false]
    obtain hidle | ⟨c, hc⟩ := hs.single
    · cases todo with
      | nil =>
        refine ⟨.readError, ?_⟩
        simp only [State.captureStep, hcap, hidle, hclosed, Bool.true_eq_false, if_false]
        split <;> rfl
      | cons d ds =>
        refine ⟨.decode, ?_⟩
        cases d with
        | ipv4 ip tcp =>
          obtain ⟨server, hserver, -⟩ := capture_step hidle cfg.port cfg.handle ip tcp
          simp [State.captureStep, hcap, hidle, hserver]
        | _ =>
          simp only [State.captureStep, hcap, hidle]
          split <;> rfl
    · cases hstage : c.stage with
      | fetched =>
        refine ⟨.update, ?_⟩
        simp [State.captureStep, Server.step, hc, hstage]
      | updated orphan =>
        refine ⟨.discard, ?_⟩
        cases orphan <;> simp [State.captureStep, Server.step, hc, hstage, hdie]

/-- `captureFlow` leaves by returning: however the run goes on it takes only so many more steps, and
until it has returned it can take one. -/
def State.Leaves (cfg : Config) (s : State) : Prop :=
  ∃ n, ∀ events t, Trans.exec (State.step cfg) events s = some t →
    events.countP Event.isCapture ≤ n ∧
      (t.capture = .returned ∨ ∃ e, (t.step cfg (.capture e)).isSome)

theorem leaves_of_closed (hbatch : cfg.batchSize < 2) (hclean : cfg.Clean) (hs : Orderly cfg s)
    (hclosed : s.closing.handleClosed = true) : s.Leaves cfg := by
  have hstep : ∀ s e t, (Orderly cfg s ∧ s.closing.handleClosed = true) → s.step cfg e = some t →
      Orderly cfg t ∧ t.closing.handleClosed = true :=
    fun s e t hs h => ⟨orderly_step hbatch hclean hs.1 h, closed_step hs.1 hs.2 h⟩
  refine ⟨s.pending cfg, fun events t hrun => ⟨?_, ?_⟩⟩
  · have hcount := Trans.exec_countP_le Event.isCapture (State.pending cfg) hstep
      (fun s e t hs h => Nat.le_of_eq (pending_step hbatch hs.1 hs.2 h)) ⟨hs, hclosed⟩ hrun
    exact Nat.le_trans (Nat.le_add_right _ _) hcount
  · obtain ⟨ht, hclosed⟩ := Trans.exec_invariant hstep ⟨hs, hclosed⟩ hrun
    exact capture_enabled ht hclosed

/-! ## Where a loop panics -/

/-- The state as `Close` leaves it for the other goroutines. -/
structure Closes (cfg : Config) (now : Time) (s t : State) : Prop where
  reachable : t.Reachable cfg now
  capture : t.capture = s.capture
  captures : t.server.captures = s.server.captures
  panicked : t.panicked = none

theorem Closes.refl (hs : s.Reachable cfg now) (hp : s.panicked = none) : Closes cfg now s s :=
  ⟨hs, rfl, rfl, hp⟩

theorem Closes.step {u : State} (h : Closes cfg now s t) (hclose : t.closeStep cfg = some u) :
    Closes cfg now s u := by
  have hstep : t.step cfg .close = some u := by
    rw [State.step, h.panicked]
    exact hclose
  have hu := undisturbed_close hclose
  exact ⟨h.reachable.step hstep, hu.capture.trans h.capture, hu.captures.trans h.captures,
    hu.panicked.trans h.panicked⟩

theorem wipe_reaches : ∀ (n i : Nat) {t : State}, Closes cfg now s t → t.closing = .wipe i →
    t.server.conn.die = true → t.server.conn.table.sharding = i + n →
    ∃ u, Closes cfg now s u ∧ u.closing = .handles
  | 0, i, t, h, hphase, _, hn => by
    refine ⟨{ t with closing := .handles }, h.step ?_, rfl⟩
    simp [State.closeStep, hphase, hn]
  | n + 1, i, t, h, hphase, hdie, hn => by
    have hwipe : t.closeStep cfg = some { t with
        server := { t.server with
          conn := t.server.conn.drop i (t.server.conn.table.shard i).entries
          log := .removed ((t.server.conn.table.shard i).entries.map (·.1)) :: t.server.log }
        closing := .wipe (i + 1) } := by
      simp [State.closeStep, hphase, Server.step, hdie, hn]
    refine wipe_reaches n (i + 1) (h.step hwipe) rfl hdie ?_
    rw [Nat.add_right_comm]
    exact hn

/-- `Close` has closed `die` and will do `closing` next; nothing else has happened. -/
def Config.dying (cfg : Config) (now : Time) (closing : ClosePhase) : State :=
  { cfg.init now with
    server := { (cfg.init now).server with
      conn := { (cfg.init now).server.conn with die := true } }
    closing }

theorem closes_dying (cfg : Config) (now : Time) :
    Closes cfg now (cfg.init now) (cfg.dying now .sockets) :=
  (Closes.refl (.init rfl) rfl).step rfl

/-- **`Close` can close the handle** before any other goroutine takes a step. -/
theorem close_reaches (cfg : Config) (now : Time) :
    ∃ t, Closes cfg now (cfg.init now) t ∧ t.closing.handleClosed = true := by
  have hhandles : ∃ t, Closes cfg now (cfg.init now) t ∧ t.closing = .handles := by
    cases horigin : cfg.origin with
    | dial c =>
      refine ⟨cfg.dying now .handles, (closes_dying cfg now).step ?_, rfl⟩
      simp [State.closeStep, Config.dying, horigin]
    | listen port =>
      have hwipe : Closes cfg now (cfg.init now) (cfg.dying now (.wipe 0)) := by
        apply (closes_dying cfg now).step
        simp [State.closeStep, Config.dying, horigin]
      apply wipe_reaches listenSharding 0 hwipe rfl rfl
      simp [Config.dying, Config.init, Config.server, horigin, Server.new, TcpConn.new,
        FlowTable.init]
  obtain ⟨t, ht, hphase⟩ := hhandles
  refine ⟨{ t with closing := .iptables }, ht.step ?_, rfl⟩
  simp [State.closeStep, hphase]

theorem readBatch_reaches (hbatch : 2 ≤ cfg.batchSize) (now : Time) :
    ∃ t, State.Reachable cfg now t ∧ t.panicked = some .readBatch := by
  obtain ⟨t, ht, hclosed⟩ := close_reaches cfg now
  have hcap : t.capture = .running [] := ht.capture
  have hidle : t.server.captures = [] := ht.captures.trans (captures_init cfg now)
  refine ⟨{ t with panicked := some .readBatch }, ?_, rfl⟩
  apply ht.reachable.step (e := .capture .readError)
  simp [State.step, ht.panicked, State.captureStep, hcap, hidle, hclosed, Int.not_lt.2 hbatch]

theorem readFrom_reaches (htop : cfg.onTop = true) (now : Time) :
    ∃ t, State.Reachable cfg now t ∧ t.panicked = some .readFrom := by
  refine ⟨{ cfg.dying now .sockets with panicked := some .readFrom }, ?_, rfl⟩
  apply (closes_dying cfg now).reachable.step (e := .eof)
  simp [State.step, State.eofStep, Config.dying, Config.init, htop, Faketcp.Listener.new]

theorem fault_reaches {d : Datagram} {fault : Fault} (hread : cfg.readable [d] = true)
    (hfault : d.fault cfg.port = some fault) (now : Time) :
    ∃ t, State.Reachable cfg now t ∧ t.panicked = some fault := by
  have hidle : (cfg.server now).captures = [] := captures_init cfg now
  have hreading : State.Reachable cfg now { cfg.init now with capture := .running [d] } := by
    have hinit : State.Reachable cfg now (cfg.init now) := .init rfl
    apply hinit.step (e := .capture (.read [d]))
    simp [State.step, State.captureStep, hidle, hread, Config.init, ClosePhase.handleClosed]
  refine ⟨{ cfg.init now with capture := .running [d], panicked := some fault }, ?_, rfl⟩
  apply hreading.step (e := .capture .decode)
  cases d with
  | ipv4 ip tcp => cases hfault
  | _ => simp [State.step, State.captureStep, hidle, hfault, Config.init]

/-- **Shutdown**: in every interleaving of `Close` with the loops of a connection no loop panics,
and `captureFlow` returns after its handle was closed, exactly if it reads packet by packet, no
listener is on top, and no packet without a TCP layer and no TCP packet over IPv6 for the port can
be read. -/
theorem shutdown_iff (cfg : Config) (now : Time) :
    (∀ s, State.Reachable cfg now s →
        s.panicked = none ∧ (s.closing.handleClosed = true → s.Leaves cfg)) ↔
      cfg.batchSize < 2 ∧ cfg.onTop = false ∧
        ∀ d, cfg.readable [d] = true →
          d ≠ .noTCP ∧ ∀ tcp, d = .ipv6 tcp → tcp.dstPort ≠ cfg.port := by
  constructor
  · intro h
    -- a reachable panic refutes each condition in turn
    have hsafe : ∀ fault, ¬ ∃ t, State.Reachable cfg now t ∧ t.panicked = some fault := by
      rintro fault ⟨t, ht, hpanicked⟩
      rw [(h t ht).1] at hpanicked
      cases hpanicked
    refine ⟨?_, ?_, fun d hread => ⟨?_, ?_⟩⟩
    · apply Int.lt_of_not_ge
      intro hbatch
      exact hsafe _ (readBatch_reaches hbatch now)
    · apply Bool.eq_false_iff.2
      intro htop
      exact hsafe _ (readFrom_reaches htop now)
    · rintro rfl
      exact hsafe _ (fault_reaches hread rfl now)
    · rintro tcp rfl hport
      exact hsafe _ (fault_reaches hread (if_pos hport) now)
  · rintro ⟨hbatch, htop, hclean⟩ s hs
    have horderly := orderly_of_reachable hbatch htop hclean hs
    exact ⟨horderly.panicked, leaves_of_closed hbatch hclean horderly⟩

/-- A dialed connection. -/
def dialed (batchSize : Int) : Config where
  origin := .dial
    { lport := 50000, remote := { dip := 0xC0A80001, dport := 4000 }, tcpconn := 1, handle := 0 }
  batchSize
  onTop := false
  arrives _ := true

/-- A listener on a connection that is read packet by packet. -/
def listenerOnTop : Config where
  origin := .listen 4000
  batchSize := 1
  onTop := true
  arrives _ := true

/-- The answer to the SYN of a dialed connection. -/
def synAck : Segment where
  srcPort := 4000
  dstPort := 50000
  seq := 7
  ack := 1
  SYN := true
  ACK := true
  PSH := false
  payload := []

/-- **A plain `Close`**: `captureFlow` is in its read when `Close` closes the handle; the accept
loop of a listener is in its read when `Close` closes `die`. Both panic. Read packet by packet and
with nothing on top, `captureFlow` panics before on the answer of an IPv6 remote, and on a packet
without a TCP header that came before the filter was set. -/
theorem close_panics :
    (Trans.exec (State.step (dialed 4)) [.close, .close, .close, .capture .readError]
      ((dialed 4).init 0)).map (·.panicked) = some (some .readBatch) ∧
    (Trans.exec (State.step listenerOnTop) [.listener .cancel, .close, .eof]
      (listenerOnTop.init 0)).map (·.panicked) = some (some .readFrom) ∧
    (Trans.exec (State.step (dialed 1)) [.capture (.read [.ipv6 synAck]), .capture .decode]
      ((dialed 1).init 0)).map (·.panicked) = some (some .to4) ∧
    (Trans.exec (State.step (dialed 1)) [.capture (.read [.noTCP]), .capture .decode]
      ((dialed 1).init 0)).map (·.panicked) = some (some .notTCP) := by
  decide +kernel

end Stack
