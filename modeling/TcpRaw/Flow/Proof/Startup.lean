import TcpRaw.Flow.Startup

/-!
# When `Listen` starts without a panic

`listen_safe_iff`: a run of `Listen` with its capture goroutines ends without a panic exactly if
each segment was read into a buffer and every segment for the listening port came after
`conn.listener` was set. Until then the table is empty (`Startup.Early`), so the first such segment
makes a new entry, and the log line of `lockflow` finds neither a connection nor a listener.
-/

namespace Tcpraw

open GoRt

variable {cfg : ListenConfig} {s t : Startup}

/-! ## What a step can do -/

/-- `conn.listener` was set. -/
def ListenPhase.assigned : ListenPhase → Bool
  | .goCleaner | .goAccept | .returned => true
  | _ => false

theorem ListenPhase.assigned_next (handles n : Nat) :
    (ListenPhase.next handles n).assigned = false := by
  cases n with
  | zero => by_cases h : handles = 0 <;> simp [ListenPhase.next, h, ListenPhase.assigned]
  | succ n => rfl

theorem ListenPhase.assigned_of_cleaning {p : ListenPhase} (h : p.cleaning = true) :
    p.assigned = true := by
  cases p <;> first | rfl | cases h

/-- **A step of `Listen`** leaves the goroutines alone, and only one step sets `conn.listener`. -/
theorem Startup.listen_spec {e : ListenEvent} (h : s.listen cfg e = some t) :
    t.server = s.server ∧ t.panicked = s.panicked ∧
      (e = .assign ∧ t.listener ≠ none ∨
        e ≠ .assign ∧ t.listener = s.listener ∧ (t.phase.assigned → s.phase.assigned)) := by
  cases e with
  | assign =>
    simp only [Startup.listen] at h
    split at h <;> cases h
    exact ⟨rfl, rfl, .inl ⟨rfl, by simp⟩⟩
  | serve e => cases h
  | listenIP ok =>
    simp only [Startup.listen] at h
    split at h <;> cases h
    · exact ⟨rfl, rfl, .inr ⟨nofun, rfl, nofun⟩⟩
    · refine ⟨rfl, rfl, .inr ⟨nofun, rfl, ?_⟩⟩
      simp [ListenPhase.assigned_next]
    · exact ⟨rfl, rfl, .inr ⟨nofun, rfl, nofun⟩⟩
  | goCapture =>
    simp only [Startup.listen] at h
    split at h <;> cases h
    simp [ListenPhase.assigned_next]
  | listenTCP l =>
    simp only [Startup.listen] at h
    split at h <;> cases h <;> exact ⟨rfl, rfl, .inr ⟨nofun, rfl, nofun⟩⟩
  | goCleaner =>
    simp only [Startup.listen] at h
    split at h <;> cases h
    simp_all [ListenPhase.assigned]
  | goAccept =>
    simp only [Startup.listen] at h
    split at h <;> cases h
    simp_all [ListenPhase.assigned]

/-- **A step of the goroutines** panics where its check does. -/
theorem Startup.serve_spec {e : ServerEvent} (h : s.serve cfg e = some t) :
    s.serves cfg e = true ∧ t.listener = s.listener ∧ t.phase = s.phase ∧
      ((∃ p, s.check cfg e = .error p) ∧ t.server = s.server ∧ t.panicked ≠ none ∨
        s.check cfg e = .ok () ∧ s.server.step e = some t.server ∧ t.panicked = s.panicked) := by
  unfold Startup.serve at h
  split at h
  case isFalse => cases h
  case isTrue hserves =>
    split at h
    case h_1 p hp =>
      cases h
      exact ⟨hserves, rfl, rfl, .inl ⟨⟨p, hp⟩, rfl, by simp⟩⟩
    case h_2 hok =>
      obtain ⟨server, hserver, rfl⟩ := Option.map_eq_some_iff.1 h
      exact ⟨hserves, rfl, rfl, .inr ⟨hok, hserver, rfl⟩⟩

theorem Startup.step_cases {e : ListenEvent} (h : s.step cfg e = some t) :
    s.panicked = none ∧
      ((∀ e', e ≠ .serve e') ∧ s.listen cfg e = some t ∨
        ∃ e', e = .serve e' ∧ s.serve cfg e' = some t) := by
  unfold Startup.step at h
  cases hp : s.panicked with
  | some p =>
    rw [hp] at h
    cases h
  | none =>
    rw [hp] at h
    cases e with
    | serve e => exact ⟨rfl, .inr ⟨e, rfl, h⟩⟩
    | _ => exact ⟨rfl, .inl ⟨nofun, h⟩⟩

theorem Startup.listener_step {e : ListenEvent} (h : s.step cfg e = some t) :
    t.listener ≠ none ↔ s.listener ≠ none ∨ e = .assign := by
  obtain ⟨-, ⟨-, hlisten⟩ | ⟨e', rfl, hserve⟩⟩ := Startup.step_cases h
  · obtain ⟨-, -, ⟨rfl, ht⟩ | ⟨he, ht, -⟩⟩ := Startup.listen_spec hlisten
    · exact iff_of_true ht (.inr rfl)
    · simp [ht, he]
  · obtain ⟨-, ht, -⟩ := Startup.serve_spec hserve
    simp [ht]

theorem Startup.listener_exec : ∀ {es : List ListenEvent} {s t : Startup},
    Trans.exec (Startup.step cfg) es s = some t →
      (t.listener ≠ none ↔ s.listener ≠ none ∨ .assign ∈ es)
  | [], _, _, h => by
    cases h
    simp
  | e :: es, s, t, h => by
    obtain ⟨s', hs', h⟩ := Option.bind_eq_some_iff.1 h
    rw [Startup.listener_exec h, Startup.listener_step hs', List.mem_cons, or_assoc,
      eq_comm (a := e)]

/-! ## Before the listener is set -/

/-- Until `conn.listener` is set there are no flows, no cleaner and no accept loop. -/
def Startup.Early (s : Startup) : Prop :=
  s.listener = none → s.phase.assigned = false ∧ ∀ k, s.server.conn.table.lookup k = none

theorem Startup.early_new (cfg : ListenConfig) (now : Time) : (Startup.new cfg now).Early :=
  fun _ => ⟨ListenPhase.assigned_next 0 _, FlowTable.lookup_init _ listenSharding_pos⟩

theorem Startup.table_step {e : ServerEvent} {server : Server} (hphase : s.phase.assigned = false)
    (hserves : s.serves cfg e = true)
    (hport : ∀ port handle ip tcp, e = .capture port handle ip tcp → tcp.dstPort ≠ port)
    (h : s.server.step e = some server) : server.conn.table = s.server.conn.table := by
  have hreturned : ¬ (s.phase == .returned) = true := by
    intro hp
    rw [eq_of_beq hp] at hphase
    cases hphase
  cases e with
  | capture port handle ip tcp =>
    simp only [Server.step, if_pos (hport port handle ip tcp rfl)] at h
    cases h
    rfl
  | sweep i clock =>
    have hcleaning : s.phase.cleaning = true := hserves
    rw [ListenPhase.assigned_of_cleaning hcleaning] at hphase
    cases hphase
  | accept key conn => exact absurd hserves hreturned
  | wipe i => exact absurd hserves hreturned
  | _ => exact (Server.step_frame h).table rfl

/-! ## The panics -/

/-- **The log line of a new entry**: without a connection it panics for want of a listener. -/
theorem TcpConn.logNewFlow_ok_iff {conn : TcpConn} {listener : Option Nat} {key : AddrKey} :
    conn.logNewFlow none listener key = .ok () ↔
      (conn.table.lookup key = none → listener ≠ none) := by
  unfold TcpConn.logNewFlow
  cases conn.table.lookup key with
  | some e => simp
  | none => cases listener <;> simp

/-- What a step needs: a buffer for a segment, and a listener if the segment is for the port. -/
def Startup.Safe (cfg : ListenConfig) (s : Startup) (e : ListenEvent) : Prop :=
  ∀ port handle ip tcp, e = .serve (.capture port handle ip tcp) →
    cfg.buffered = true ∧ (tcp.dstPort = cfg.port → s.listener ≠ none)

theorem Startup.check_ok_iff (hs : s.Early) {e : ServerEvent} (hserves : s.serves cfg e = true) :
    s.check cfg e = .ok () ↔ s.Safe cfg (.serve e) := by
  cases e with
  | capture port handle ip tcp =>
    have hlog : s.server.conn.logNewFlow none s.listener { dip := ip, dport := tcp.srcPort } =
        .ok () ↔ s.listener ≠ none := by
      rw [TcpConn.logNewFlow_ok_iff]
      exact ⟨fun h hl => h ((hs hl).2 _) hl, fun h _ => h⟩
    have hsafe : s.Safe cfg (.serve (.capture port handle ip tcp)) ↔
        cfg.buffered = true ∧ (tcp.dstPort = cfg.port → s.listener ≠ none) := by
      constructor
      · exact fun h => h _ _ _ _ rfl
      · rintro h _ _ _ _ ⟨⟩
        exact h
    rw [hsafe, ← hlog]
    unfold Startup.check
    cases cfg.buffered with
    | false => simp
    | true => by_cases hport : tcp.dstPort = cfg.port <;> simp [hport]
  | accept key conn =>
    refine iff_of_true ?_ nofun
    apply TcpConn.logNewFlow_ok_iff.2
    intro _ hl
    have hphase : s.phase = .returned := eq_of_beq hserves
    have hearly := (hs hl).1
    rw [hphase] at hearly
    cases hearly
  | _ => exact iff_of_true rfl nofun

theorem Startup.panicked_step (hs : s.Early) {e : ListenEvent} (h : s.step cfg e = some t) :
    t.panicked = none ↔ s.Safe cfg e := by
  obtain ⟨hp, ⟨he, hlisten⟩ | ⟨e', rfl, hserve⟩⟩ := Startup.step_cases h
  · obtain ⟨-, ht, -⟩ := Startup.listen_spec hlisten
    exact iff_of_true (ht.trans hp) fun port handle ip tcp hcap => absurd hcap (he _)
  · obtain ⟨hserves, -, -, ⟨⟨p, hcheck⟩, -, ht⟩ | ⟨hcheck, -, ht⟩⟩ := Startup.serve_spec hserve
    · rw [← Startup.check_ok_iff hs hserves, hcheck]
      exact iff_of_false ht nofun
    · rw [← Startup.check_ok_iff hs hserves]
      exact iff_of_true (ht.trans hp) hcheck

theorem Startup.early_step (hs : s.Early) {e : ListenEvent} (h : s.step cfg e = some t) :
    t.Early := by
  intro hl
  obtain ⟨-, ⟨-, hlisten⟩ | ⟨e', rfl, hserve⟩⟩ := Startup.step_cases h
  · obtain ⟨hserver, -, ⟨-, ht⟩ | ⟨-, ht, hphase⟩⟩ := Startup.listen_spec hlisten
    · exact absurd hl ht
    · obtain ⟨hs, htable⟩ := hs (ht.symm.trans hl)
      refine ⟨?_, by rw [hserver]; exact htable⟩
      apply Bool.eq_false_iff.2
      intro hassigned
      rw [hphase hassigned] at hs
      cases hs
  · obtain ⟨hserves, ht, hphase, hcases⟩ := Startup.serve_spec hserve
    have hnone : s.listener = none := ht.symm.trans hl
    obtain ⟨hassigned, htable⟩ := hs hnone
    refine ⟨by rw [hphase]; exact hassigned, ?_⟩
    obtain ⟨-, hserver, -⟩ | ⟨hcheck, hserver, -⟩ := hcases
    · rw [hserver]
      exact htable
    · -- the step did not panic, so a captured segment is for another port
      have hsafe := (Startup.check_ok_iff hs hserves).1 hcheck
      rw [Startup.table_step hassigned hserves ?_ hserver]
      · exact htable
      · rintro port handle ip tcp rfl hport
        have hcfg : port = cfg.port := eq_of_beq (Bool.and_eq_true_iff.1 hserves).1
        exact (hsafe port handle ip tcp rfl).2 (hport.trans hcfg) hnone

/-- **`Listen` under traffic**: a run of `Listen` with its capture goroutines ends without a panic
exactly if every segment was read into a buffer, and every segment for the port came after
`conn.listener` was set. -/
theorem listen_safe_iff (cfg : ListenConfig) (now : Time) {events : List ListenEvent} {s : Startup}
    (hrun : Trans.exec (Startup.step cfg) events (Startup.new cfg now) = some s) :
    s.panicked = none ↔
      ∀ pre port handle ip tcp post,
        events = pre ++ .serve (.capture port handle ip tcp) :: post →
          cfg.buffered = true ∧ (tcp.dstPort = cfg.port → .assign ∈ pre) := by
  have hset : ∀ {pre u}, Trans.exec (Startup.step cfg) pre (Startup.new cfg now) = some u →
      (u.listener ≠ none ↔ .assign ∈ pre) := by
    intro pre u hu
    rw [Startup.listener_exec hu]
    simp [Startup.new]
  rw [Trans.exec_iff_steps (P := fun s => s.panicked = none) (C := Startup.Safe cfg)
    (fun _ _ _ hs => Startup.early_step hs) (fun _ _ _ h => (Startup.step_cases h).1)
    (fun _ _ _ hs => Startup.panicked_step hs) (Startup.early_new cfg now) rfl hrun]
  constructor
  · intro h pre port handle ip tcp post hevents
    -- the run reaches the segment
    obtain ⟨u, hu⟩ : ∃ u, Trans.exec (Startup.step cfg) pre (Startup.new cfg now) = some u := by
      rw [hevents, Trans.exec_append] at hrun
      obtain ⟨u, hu, -⟩ := Option.bind_eq_some_iff.1 hrun
      exact ⟨u, hu⟩
    obtain ⟨hbuf, hport⟩ := h pre _ post u hevents hu port handle ip tcp rfl
    exact ⟨hbuf, fun hp => (hset hu).1 (hport hp)⟩
  · rintro h pre _ post u hevents hu port handle ip tcp rfl
    obtain ⟨hbuf, hport⟩ := h pre port handle ip tcp post hevents
    exact ⟨hbuf, fun hp => (hset hu).2 (hport hp)⟩

/-- `Listen` on one IP, with a peer that connects while it starts. -/
def listenOn4000 : ListenConfig := { ip := .specific, port := 4000, batchSize := 4 }

/-- The SYN of a peer. -/
def synTo4000 : Segment where
  srcPort := 50000
  dstPort := 4000
  SYN := true
  ACK := false
  PSH := false
  seq := 1000
  ack := 0
  payload := []

/-- The peer connects after `ListenTCP` has returned and the listener is set. -/
theorem listen_safe_late : ∃ s, Trans.exec (Startup.step listenOn4000)
      [.listenIP true, .goCapture, .listenTCP (some 1), .assign,
        .serve (.capture 4000 0 0xC0A80002 synTo4000)] (Startup.new listenOn4000 0) = some s ∧
    s.panicked = none := by
  have hsome : (Trans.exec (Startup.step listenOn4000)
      [.listenIP true, .goCapture, .listenTCP (some 1), .assign,
        .serve (.capture 4000 0 0xC0A80002 synTo4000)] (Startup.new listenOn4000 0)).isSome := by
    decide +kernel
  obtain ⟨s, hs⟩ := Option.isSome_iff_exists.1 hsome
  refine ⟨s, hs, (listen_safe_iff listenOn4000 0 hs).2 ?_⟩
  intro pre port handle ip tcp post hevents
  refine ⟨rfl, fun _ => ?_⟩
  simp [List.cons_eq_append_iff] at hevents
  obtain ⟨rfl, -⟩ := hevents
  simp

/-- **A server that starts under traffic**: the capture goroutine takes a SYN up before `ListenTCP`
has returned, and the process ends. -/
theorem listen_under_traffic : (Trans.exec (Startup.step listenOn4000)
    [.listenIP true, .goCapture, .serve (.capture 4000 0 0xC0A80002 synTo4000)]
    (Startup.new listenOn4000 0)).map (·.panicked) = some (some .nilDeref) := by
  decide +kernel

end Tcpraw
