import TcpRaw.Flow.Proof.SeqAck

/-!
# Sequence numbers when the two ends take turns

A flow takes its `seq` from whatever Ack it captures last, and its `ack` grows only over a segment
that starts there. So a lost segment is not sent again: the comment in `WriteTo` says that the
sender's `seq` goes back to the number before the loss once the other side answers, and that new
payloads go on from there.

Here the ends take turns: one side writes any number of payloads, of which the network loses any but
not all, and then the other side answers in the same way. `turns_in_step`: from any two flow
entries, after one turn the side that writes next is in step with the other, in every turn after
that as well; and each turn moves the other side's `ack` by exactly what was written before the
first loss.
-/

namespace Tcpraw

open GoRt Trans

/-- A payload that is written, and the handle and the time of its capture; `none` if it is lost. -/
structure Sent where
  p : Bytes
  arrives : Option (Nat × Time)

/-- Side `x` writes a payload, and the network carries it to the other side or loses it. -/
def Pair.send (c : Pair) (x : Side) (m : Sent) (s : PairState) : Option PairState :=
  ((s.flow x).emit (c.port x) (c.port x.peer) m.p).map fun r =>
    let s :=
      { flow := Function.update s.flow x r.2, sent := Function.update s.sent x (s.sent x ++ [r.1]) }
    match m.arrives with
    | none => s
    | some (handle, now) =>
      { s with flow := Function.update s.flow x.peer ((s.flow x.peer).capture r.1 handle now) }

/-- A turn of side `x`. -/
def Pair.turn (c : Pair) (x : Side) : List Sent → PairState → Option PairState
  | [], s => some s
  | m :: t, s => (c.send x m s).bind (c.turn x t)

/-- The payloads are not empty, and their numbers do not wrap around to the first one. -/
structure Fits (t : List Sent) : Prop where
  nonempty : ∀ m ∈ t, m.p ≠ []
  total : (t.map fun m => m.p.length).sum < 2 ^ 32

/-- Something of the turn arrives. -/
def Heard (t : List Sent) : Prop := ∃ m ∈ t, m.arrives ≠ none

/-- The length of what was written before the first loss. -/
def kept : List Sent → Nat
  | [] => 0
  | m :: t => if m.arrives = none then 0 else m.p.length + kept t

/-- Turns that begin with side `x`. At the start of each the writer's `seq` is the other's `ack`;
the turn is a run of the two ends, and the `ack` grows by what was kept. -/
def Pair.InStep (c : Pair) : Side → List (List Sent) → PairState → Prop
  | _, [], _ => True
  | x, t :: ts, s =>
    (s.flow x).seq = (s.flow x.peer).ack ∧ ∃ s', c.turn x t s = some s' ∧ Reach (· = s) c.Step s' ∧
      (s'.flow x.peer).ack = (s.flow x).seq + UInt32.ofNat (kept t) ∧ c.InStep x.peer ts s'

section
variable {c : Pair} {x : Side} {m : Sent} {s s' : PairState} {t : List Sent}

/-! ## One payload -/

/-- What one payload does to the two entries. -/
structure Sends (c : Pair) (x : Side) (m : Sent) (s s' : PairState) : Prop where
  handle : (s'.flow x).handle ≠ none
  seq : (s'.flow x).seq = (s.flow x).seq + UInt32.ofNat m.p.length
  ack : (s'.flow x).ack = (s.flow x).ack
  lost : m.arrives = none → s'.flow x.peer = s.flow x.peer
  arrived : m.arrives ≠ none → (s'.flow x.peer).handle ≠ none ∧
    (s'.flow x.peer).seq = (s.flow x).ack ∧
    (s'.flow x.peer).ack = if (s.flow x.peer).ack = (s.flow x).seq then
      (s.flow x).seq + UInt32.ofNat m.p.length else (s.flow x.peer).ack
  steps : m.p ≠ [] → ∀ {s₀}, Reach (· = s₀) c.Step s → Reach (· = s₀) c.Step s'

theorem TcpFlow.capture_handle (e : TcpFlow) (tcp : Segment) (handle : Nat) (now : Time) :
    (e.capture tcp handle now).handle = some handle := rfl

/-- **A flow with a handle sends.** -/
theorem send_ok (h : (s.flow x).handle ≠ none) :
    ∃ s', c.send x m s = some s' ∧ Sends c x m s s' := by
  obtain ⟨handle, hh⟩ := Option.ne_none_iff_exists'.1 h
  have hpeer := x.peer_ne
  have hemit : (s.flow x).emit (c.port x) (c.port x.peer) m.p = some
      ({ srcPort := c.port x, dstPort := c.port x.peer, SYN := false, ACK := true, PSH := true,
         seq := (s.flow x).seq, ack := (s.flow x).ack, payload := m.p },
        { s.flow x with seq := (s.flow x).seq + UInt32.ofNat m.p.length }) := by
    simp [TcpFlow.emit, TcpFlow.segment, TcpFlow.advanced, hh]
  have hwrite := fun hp => @Pair.Step.write c s x m.p _ _ hp hemit
  cases harr : m.arrives with
  | none =>
    refine ⟨_, by rw [Pair.send, hemit]; simp only [Option.map_some, harr]; rfl, ?_⟩
    refine ⟨?_, ?_, ?_, fun _ => ?_, fun hne => absurd harr hne,
      fun hp s₀ hs => hs.step (hwrite hp)⟩
    · simpa using h
    · simp
    · simp
    · simp [hpeer]
  | some a =>
    obtain ⟨handle', now⟩ := a
    refine ⟨_, by rw [Pair.send, hemit]; simp only [Option.map_some, harr]; rfl, ?_⟩
    refine ⟨?_, ?_, ?_, fun hnone => ?_, fun _ => ⟨?_, ?_, ?_⟩, fun hp s₀ hs => ?_⟩
    · simpa [hpeer.symm] using h
    · simp [hpeer.symm]
    · simp [hpeer.symm]
    · rw [harr] at hnone
      cases hnone
    · simp [TcpFlow.capture_handle]
    · simp [hpeer, TcpFlow.capture_seq]
    · simp [hpeer, TcpFlow.capture_ack]
    · refine (hs.step (hwrite hp)).step (.deliver (x := x.peer) handle' now ?_)
      simp [Pair.inFlight, x.peer_peer]

/-! ## A turn -/

theorem turn_cons {m : Sent} {s₁ : PairState} (h : c.send x m s = some s₁) (t : List Sent) :
    c.turn x (m :: t) s = c.turn x t s₁ := by
  rw [Pair.turn, h, Option.bind_some]

theorem turn_ok : ∀ (t : List Sent) {s : PairState}, (s.flow x).handle ≠ none →
    ∃ s', c.turn x t s = some s' ∧ (s'.flow x).ack = (s.flow x).ack ∧
      (Heard t → (s'.flow x.peer).handle ≠ none ∧ (s'.flow x.peer).seq = (s.flow x).ack) ∧
      ((s.flow x.peer).handle ≠ none ∧ (s.flow x.peer).seq = (s.flow x).ack →
        (s'.flow x.peer).handle ≠ none ∧ (s'.flow x.peer).seq = (s.flow x).ack) ∧
      ((∀ m ∈ t, m.p ≠ []) → ∀ {s₀}, Reach (· = s₀) c.Step s → Reach (· = s₀) c.Step s')
  | [], s, _ => by
    refine ⟨s, rfl, rfl, ?_, id, fun _ _ hs => hs⟩
    rintro ⟨m, hm, -⟩
    exact absurd hm List.not_mem_nil
  | m :: t, s, h => by
    obtain ⟨s₁, hsend, hs₁⟩ := send_ok (c := c) (m := m) h
    obtain ⟨s', hturn, hack, hheard, hkeep, hsteps⟩ := turn_ok t hs₁.handle
    rw [hs₁.ack] at hack hheard hkeep
    refine ⟨s', (turn_cons hsend t).trans hturn, hack, ?_, fun hpeer => hkeep ?_, fun hp _ hs => ?_⟩
    · rintro ⟨m', hm', harr⟩
      rcases List.mem_cons.1 hm' with rfl | hm'
      · obtain ⟨hhandle, hseq, -⟩ := hs₁.arrived harr
        exact hkeep ⟨hhandle, hseq⟩
      · exact hheard ⟨m', hm', harr⟩
    · by_cases harr : m.arrives = none
      · rw [hs₁.lost harr]
        exact hpeer
      · exact ⟨(hs₁.arrived harr).1, (hs₁.arrived harr).2.1⟩
    · exact hsteps (fun m' hm' => hp m' (List.mem_cons_of_mem _ hm'))
        (hs₁.steps (hp m List.mem_cons_self) hs)

/-- **After a loss** nothing of the turn moves the `ack`: every segment starts behind it. -/
theorem turn_behind : ∀ (t : List Sent) {n : Nat} {s s' : PairState}, (s.flow x).handle ≠ none →
    c.turn x t s = some s' → (s.flow x).seq = (s.flow x.peer).ack + UInt32.ofNat n → 0 < n →
    n + (t.map fun m => m.p.length).sum < 2 ^ 32 → (s'.flow x.peer).ack = (s.flow x.peer).ack
  | [], n, s, s', _, hturn, _, _, _ => by
    cases hturn
    rfl
  | m :: t, n, s, s', h, hturn, hseq, hn, hlt => by
    obtain ⟨s₁, hsend, hs₁⟩ := send_ok (c := c) (m := m) h
    rw [turn_cons hsend] at hturn
    rw [List.map_cons, List.sum_cons] at hlt
    have hne : (s.flow x.peer).ack ≠ (s.flow x).seq := by
      intro heq
      have hnat := congrArg UInt32.toNat (heq.trans hseq)
      rw [UInt32.toNat_add, UInt32.toNat_ofNat'] at hnat
      have := (s.flow x.peer).ack.toNat_lt
      omega
    have hack : (s₁.flow x.peer).ack = (s.flow x.peer).ack := by
      by_cases harr : m.arrives = none
      · rw [hs₁.lost harr]
      · rw [(hs₁.arrived harr).2.2, if_neg hne]
    have hseq₁ : (s₁.flow x).seq = (s₁.flow x.peer).ack + UInt32.ofNat (n + m.p.length) := by
      rw [hs₁.seq, hseq, hack, UInt32.ofNat_add, UInt32.add_assoc]
    rw [turn_behind t hs₁.handle hturn hseq₁ (by omega) (by omega), hack]

/-- **A turn of a writer that is in step** moves the other's `ack` by what was kept. -/
theorem turn_kept : ∀ (t : List Sent) {s s' : PairState}, (s.flow x).handle ≠ none →
    c.turn x t s = some s' → (s.flow x).seq = (s.flow x.peer).ack → Fits t →
    (s'.flow x.peer).ack = (s.flow x).seq + UInt32.ofNat (kept t)
  | [], s, s', _, hturn, hseq, _ => by
    cases hturn
    simp [kept, hseq]
  | m :: t, s, s', h, hturn, hseq, hfits => by
    obtain ⟨s₁, hsend, hs₁⟩ := send_ok (c := c) (m := m) h
    rw [turn_cons hsend] at hturn
    have htotal := hfits.total
    rw [List.map_cons, List.sum_cons] at htotal
    have hpos : 0 < m.p.length := List.length_pos_iff.2 (hfits.nonempty m List.mem_cons_self)
    by_cases harr : m.arrives = none
    · have hack := hs₁.lost harr
      have hbehind : (s₁.flow x).seq = (s₁.flow x.peer).ack + UInt32.ofNat m.p.length := by
        rw [hs₁.seq, hack, hseq]
      rw [turn_behind t hs₁.handle hturn hbehind hpos htotal, hack, kept, if_pos harr, hseq]
      simp
    · obtain ⟨-, -, hack⟩ := hs₁.arrived harr
      rw [if_pos hseq.symm] at hack
      have hrest : Fits t :=
        ⟨fun m' hm' => hfits.nonempty m' (List.mem_cons_of_mem _ hm'), by omega⟩
      rw [turn_kept t hs₁.handle hturn (hs₁.seq.trans hack.symm) hrest, hs₁.seq, kept, if_neg harr,
        UInt32.ofNat_add, UInt32.add_assoc]

/-! ## Any number of turns -/

theorem inStep_of_start : ∀ (ts : List (List Sent)) {x : Side} {s : PairState},
    (s.flow x).handle ≠ none → (s.flow x).seq = (s.flow x.peer).ack →
    (∀ t ∈ ts, Heard t ∧ Fits t) → c.InStep x ts s
  | [], _, _, _, _, _ => trivial
  | t :: ts, x, s, h, hseq, hts => by
    obtain ⟨hheard, hfits⟩ := hts t List.mem_cons_self
    obtain ⟨s', hturn, hack, hanswer, -, hsteps⟩ := turn_ok (c := c) t h
    obtain ⟨hhandle, hnext⟩ := hanswer hheard
    refine ⟨hseq, s', hturn, hsteps hfits.nonempty (.init rfl), turn_kept t h hturn hseq hfits, ?_⟩
    -- the other side writes next, with the `ack` of this one as its `seq`
    refine inStep_of_start ts hhandle ?_ fun u hu => hts u (List.mem_cons_of_mem _ hu)
    rw [hnext, Side.peer_peer, hack]

/-- **Two ends that take turns are in step after one of them**, whatever their flow entries were
before. Side `x` writes any payloads, of which at least one arrives, and then the sides answer each
other with turns of which at least one segment arrives: at the start of every turn the writer's
`seq` is the other's `ack`, and the turn moves that `ack` by exactly the payloads before the first
loss. So after the answer to a turn the writer's `seq` is back at its first lost payload. -/
theorem turns_in_step (c : Pair) {x : Side} {s : PairState} (h : (s.flow x).handle ≠ none)
    {t : List Sent} (ht : Heard t) {ts : List (List Sent)} (hts : ∀ u ∈ ts, Heard u ∧ Fits u) :
    ∃ s', c.turn x t s = some s' ∧ c.InStep x.peer ts s' := by
  obtain ⟨s', hturn, hack, hanswer, -⟩ := turn_ok (c := c) t h
  obtain ⟨hhandle, hnext⟩ := hanswer ht
  refine ⟨s', hturn, inStep_of_start ts hhandle ?_ hts⟩
  rw [hnext, Side.peer_peer, hack]

end

/-- Two flows that are out of step. -/
def outOfStep : PairState where
  flow _ := { conn := none, handle := some 0, seq := 7, ack := 900, ts := 0 }
  sent _ := []

/-- A connection with port 80 on both ends. -/
def pair80 : Pair where
  isn _ := 0
  port _ := 80

/-- Side `a` loses its first payload, side `b` its last. -/
theorem turns_in_step_lossy :
    ∃ s', pair80.turn .a [⟨[1, 2], none⟩, ⟨[3], some (0, 1)⟩] outOfStep = some s' ∧
      pair80.InStep .b [[⟨[4], some (0, 2)⟩, ⟨[5], none⟩], [⟨[6], some (0, 3)⟩]] s' := by
  have hts : ∀ u ∈ ([[⟨[4], some (0, 2)⟩, ⟨[5], none⟩], [⟨[6], some (0, 3)⟩]] : List (List Sent)),
      Heard u ∧ Fits u := by
    intro u hu
    rcases List.mem_pair.1 hu with rfl | rfl
    · exact ⟨⟨_, List.mem_cons_self, by decide⟩, by decide, by decide⟩
    · exact ⟨⟨_, List.mem_cons_self, by decide⟩, by decide, by decide⟩
  exact turns_in_step pair80 (show (outOfStep.flow .a).handle ≠ none by decide)
    ⟨⟨[3], some (0, 1)⟩, by simp, by decide⟩ hts

end Tcpraw
