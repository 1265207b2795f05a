import TcpRaw.Flow.Pair

/-!
# Sequence and acknowledgement numbers between two endpoints

Numbers are compared by their offset from the first number of the side that sends them. While the
highest offset that a side has emitted is below 2^32, equal numbers are equal offsets, and the
acknowledgement of the other side only ever moves to the end of an emitted segment that starts where
it stands: it is the end of a contiguous chain of emitted segments (`Contiguous`), which lies within
what was sent. A captured Ack resets `seq`, but only to such an end.
-/

namespace Tcpraw

open GoRt Trans

/-! ## Offsets -/

/-- The offset of a sequence number from the first one. -/
def off (base s : UInt32) : Nat := (s - base).toNat

/-- The offset at which a segment ends. -/
def segEnd (base : UInt32) (tcp : Segment) : Nat := off base tcp.seq + tcp.payload.length

/-- The highest offset at which an emitted segment ends. -/
def high (base : UInt32) (sent : List Segment) : Nat :=
  sent.foldr (fun tcp h => max (segEnd base tcp) h) 0

theorem off_self (base : UInt32) : off base base = 0 := by simp [off]

theorem off_add {base s : UInt32} {n : Nat} (h : off base s + n < 2 ^ 32) :
    off base (s + UInt32.ofNat n) = off base s + n := by
  have hs := s.toNat_lt
  have hb := base.toNat_lt
  unfold off at h ⊢
  rw [UInt32.toNat_sub] at h
  rw [UInt32.toNat_sub, UInt32.toNat_sub, UInt32.toNat_add, UInt32.toNat_ofNat']
  omega

theorem segEnd_le_high {base : UInt32} {tcp : Segment} : ∀ {sent : List Segment}, tcp ∈ sent →
    segEnd base tcp ≤ high base sent
  | _ :: sent, h => by
    rcases List.mem_cons.1 h with rfl | h
    · exact Nat.le_max_left _ _
    · exact Nat.le_trans (segEnd_le_high h) (Nat.le_max_right _ _)

theorem high_append (base : UInt32) (sent : List Segment) (tcp : Segment) :
    high base (sent ++ [tcp]) = max (high base sent) (segEnd base tcp) := by
  induction sent with
  | nil => simp [high]
  | cons t sent ih =>
    rw [List.cons_append, high, List.foldr_cons, ← high, ih, ← Nat.max_assoc]
    rfl

/-- The ends of contiguous chains of emitted segments from the first number on. -/
inductive Contiguous (base : UInt32) (sent : List Segment) : Nat → Prop
  | start : Contiguous base sent 0
  | next {tcp : Segment} : tcp ∈ sent → Contiguous base sent (off base tcp.seq) →
      Contiguous base sent (segEnd base tcp)

theorem Contiguous.le_high {base : UInt32} {sent : List Segment} {n : Nat}
    (h : Contiguous base sent n) : n ≤ high base sent := by
  cases h with
  | start => exact Nat.zero_le _
  | next hmem _ => exact segEnd_le_high hmem

theorem Contiguous.mono {base : UInt32} {sent sent' : List Segment} (hsub : ∀ t ∈ sent, t ∈ sent')
    {n : Nat} (h : Contiguous base sent n) : Contiguous base sent' n := by
  induction h with
  | start => exact .start
  | next hmem _ ih => exact .next (hsub _ hmem) ih

/-! ## The invariant -/

theorem Side.peer_peer (x : Side) : x.peer.peer = x := by cases x <;> rfl

theorem Side.peer_ne (x : Side) : x.peer ≠ x := by cases x <;> decide

theorem Side.eq_peer_of_ne {x y : Side} (h : y ≠ x) : y = x.peer := by
  cases x <;> cases y <;> first | rfl | exact absurd rfl h

/-- No side has emitted 2^32 bytes of offset. -/
def Pair.Bounded (c : Pair) (s : PairState) : Prop := ∀ x, high (c.base x) (s.sent x) < 2 ^ 32

/-- What holds of the entry of side `x` and of the segments in flight to it. -/
structure SideOk (c : Pair) (s : PairState) (x : Side) : Prop where
  chain : Contiguous (c.base x.peer) (s.sent x.peer) (off (c.base x.peer) (s.flow x).ack)
  seq : off (c.base x) (s.flow x).seq ≤ high (c.base x) (s.sent x)
  acks : ∀ tcp ∈ s.sent x.peer, off (c.base x) tcp.ack ≤ high (c.base x) (s.sent x)
  plain : ∀ tcp ∈ s.sent x.peer, tcp.SYN = false

theorem handshake_cases {c : Pair} {x : Side} {tcp : Segment} (h : tcp ∈ c.handshake x.peer) :
    tcp.PSH = false ∧ (tcp.SYN = true → tcp.seq + 1 = c.base x.peer) ∧
      (tcp.ACK = true → tcp.ack = c.base x) := by
  cases x with
  | a =>
    obtain rfl := List.mem_singleton.1 h
    exact ⟨rfl, fun _ => rfl, fun _ => rfl⟩
  | b =>
    rcases List.mem_cons.1 h with rfl | h
    · exact ⟨rfl, fun _ => rfl, nofun⟩
    · obtain rfl := List.mem_singleton.1 h
      exact ⟨rfl, nofun, fun _ => rfl⟩

section
variable {c : Pair} {s : PairState} {x : Side}

/-- Every Ack in flight lies within what its receiver has sent. -/
theorem SideOk.inFlight (h : SideOk c s x) {tcp : Segment} (hmem : tcp ∈ c.inFlight s x)
    (hack : tcp.ACK = true) : off (c.base x) tcp.ack ≤ high (c.base x) (s.sent x) := by
  rcases List.mem_append.1 hmem with hm | hm
  · rw [(handshake_cases hm).2.2 hack, off_self]
    exact Nat.zero_le _
  · exact h.acks tcp hm

/-- **The acknowledgement after a captured segment**: unchanged, at the end of a segment that starts
where it stood, or reset by a SYN. -/
theorem capture_ack_cases (h : SideOk c s x) {tcp : Segment} (hmem : tcp ∈ c.inFlight s x)
    (handle : Nat) (now : Time) :
    ((s.flow x).capture tcp handle now).ack = (s.flow x).ack ∨
      (tcp ∈ s.sent x.peer ∧ (s.flow x).ack = tcp.seq ∧
        ((s.flow x).capture tcp handle now).ack = tcp.seq + UInt32.ofNat tcp.payload.length) ∨
      tcp.SYN = true ∧ ((s.flow x).capture tcp handle now).ack = c.base x.peer := by
  rcases List.mem_append.1 hmem with hm | hm
  · obtain ⟨hpsh, hsyn, -⟩ := handshake_cases hm
    cases hs : tcp.SYN with
    | true => exact .inr (.inr ⟨rfl, by rw [TcpFlow.capture_syn _ hs hpsh, hsyn hs]⟩)
    | false => exact .inl (by rw [TcpFlow.capture_ack _ hs, hpsh]; simp)
  · rw [TcpFlow.capture_ack _ (h.plain tcp hm)]
    split
    · rename_i heq
      exact .inr (.inl ⟨hm, heq.2, rfl⟩)
    · exact .inl rfl

theorem off_end {tcp : Segment} (hb : c.Bounded s) (hm : tcp ∈ s.sent x) :
    off (c.base x) (tcp.seq + UInt32.ofNat tcp.payload.length) = segEnd (c.base x) tcp :=
  off_add (Nat.lt_of_le_of_lt (segEnd_le_high hm) (hb x))

/-! ## Steps -/

theorem sideOk_deliver (h : ∀ y, SideOk c s y) (hb : c.Bounded s) {tcp : Segment}
    (hmem : tcp ∈ c.inFlight s x) (handle : Nat) (now : Time) (y : Side) :
    SideOk c { s with flow := Function.update s.flow x ((s.flow x).capture tcp handle now) } y := by
  by_cases hy : y = x
  · subst hy
    refine ⟨?_, ?_, (h y).acks, (h y).plain⟩
    · dsimp only
      rw [Function.update_self]
      rcases capture_ack_cases (h y) hmem handle now with he | ⟨hm, heq, he⟩ | ⟨-, he⟩
      · rw [he]
        exact (h y).chain
      · rw [he, off_end hb hm]
        exact .next hm (heq ▸ (h y).chain)
      · rw [he, off_self]
        exact .start
    · dsimp only
      rw [Function.update_self, TcpFlow.capture_seq]
      split
      · rename_i hack
        exact (h y).inFlight hmem hack
      · exact (h y).seq
  · refine ⟨?_, ?_, (h y).acks, (h y).plain⟩
    · dsimp only
      rw [Function.update_of_ne hy]
      exact (h y).chain
    · dsimp only
      rw [Function.update_of_ne hy]
      exact (h y).seq

theorem emit_eq {e e' : TcpFlow} {lport rport : UInt16} {p : Bytes} {tcp : Segment}
    (h : e.emit lport rport p = some (tcp, e')) :
    tcp.SYN = false ∧ tcp.seq = e.seq ∧ tcp.ack = e.ack ∧ tcp.payload = p ∧
      e' = { e with seq := e.seq + UInt32.ofNat p.length } := by
  unfold TcpFlow.emit at h
  split at h
  · cases h
  · cases h
    exact ⟨rfl, rfl, rfl, rfl, rfl⟩

theorem sideOk_write (h : ∀ y, SideOk c s y) {p : Bytes} {tcp : Segment} {e : TcpFlow}
    (hemit : (s.flow x).emit (c.port x) (c.port x.peer) p = some (tcp, e))
    (hb : high (c.base x) (s.sent x ++ [tcp]) < 2 ^ 32) (y : Side) :
    SideOk c { flow := Function.update s.flow x e,
               sent := Function.update s.sent x (s.sent x ++ [tcp]) } y := by
  obtain ⟨hsyn, hseq, hack, hpay, rfl⟩ := emit_eq hemit
  have hmono : high (c.base x) (s.sent x) ≤ high (c.base x) (s.sent x ++ [tcp]) := by
    rw [high_append]
    exact Nat.le_max_left _ _
  by_cases hy : y = x
  · subst hy
    have hend : segEnd (c.base y) tcp ≤ high (c.base y) (s.sent y ++ [tcp]) := by
      rw [high_append]
      exact Nat.le_max_right _ _
    refine ⟨?_, ?_, ?_, ?_⟩ <;>
      simp only [Function.update_self, Function.update_of_ne (Side.peer_ne y)]
    · exact (h y).chain
    · unfold segEnd at hend
      rw [hseq, hpay] at hend
      rw [off_add (by omega)]
      exact hend
    · exact fun t ht => Nat.le_trans ((h y).acks t ht) hmono
    · exact (h y).plain
  · obtain rfl : x = y.peer := Side.eq_peer_of_ne (Ne.symm hy)
    refine ⟨?_, ?_, ?_, ?_⟩ <;> simp only [Function.update_self, Function.update_of_ne hy]
    · exact (h y).chain.mono fun t ht => List.mem_append_left _ ht
    · exact (h y).seq
    · intro t ht
      rcases List.mem_append.1 ht with ht | ht
      · exact (h y).acks t ht
      · have hchain := (h y.peer).chain
        rw [Side.peer_peer] at hchain
        rw [List.mem_singleton.1 ht, hack]
        exact hchain.le_high
    · intro t ht
      rcases List.mem_append.1 ht with ht | ht
      · exact (h y).plain t ht
      · rw [List.mem_singleton.1 ht]
        exact hsyn

theorem Pair.Bounded.of_step {e : PairEvent} {s' : PairState} (hs : c.Step s e s')
    (hb : c.Bounded s') : c.Bounded s := by
  cases hs with
  | deliver handle now hmem => exact hb
  | @write x p tcp e hp hemit =>
    intro y
    have hy := hb y
    dsimp only at hy
    by_cases hyx : y = x
    · subst hyx
      rw [Function.update_self, high_append] at hy
      exact Nat.lt_of_le_of_lt (Nat.le_max_left _ _) hy
    · rwa [Function.update_of_ne hyx] at hy

theorem sideOk_step (h : ∀ y, SideOk c s y) {e : PairEvent} {s' : PairState} (hs : c.Step s e s')
    (hb : c.Bounded s') : ∀ y, SideOk c s' y := by
  cases hs with
  | @write x p tcp e hp hemit =>
    have hbx := hb x
    dsimp only at hbx
    rw [Function.update_self] at hbx
    exact sideOk_write h hemit hbx
  | deliver handle now hmem => exact sideOk_deliver h hb hmem handle now

/-- Both sides capture the handshake, and start. -/
theorem start_of_handshake (c : Pair) (e : Side → TcpFlow) (handle : Nat) (now : Time) :
    c.Start { flow := fun x =>
                (c.handshake x.peer).foldl (fun e tcp => e.capture tcp handle now) (e x),
              sent := fun _ => [] } := by
  intro x
  cases x <;> exact ⟨rfl, rfl, rfl⟩

theorem sideOk_start (h : c.Start s) (y : Side) : SideOk c s y := by
  obtain ⟨hseq, hack, -⟩ := h y
  have hnil := (h y.peer).2.2
  refine ⟨?_, ?_, ?_, ?_⟩
  · rw [hack, off_self]
    exact .start
  · rw [hseq, off_self]
    exact Nat.zero_le _
  · rw [hnil]
    intro t ht
    cases ht
  · rw [hnil]
    intro t ht
    cases ht

/-- The acknowledgement moves backward only where a SYN resets it. -/
theorem ack_mono (h : ∀ y, SideOk c s y) {e : PairEvent} {s' : PairState} (hs : c.Step s e s')
    (hb : c.Bounded s') (y : Side) :
    off (c.base y.peer) (s.flow y).ack ≤ off (c.base y.peer) (s'.flow y).ack ∨
      ∃ tcp handle now, e = .deliver y tcp handle now ∧ tcp.SYN = true ∧
        (s'.flow y).ack = c.base y.peer := by
  cases hs with
  | @write x p tcp e hp hemit =>
    refine .inl (Nat.le_of_eq ?_)
    dsimp only
    by_cases hyx : y = x
    · subst hyx
      obtain ⟨-, -, -, -, rfl⟩ := emit_eq hemit
      rw [Function.update_self]
    · rw [Function.update_of_ne hyx]
  | @deliver x tcp handle now hmem =>
    dsimp only
    by_cases hyx : y = x
    · subst hyx
      rw [Function.update_self]
      rcases capture_ack_cases (h y) hmem handle now with he | ⟨hm, heq, he⟩ | ⟨hsyn, he⟩
      · exact .inl (Nat.le_of_eq (by rw [he]))
      · left
        rw [he, off_end hb hm, heq]
        exact Nat.le_add_right _ _
      · exact .inr ⟨tcp, handle, now, rfl, hsyn, he⟩
    · exact .inl (Nat.le_of_eq (by rw [Function.update_of_ne hyx]))

/-- Each side's `ack` is the end of a contiguous chain of segments that the other side emitted;
every Ack in flight, and every `seq`, lies within what its owner has emitted; and while no side has
emitted an offset of 2^32, `ack` moves backward only where a SYN resets it to the first number. -/
structure SeqAckSafe (c : Pair) (s : PairState) : Prop where
  chain : ∀ x, Contiguous (c.base x.peer) (s.sent x.peer) (off (c.base x.peer) (s.flow x).ack)
  inFlight : ∀ x, ∀ tcp ∈ c.inFlight s x, tcp.ACK = true →
    off (c.base x) tcp.ack ≤ high (c.base x) (s.sent x)
  seq : ∀ x, off (c.base x) (s.flow x).seq ≤ high (c.base x) (s.sent x)
  mono : ∀ e s', c.Step s e s' → c.Bounded s' → ∀ x,
    off (c.base x.peer) (s.flow x).ack ≤ off (c.base x.peer) (s'.flow x).ack ∨
      ∃ tcp handle now, e = .deliver x tcp handle now ∧ tcp.SYN = true ∧
        (s'.flow x).ack = c.base x.peer

/-- **Seq/ack safety**, for every order of writes and captures, with any loss, reordering and
duplication of the segments and any redelivery of the handshake, while no side has emitted an offset
of 2^32. -/
theorem seq_ack_safe (c : Pair) {s : PairState} (hs : Reach c.Start c.Step s) (hb : c.Bounded s) :
    SeqAckSafe c s := by
  have h := hs.invariant (I := fun s => c.Bounded s → ∀ x, SideOk c s x)
    (fun _ h _ => sideOk_start h)
    (fun _ _ _ h hstep hb => sideOk_step (h (.of_step hstep hb)) hstep hb) hb
  exact ⟨fun x => (h x).chain, fun x tcp hmem hack => (h x).inFlight hmem hack,
    fun x => (h x).seq, fun e s' hstep hb' x => ack_mono h hstep hb' x⟩

end

/-- A connection whose first side starts 6 numbers before the wrap. -/
def wrapPair : Pair where
  isn
    | .a => 0xfffffff9
    | .b => 41
  port
    | .a => 4000
    | .b => 80

/-- The state of `wrapPair` after the handshake. -/
def wrapStart : PairState where
  flow x := ⟨some 0, some 0, wrapPair.base x, wrapPair.base x.peer, 0⟩
  sent _ := []

/-- Side `a` writes ten bytes over the wrap, and side `b` captures them. -/
theorem seq_ack_safe_wrap :
    ∃ s, Reach wrapPair.Start wrapPair.Step s ∧ wrapPair.Bounded s ∧ (s.flow .b).ack = 4 ∧
      SeqAckSafe wrapPair s := by
  have hstart : Reach wrapPair.Start wrapPair.Step wrapStart :=
    .init fun x => by cases x <;> exact ⟨rfl, rfl, rfl⟩
  have hwrite := hstart.step (.write (x := .a) (p := List.replicate 10 1) (by decide) rfl)
  have hdeliver := hwrite.step (.deliver (x := .b) 0 0
    (show ⟨4000, 80, false, true, true, 0xfffffffa, 42, List.replicate 10 1⟩ ∈ _ by decide))
  refine ⟨_, hdeliver, ?_, ?_, seq_ack_safe wrapPair hdeliver ?_⟩
  · intro x
    cases x <;> decide
  · decide
  · intro x
    cases x <;> decide

end Tcpraw
