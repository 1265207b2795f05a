import TcpRaw.Fec.Proof.WriteLimits
import TcpRaw.Flow.Write

/-!
# A write, from `Client.Write` or `FakeConn.Write` down to the raw socket

`Below` is the `tcpConn` below a writer. Other goroutines use it between the calls of `WriteTo` that
one write makes, so each call meets the `tcpConn` in a state of its own (`Moment`): any state, any
outcome of its `select`, any answer of the raw socket. `handed` are the segments that raw sockets
took.

A write that returns no error made its calls of `WriteTo` without an error (`Sends`), and the
packets that were handed over are all of them exactly if no call met a flow without a handle.
`write_reports` states it for the whole path.
-/

namespace Stack

open GoRt Tcpraw Faketcp

/-- What a call of `WriteTo` meets. -/
structure Moment where
  conn : TcpConn
  timeout : Bool
  accepts : Bool

/-- The flow of the destination has no handle at that moment. -/
def Moment.Handleless (m : Moment) (addr : Common.NetAddr) : Prop :=
  m.conn.Handleless addr m.timeout

/-- A `tcpConn` below a writer that writes to `addr`: what the calls of `WriteTo` meet, how many
there were, and the segments handed to raw sockets. -/
structure Below where
  lport : UInt16
  addr : Common.NetAddr
  moments : Nat → Moment
  calls : Nat
  handed : List Segment

/-- The outcome of the next call. -/
def Below.outcome (s : Below) (p : Bytes) : WriteOutcome :=
  (s.moments s.calls).conn.writeToAddr
    { lport := s.lport
      p
      addr := s.addr
      timeout := (s.moments s.calls).timeout
      accepts := (s.moments s.calls).accepts }

/-- The next call of `WriteTo`. -/
def Below.writeTo (p : Bytes) (s : Below) : (Nat × Option WriteErr) × Below :=
  (((s.outcome p).n, (s.outcome p).err),
    { s with
      calls := s.calls + 1
      handed := s.handed ++ ((s.outcome p).handed.map (·.2)).toList })

/-- What was handed over. -/
def Below.sent (s : Below) : List Bytes := s.handed.map (·.payload)

/-- The packets that a write of `b` sends: with FEC the data packet, and the parity packets of the
block that it completes. -/
def packetsOf (w : Writer) (b : Bytes) : List Bytes :=
  match w.fec with
  | none => [b]
  | some fec =>
    match fec.encoder.encode (fecBuf b) with
    | .ok (buf, ps, _) => buf.data :: ps.map Slice.data
    | .error _ => []

/-! ## Calls without an error -/

/-- The packets `xs` went through calls of `WriteTo` that returned no error. They were all handed
over if and only if no call met a flow without a handle. -/
structure Sends (s t : Below) (xs : List Bytes) : Prop where
  addr : t.addr = s.addr
  moments : t.moments = s.moments
  calls : t.calls = s.calls + xs.length
  sent : ∃ ys, t.sent = s.sent ++ ys ∧ ys.Sublist xs ∧
    (ys = xs ↔ ∀ i, s.calls ≤ i → i < t.calls → ¬ (s.moments i).Handleless s.addr)

theorem Sends.nil (s : Below) : Sends s s [] where
  addr := rfl
  moments := rfl
  calls := rfl
  sent := ⟨[], (List.append_nil _).symm, .slnil, iff_of_true rfl fun i hi hlt => by omega⟩

/-- **One call**: without an error it handed the packet over, or there was no handle. -/
theorem Sends.one {s : Below} {p : Bytes} (h : (Below.writeTo p s).1.2 = none) :
    Sends s (Below.writeTo p s).2 [p] := by
  have hrange : (∀ i, s.calls ≤ i → i < s.calls + 1 → ¬ (s.moments i).Handleless s.addr) ↔
      ¬ (s.moments s.calls).Handleless s.addr := by
    constructor
    · exact fun h => h s.calls (Nat.le_refl _) (Nat.lt_succ_self _)
    · intro h i hi hlt
      obtain rfl : i = s.calls := by omega
      exact h
  refine ⟨rfl, rfl, rfl, ?_⟩
  change (s.outcome p).err = none at h
  unfold Below.outcome at h
  rcases writeToAddr_cases (s.moments s.calls).conn
      { lport := s.lport, p, addr := s.addr, timeout := (s.moments s.calls).timeout,
        accepts := (s.moments s.calls).accepts } with
    ⟨err, hr, -⟩ | ⟨hless, hr⟩ | ⟨e, flow, handle, -, -, hless, hr⟩
  · rw [hr] at h
    cases h
  · refine ⟨[], ?_, List.nil_sublist _, iff_of_false (by simp) ?_⟩
    · simp [Below.sent, Below.writeTo, Below.outcome, hr]
    · exact fun hall => hrange.1 hall hless
  · refine ⟨[p], ?_, List.Sublist.refl _, iff_of_true rfl (hrange.2 hless)⟩
    simp [Below.sent, Below.writeTo, Below.outcome, hr, TcpFlow.segment]

theorem Sends.trans {s t u : Below} {xs ys : List Bytes} (h : Sends s t xs) (h' : Sends t u ys) :
    Sends s u (xs ++ ys) := by
  obtain ⟨zs, hzs, hsub, hall⟩ := h.sent
  obtain ⟨zs', hzs', hsub', hall'⟩ := h'.sent
  have hcalls := h.calls
  have hcalls' := h'.calls
  refine ⟨h'.addr.trans h.addr, h'.moments.trans h.moments, ?_, zs ++ zs', ?_,
    hsub.append hsub', ?_⟩
  · rw [hcalls', hcalls, List.length_append, Nat.add_assoc]
  · rw [hzs', hzs, List.append_assoc]
  · -- both parts are whole if the sum is, since neither is longer than its packets
    have hsplit : zs ++ zs' = xs ++ ys ↔ zs = xs ∧ zs' = ys := by
      constructor
      · intro heq
        have hlen := congrArg List.length heq
        have hle := hsub.length_le
        have hle' := hsub'.length_le
        rw [List.length_append, List.length_append] at hlen
        exact List.append_inj heq (by omega)
      · rintro ⟨rfl, rfl⟩
        rfl
    rw [hsplit, hall, hall', h.moments, h.addr]
    constructor
    · rintro ⟨hfirst, hsecond⟩ i hi hlt
      rcases Nat.lt_or_ge i t.calls with hi' | hi'
      · exact hfirst i hi hi'
      · exact hsecond i hi' hlt
    · intro hboth
      exact ⟨fun i hi hlt => hboth i hi (by omega), fun i hi hlt => hboth i (by omega) hlt⟩

theorem countedSend_sends {p : Bytes} {tx : UInt64} {s : Below} {r : UInt64 × Below}
    (h : countedSend Below.writeTo p (tx, s) = (none, r)) : Sends s r.2 [p] := by
  unfold countedSend at h
  split at h
  · cases h
  · rename_i n env heq
    cases h
    have hcall := Sends.one (s := s) (p := p) (by rw [heq])
    rwa [heq] at hcall

theorem sendParity_sends : ∀ (ps : List Bytes) (count : UInt64) (s : UInt64 × Below),
    (sendParity (countedSend Below.writeTo) ps count s).1 = none →
      Sends s.2 (sendParity (countedSend Below.writeTo) ps count s).2.2.2 ps
  | [], _, s, _ => Sends.nil s.2
  | p :: ps, count, s, h => by
    rw [sendParity] at h ⊢
    cases hcall : countedSend Below.writeTo p s with
    | mk err t =>
      rw [hcall] at h
      cases err with
      | some err => cases h
      | none =>
        have hfirst := countedSend_sends hcall
        exact hfirst.trans (sendParity_sends ps (count + UInt64.ofNat p.length) t h)

/-! ## A whole write -/

theorem encodeData_sends {fec : Fec} {b : Bytes} {tx : UInt64} {s : Below}
    {r : Option WriteErr × Fec × UInt64 × Below}
    (h : fec.encodeData (countedSend Below.writeTo) b (tx, s) = .ok r) (herr : r.1 = none) :
    Sends s r.2.2.2 (packetsOf { fec := some fec, txBytes := tx } b) := by
  unfold packetsOf fecBuf
  unfold Fec.encodeData at h
  dsimp only at h ⊢
  obtain ⟨⟨buf, ps, enc⟩, henc, h⟩ := bind_ok h
  rw [henc]
  dsimp only at h ⊢
  cases hcall : countedSend Below.writeTo buf.data (tx, s) with
  | mk err t =>
    rw [hcall] at h
    cases err with
    | some err =>
      cases h
      cases herr
    | none =>
      have hfirst := countedSend_sends hcall
      cases h
      exact hfirst.trans (sendParity_sends (ps.map Slice.data) fec.txBytes t herr)

/-- **A successful write** sent its packets through calls without an error. -/
theorem fakeConnWriteTo_sends {w : Writer} {b : Bytes} {s : Below} {r : Written Below WriteErr}
    (h : w.fakeConnWriteTo Below.writeTo b s = .ok r) (herr : r.err = none) :
    Sends s r.env (packetsOf w b) := by
  obtain ⟨fec, tx⟩ := w
  cases fec with
  | none =>
    unfold Writer.fakeConnWriteTo at h
    dsimp only at h
    split at h
    · cases h
      cases herr
    · rename_i n env heq
      cases h
      have hcall := Sends.one (s := s) (p := b) (by rw [heq])
      rwa [heq] at hcall
  | some fec =>
    unfold Writer.fakeConnWriteTo at h
    dsimp only at h
    obtain ⟨r', hr', h⟩ := bind_ok h
    split at h
    · cases h
      cases herr
    · rename_i hnone
      cases h
      exact encodeData_sends hr' hnone

/-- **Writes report what they did, as long as flows have handles.** A call of `WriteTo`, in any
state, reports success exactly when it handed its segment over, and otherwise changes nothing and
returns an error, exactly if the flow of its destination is not one without a handle. A write of
`Client` or `FakeConn`, with FEC or without, that returned the length of its payload and no error
handed all packets of the payload to raw sockets, exactly if none of its calls of `WriteTo` met such
a flow. -/
theorem write_reports (conn : TcpConn) (call : WriteCall) (w : Writer) (b : Bytes) (s : Below)
    (r : Written Below WriteErr) :
    ((conn.writeToAddr call).Reports conn call ↔ ¬ conn.Handleless call.addr call.timeout) ∧
      (b ≠ [] →
        w.clientWrite Below.writeTo b s = .ok r ∨ w.fakeConnWriteTo Below.writeTo b s = .ok r →
        r.n = b.length → r.err = none →
        (r.env.sent = s.sent ++ packetsOf w b ↔
          ∀ i, s.calls ≤ i → i < r.env.calls → ¬ (s.moments i).Handleless s.addr)) := by
  refine ⟨reports_iff conn call, fun hb hcall hn herr => ?_⟩
  have hwrite : w.fakeConnWriteTo Below.writeTo b s = .ok r := by
    rcases hcall with hcall | hcall
    · unfold Writer.clientWrite at hcall
      split at hcall
      · rename_i hlen
        exact absurd (List.length_eq_zero_iff.1 hlen) hb
      · split at hcall
        · cases hcall
          cases herr
        · exact hcall
    · exact hcall
  obtain ⟨ys, hys, -, hall⟩ := (fakeConnWriteTo_sends hwrite herr).sent
  rw [hys, List.append_cancel_left_eq]
  exact hall

/-- A client of 10.0.0.2:80. -/
def remote80 : Common.NetAddr := .tcp [10, 0, 0, 2] 80

/-- What `Dial` fixes for it. -/
def dialed80 : Tcpraw.Client :=
  { lport := 40000, remote := ⟨0x0a000002, 80⟩, tcpconn := 1, handle := 0 }

/-- The answer of the remote to the SYN, captured. -/
def answered80 : TcpConn :=
  (dialed80.decode (dialed80.dial 0)
    { srcPort := 80, dstPort := 40000, SYN := true, ACK := true, PSH := false, seq := 7, ack := 100,
      payload := [] } 0).2

/-- Below a writer to that remote: every call meets the `tcpConn` as it is in `conn`. -/
def below80 (conn : TcpConn) : Below :=
  { lport := 40000, addr := remote80, moments := fun _ => ⟨conn, false, true⟩, calls := 0,
    handed := [] }

/-- After the handshake was captured a write is sent. -/
theorem write_reports_answered :
    ∃ r, Writer.clientWrite Below.writeTo { fec := none, txBytes := 0 } [1, 2, 3]
        (below80 answered80) = .ok r ∧ r.n = 3 ∧ r.env.sent = [[1, 2, 3]] := by
  have hrun : ((Writer.clientWrite Below.writeTo { fec := none, txBytes := 0 } [1, 2, 3]
      (below80 answered80)).toOption.map fun r => (r.n, r.err.isNone)) = some (3, true) := by
    decide +kernel
  obtain ⟨r, hr, hres⟩ := Option.map_eq_some_iff.1 hrun
  obtain ⟨hn, herr⟩ := Prod.mk.inj hres
  have hent : answered80.entryOf remote80 = some (0, ⟨some 1, some 0, 100, 8, 0⟩) := by
    decide +kernel
  have hcall := ok_of_toOption hr
  have hreports := write_reports answered80 ⟨40000, [1, 2, 3], remote80, false, true⟩
    { fec := none, txBytes := 0 } [1, 2, 3] (below80 answered80) r
  refine ⟨r, hcall, hn, (hreports.2 (List.cons_ne_nil 1 [2, 3]) (.inl hcall) hn
    (Option.isNone_iff_eq_none.1 herr)).2 fun i _ _ => ?_⟩
  rintro ⟨-, -, e, flow, he, hnone⟩
  change answered80.entryOf remote80 = _ at he
  rw [hent] at he
  cases he
  cases hnone

/-- **A write that is lost.** A client dialed, and no segment of the remote was captured yet:
`WriteTo` returns no error for a payload that it did not send, and with FEC `Client.Write` reports
the whole payload as written. -/
theorem write_lost :
    let w : WriteCall :=
      { lport := 40000, p := [1, 2, 3], addr := remote80, timeout := false, accepts := true }
    (((dialed80.dial 0).writeToAddr w).err = none ∧
        ((dialed80.dial 0).writeToAddr w).handed = none) ∧
      ∃ fec r, newFec newRs21 2 1 0 = some fec ∧
        Writer.clientWrite Below.writeTo { fec := some fec, txBytes := 0 } [1, 2, 3]
          (below80 (dialed80.dial 0)) = .ok r ∧
        r.n = 3 ∧ r.err = none ∧ r.env.sent = [] := by
  have hrun : (newFec newRs21 2 1 0).map (fun fec =>
      (Writer.clientWrite Below.writeTo { fec := some fec, txBytes := 0 } [1, 2, 3]
        (below80 (dialed80.dial 0))).toOption.map fun r => (r.n, r.err.isNone, r.env.sent)) =
      some (some (3, true, [])) := by decide +kernel
  obtain ⟨fec, hfec, hrun⟩ := Option.map_eq_some_iff.1 hrun
  obtain ⟨r, hr, hres⟩ := Option.map_eq_some_iff.1 hrun
  obtain ⟨hn, hres⟩ := Prod.mk.inj hres
  obtain ⟨herr, hsent⟩ := Prod.mk.inj hres
  refine ⟨⟨by decide +kernel, by decide +kernel⟩, fec, r, hfec, ok_of_toOption hr, hn,
    Option.isNone_iff_eq_none.1 herr, hsent⟩

end Stack
