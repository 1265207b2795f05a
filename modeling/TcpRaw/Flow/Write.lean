import TcpRaw.Flow.Client
import TcpRaw.Flow.Key

/-!
# `WriteTo`, its errors included (`tcp_linux.go`)

`TcpConn.writeToAddr` is a call of `WriteTo` with any address, any outcome of its `select` and any
answer of the raw socket, which takes a segment whole or returns an error. `TcpConn.writeTo` is the
case in which the address is IPv4, no deadline has passed and the socket takes the segment
(`writeToAddr_eq_writeTo`).

A flow that no segment was captured on yet has no handle; a write to it sends nothing and returns no
error (`TcpConn.Handleless`). `reports_iff`: everywhere else `WriteTo` reports success exactly when
it sent.
-/

namespace Tcpraw

open GoRt
open Common (NetAddr to4 beUint32 length_to4)

/-- The errors of `WriteTo`. -/
inductive WriteErr where
  | errTimeout
  | eof
  /-- "addr is not a tcp address" -/
  | notTcpAddr
  | errFlowNotFound
  /-- The error of the raw socket. -/
  | socket
  deriving DecidableEq, Repr

/-- A call of `WriteTo`. -/
structure WriteCall where
  lport : UInt16
  p : Bytes
  addr : NetAddr
  /-- The deadline has passed, and `select` takes its case. -/
  timeout : Bool
  /-- The raw socket takes the segment. -/
  accepts : Bool

/-- What the call returns, the segment that it handed to a raw handle, and the `tcpConn` after
it. -/
structure WriteOutcome where
  n : Nat
  err : Option WriteErr
  handed : Option (Nat × Segment)
  conn : TcpConn

/-- The key that `WriteTo` computes, `none` if the address is not a TCP address. -/
def destKey (addr : NetAddr) : Option AddrKey := (writeToKey addr).toOption.join

/-- The port that `WriteTo` puts into the header. -/
def destPort : NetAddr → UInt16
  | .tcp _ port => UInt16.ofNat port
  | _ => 0

/-- A call that fails changes nothing. -/
def WriteOutcome.fail (conn : TcpConn) (err : WriteErr) : WriteOutcome :=
  { n := 0, err := some err, handed := none, conn }

/-- The callback of `getflow` in `WriteTo`, on the entry `e`. -/
def TcpConn.sendOn (conn : TcpConn) (w : WriteCall) (e : Nat) (flow : TcpFlow) : WriteOutcome :=
  match flow.handle with
  -- assume this packet has lost, without notification
  | none => { n := 0, err := none, handed := none, conn }
  | some handle =>
    if w.accepts then
      { n := w.p.length
        err := none
        handed := some (handle, flow.segment w.lport (destPort w.addr) w.p)
        conn := conn.modifyFlow e fun _ => flow.advanced w.p }
    else .fail conn .socket

/-- The entry of the destination. -/
def TcpConn.entryOf (conn : TcpConn) (addr : NetAddr) : Option (Nat × TcpFlow) := do
  let key ← destKey addr
  let e ← conn.table.lookup key
  let x ← conn.flows[e]?
  pure (e, x.2)

/-- `WriteTo` -/
def TcpConn.writeToAddr (conn : TcpConn) (w : WriteCall) : WriteOutcome :=
  if w.timeout then .fail conn .errTimeout
  else if conn.die then .fail conn .eof
  else if (destKey w.addr).isNone then .fail conn .notTcpAddr
  else
    match conn.entryOf w.addr with
    | none => .fail conn .errFlowNotFound
    | some (e, flow) => conn.sendOn w e flow

/-- The write gets as far as the flow of its destination, and that has no handle. -/
def TcpConn.Handleless (conn : TcpConn) (addr : NetAddr) (timeout : Bool) : Prop :=
  timeout = false ∧ conn.die = false ∧ ∃ e flow, conn.entryOf addr = some (e, flow) ∧
    flow.handle = none

/-- The call handed one segment, with the numbers of the destination's flow, to the flow's
handle. -/
def WriteOutcome.Handed (r : WriteOutcome) (conn : TcpConn) (w : WriteCall) : Prop :=
  ∃ e flow handle tcp, conn.entryOf w.addr = some (e, flow) ∧ flow.handle = some handle ∧
    r.handed = some (handle, tcp) ∧ tcp.seq = flow.seq ∧ tcp.ack = flow.ack ∧ tcp.payload = w.p

/-- **Success is reported exactly when the segment was handed over**; then the flow's `seq` grows by
the payload, and nothing else changes. In every other case nothing changes at all, and there is an
error. -/
structure WriteOutcome.Reports (r : WriteOutcome) (conn : TcpConn) (w : WriteCall) : Prop where
  success : r.n = w.p.length ∧ r.err = none ↔ r.Handed conn w
  grows : ∀ e flow, r.Handed conn w → conn.entryOf w.addr = some (e, flow) →
    r.conn = conn.modifyFlow e fun _ => { flow with seq := flow.seq + UInt32.ofNat w.p.length }
  fails : ¬ r.Handed conn w → r.conn = conn ∧ r.err ≠ none

/-! ## Keys -/

theorem writeToKey_eq (addr : NetAddr) : writeToKey addr = .ok (destKey addr) := by
  have hok : ∃ k, writeToKey addr = .ok k := by
    cases addr with
    | nil => exact ⟨_, rfl⟩
    | other => exact ⟨_, rfl⟩
    | tcp ip port =>
      unfold writeToKey addrSplit
      dsimp only
      cases h4 : to4 ip with
      | none => exact ⟨_, rfl⟩
      | some ip4 =>
        obtain ⟨v, hv⟩ := beUint32_ok (length_to4 h4)
        dsimp only
        rw [hv]
        exact ⟨_, rfl⟩
  obtain ⟨k, hk⟩ := hok
  unfold destKey
  rw [hk]
  rfl

theorem destKey_ipv4 (a : PeerAddr) {k : AddrKey} (h : a.Keyed k) : destKey a.tcpAddr = some k := by
  unfold destKey
  rw [h.written]
  rfl

/-! ## A call -/

section
variable {conn : TcpConn} {w : WriteCall}

theorem entryOf_eq_some {addr : NetAddr} {e : Nat} {flow : TcpFlow}
    (h : conn.entryOf addr = some (e, flow)) :
    ∃ key k, destKey addr = some key ∧ conn.table.lookup key = some e ∧
      conn.flows[e]? = some (k, flow) := by
  obtain ⟨key, hkey, h⟩ := Option.bind_eq_some_iff.1 h
  obtain ⟨e', he, h⟩ := Option.bind_eq_some_iff.1 h
  obtain ⟨⟨k, flow'⟩, hf, h⟩ := Option.bind_eq_some_iff.1 h
  cases h
  exact ⟨key, k, hkey, he, hf⟩

/-- **What a call does**: it fails and changes nothing; or it gets to the flow of its destination,
and sends nothing without a handle, or the segment. -/
theorem writeToAddr_cases (conn : TcpConn) (w : WriteCall) :
    (∃ err, conn.writeToAddr w = .fail conn err ∧ ¬ conn.Handleless w.addr w.timeout) ∨
      (conn.Handleless w.addr w.timeout ∧
        conn.writeToAddr w = { n := 0, err := none, handed := none, conn }) ∨
      ∃ e flow handle, conn.entryOf w.addr = some (e, flow) ∧ flow.handle = some handle ∧
        ¬ conn.Handleless w.addr w.timeout ∧
        conn.writeToAddr w =
          { n := w.p.length
            err := none
            handed := some (handle, flow.segment w.lport (destPort w.addr) w.p)
            conn := conn.modifyFlow e fun _ => flow.advanced w.p } := by
  unfold TcpConn.writeToAddr
  by_cases htime : w.timeout = true
  · rw [if_pos htime]
    exact .inl ⟨_, rfl, fun h => absurd (h.1.symm.trans htime) (by decide)⟩
  rw [if_neg htime]
  by_cases hdie : conn.die = true
  · rw [if_pos hdie]
    exact .inl ⟨_, rfl, fun h => absurd (h.2.1.symm.trans hdie) (by decide)⟩
  rw [if_neg hdie]
  split
  · rename_i hkey
    refine .inl ⟨_, rfl, ?_⟩
    rintro ⟨-, -, e, flow, he, -⟩
    obtain ⟨key, k, hsome, -⟩ := entryOf_eq_some he
    rw [hsome] at hkey
    cases hkey
  cases hent : conn.entryOf w.addr with
  | none =>
    refine .inl ⟨_, rfl, ?_⟩
    rintro ⟨-, -, e, flow, he, -⟩
    rw [hent] at he
    cases he
  | some x =>
    obtain ⟨e, flow⟩ := x
    dsimp only
    cases hh : flow.handle with
    | none =>
      have hless : conn.Handleless w.addr w.timeout :=
        ⟨Bool.eq_false_iff.2 htime, Bool.eq_false_iff.2 hdie, e, flow, hent, hh⟩
      refine .inr (.inl ⟨hless, ?_⟩)
      rw [TcpConn.sendOn, hh]
    | some handle =>
      have hless : ¬ conn.Handleless w.addr w.timeout := by
        rintro ⟨-, -, e', flow', he, hnone⟩
        rw [hent] at he
        cases he
        rw [hh] at hnone
        cases hnone
      by_cases hacc : w.accepts = true
      · refine .inr (.inr ⟨e, flow, handle, rfl, hh, hless, ?_⟩)
        rw [TcpConn.sendOn, hh]
        exact if_pos hacc
      · refine .inl ⟨.socket, ?_, hless⟩
        rw [TcpConn.sendOn, hh]
        exact if_neg hacc

theorem not_handed_of_none {r : WriteOutcome} (h : r.handed = none) : ¬ r.Handed conn w := by
  rintro ⟨e, flow, handle, tcp, -, -, hsome, -⟩
  rw [h] at hsome
  cases hsome

/-- **`WriteTo` reports what it did, except for a flow without a handle.** -/
theorem reports_iff (conn : TcpConn) (w : WriteCall) :
    (conn.writeToAddr w).Reports conn w ↔ ¬ conn.Handleless w.addr w.timeout := by
  rcases writeToAddr_cases conn w with ⟨err, hr, hless⟩ | ⟨hless, hr⟩ |
      ⟨e, flow, handle, hent, hh, hless, hr⟩
  · refine iff_of_true ?_ hless
    rw [hr]
    have hno : ¬ (WriteOutcome.fail conn err).Handed conn w := not_handed_of_none rfl
    refine ⟨iff_of_false ?_ hno, fun _ _ h => absurd h hno, fun _ => ⟨rfl, Option.some_ne_none _⟩⟩
    rintro ⟨-, herr⟩
    cases herr
  · refine iff_of_false (fun h => ?_) (not_not_intro hless)
    rw [hr] at h
    exact (h.fails (not_handed_of_none rfl)).2 rfl
  · refine iff_of_true ?_ hless
    rw [hr]
    have hyes : WriteOutcome.Handed
        { n := w.p.length, err := none,
          handed := some (handle, flow.segment w.lport (destPort w.addr) w.p),
          conn := conn.modifyFlow e fun _ => flow.advanced w.p } conn w :=
      ⟨e, flow, handle, flow.segment w.lport (destPort w.addr) w.p, hent, hh, rfl, rfl, rfl, rfl⟩
    refine ⟨iff_of_true ⟨rfl, rfl⟩ hyes, fun e' flow' _ hent' => ?_, fun h => absurd hyes h⟩
    rw [hent] at hent'
    cases hent'
    rfl

/-- **The simpler model of `WriteTo`** is the call to an IPv4 address without a deadline whose
segment the socket takes. -/
theorem writeToAddr_eq_writeTo (conn : TcpConn) (lport : UInt16) (p : Bytes) (a : PeerAddr)
    {key : AddrKey} (h : a.Keyed key) :
    (conn.writeTo lport p key).2 =
      (conn.writeToAddr
        { lport, p, addr := a.tcpAddr, timeout := false, accepts := true }).conn := by
  have hdest := destKey_ipv4 a h
  unfold TcpConn.writeTo TcpConn.writeToAddr TcpConn.entryOf
  rw [if_neg Bool.false_ne_true, hdest]
  by_cases hdie : conn.die = true
  · rw [if_pos hdie, if_pos hdie]
    rfl
  rw [if_neg hdie, if_neg hdie, Option.isNone_some, if_neg Bool.false_ne_true]
  dsimp only [Option.bind_eq_bind, Option.bind_some]
  cases hl : conn.table.lookup key with
  | none => rfl
  | some e =>
    dsimp only [Option.bind_some]
    cases hf : conn.flows[e]? with
    | none => rfl
    | some x =>
      obtain ⟨k, flow⟩ := x
      dsimp only [Option.bind_some, Option.pure_def]
      unfold TcpConn.sendOn TcpFlow.emit
      cases hh : flow.handle with
      | none => rfl
      | some handle =>
        simp only [TcpFlow.advanced, hh]
        rfl

end

end Tcpraw
