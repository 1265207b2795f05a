import TcpRaw.Listener.DataLoop
import TcpRaw.Listener.Proof.Registry

/-!
# The two accept loops do the same

`acceptDataLoopv2` saves `acceptDataLoop` two copies of each message. The buffer holds the message
from the read to the `Push`, since only the loop itself reads into it, so a listener with the one
is, step by step, a listener with the other (`view_step`), as long as the messages fit the buffer.
`decodeTCPPacket` puts no longer ones on `chMessage`.
-/

namespace Faketcp

open GoRt Common Trans

/-- The loop with its message in place of the message's length. -/
def BufLoop.view (buf : Bytes) : BufLoop → Loop
  | .read => .read
  | .lookup n src => .lookup (copyOut buf n) src
  | .create n src => .create (copyOut buf n) src
  | .send n src f => .send (copyOut buf n) src f
  | .insert n src f => .insert (copyOut buf n) src f
  | .push n f => .push (copyOut buf n) f

/-- The listener with `acceptDataLoopv2` that it amounts to. -/
def BufListener.view (s : BufListener) : Listener := { s.shared with loop := s.loop.view s.buf }

/-- A message fits the buffer. -/
def Event.Fits : Event → Prop
  | .recv data _ => data.length ≤ Tcpraw.maxPayloadSize
  | _ => True

instance : DecidablePred Event.Fits
  | .recv data _ => inferInstanceAs (Decidable (data.length ≤ Tcpraw.maxPayloadSize))
  | .tick _ | .advance | .accept | .take _ | .close _ | .closeTarget _ | .finish _
  | .delaySweep _ | .expireSweep _ | .fetch _ | .cancel | .cleanerExit => isTrue trivial

section
variable {s t : BufListener} {e : Event}

theorem copyOut_readFrom {buf bts : Bytes} (h : bts.length ≤ buf.length) :
    copyOut (readFrom buf bts).2 (readFrom buf bts).1 = bts := by
  simp [copyOut, readFrom, overwrite, h, List.take_of_length_le h]

theorem length_readFrom (buf bts : Bytes) : (readFrom buf bts).2.length = buf.length :=
  length_overwrite (by rw [List.length_take]; omega)

theorem beginClose_loop (l : Listener) (lp : Loop) (f : Nat) (kind : CloseKind) :
    ({ l with loop := lp } : Listener).beginClose f kind =
      { l.beginClose f kind with loop := lp } := by
  simp only [Listener.beginClose]
  split
  · split <;> rfl
  · rfl

theorem finishClose_loop (l : Listener) (lp : Loop) (f : Nat) :
    ({ l with loop := lp } : Listener).finishClose f =
      (l.finishClose f).map fun l => { l with loop := lp } := by
  simp only [Listener.finishClose]
  split <;> rfl

/-- The other goroutines neither see the loop nor change it. -/
theorem step_loop (l : Listener) (lp : Loop) (hrecv : ∀ data src, e ≠ .recv data src)
    (hadv : e ≠ .advance) :
    ({ l with loop := lp } : Listener).step e = (l.step e).map fun l => { l with loop := lp } := by
  cases e with
  | recv data src => exact absurd rfl (hrecv data src)
  | advance => exact absurd rfl hadv
  | close f =>
    simp only [Listener.step, beginClose_loop]
    split <;> rfl
  | closeTarget f =>
    simp only [Listener.step]
    split
    · exact congrArg some
        (beginClose_loop { l with targets := l.targets.erase f } lp f .immediately)
    · rfl
  | finish f => exact finishClose_loop l lp f
  | fetch k =>
    simp only [Listener.step]
    split
    · split <;> rfl
    · rfl
  | cancel => rfl
  | tick t | accept | take f | delaySweep clock | expireSweep clock | cleanerExit =>
    simp only [Listener.step]
    split <;> rfl

theorem BufListener.step_other (hrecv : ∀ data src, e ≠ .recv data src) (hadv : e ≠ .advance) :
    s.step e = (s.shared.step e).map fun shared => { s with shared } := by
  cases e with
  | recv data src => exact absurd rfl (hrecv data src)
  | advance => exact absurd rfl hadv
  | _ => rfl

theorem view_advance (s : BufListener) : s.advance.map BufListener.view = s.view.advance := by
  obtain ⟨l, buf, loop⟩ := s
  cases loop with
  | read => rfl
  | lookup n src =>
    simp only [BufListener.advance, BufListener.view, Listener.advance, BufLoop.view]
    cases l.connMap.lookup src.key <;> rfl
  | create n src => rfl
  | send n src f =>
    by_cases hroom : l.connChan.length < connChanCap
    · exact (congrArg (Option.map BufListener.view) (if_pos hroom)).trans (if_pos hroom).symm
    · exact (congrArg (Option.map BufListener.view) (if_neg hroom)).trans (if_neg hroom).symm
  | insert n src f => rfl
  | push n f => rfl

theorem view_recv {data : Bytes} (h : data.length ≤ s.buf.length) (src : Peer) :
    (s.step (.recv data src)).map BufListener.view = s.view.step (.recv data src) := by
  obtain ⟨l, buf, loop⟩ := s
  cases loop with
  | read =>
    simp only [BufListener.step, BufListener.view, Listener.step, BufLoop.view, Option.map_some,
      copyOut_readFrom h]
  | _ => rfl

/-- **A step with the one loop is a step with the other.** -/
theorem view_step (hbuf : s.buf.length = Tcpraw.maxPayloadSize) (he : e.Fits) :
    (s.step e).map BufListener.view = s.view.step e := by
  by_cases hrecv : ∃ data src, e = .recv data src
  · obtain ⟨data, src, rfl⟩ := hrecv
    exact view_recv (Nat.le_trans he (Nat.le_of_eq hbuf.symm)) src
  by_cases hadv : e = .advance
  · rw [hadv]
    exact view_advance s
  · have hrecv : ∀ data src, e ≠ .recv data src := fun data src heq => hrecv ⟨data, src, heq⟩
    have hother := step_loop s.shared (s.loop.view s.buf) hrecv hadv
    rw [BufListener.step_other hrecv hadv, Option.map_map]
    exact hother.symm

theorem length_buf_advance (h : s.advance = some t) : t.buf = s.buf := by
  unfold BufListener.advance at h
  dsimp only at h
  split at h
  · cases h
  · split at h <;> cases h <;> rfl
  · cases h
    rfl
  · split at h <;> cases h <;> rfl
  · cases h
    rfl
  · cases h
    rfl

theorem length_buf_step (hbuf : s.buf.length = Tcpraw.maxPayloadSize) (h : s.step e = some t) :
    t.buf.length = Tcpraw.maxPayloadSize := by
  by_cases hrecv : ∃ data src, e = .recv data src
  · obtain ⟨data, src, rfl⟩ := hrecv
    simp only [BufListener.step] at h
    split at h
    · cases h
      exact (length_readFrom _ _).trans hbuf
    · cases h
  by_cases hadv : e = .advance
  · subst hadv
    rw [length_buf_advance h, hbuf]
  · rw [BufListener.step_other (fun data src heq => hrecv ⟨data, src, heq⟩) hadv] at h
    obtain ⟨shared, -, rfl⟩ := Option.map_eq_some_iff.1 h
    exact hbuf

end

/-- **The two accept loops do the same.** For every sequence of steps of a listener's goroutines,
with messages that fit the buffer, a listener with `acceptDataLoop` takes them exactly if one with
`acceptDataLoopv2` does, and then what they share is the same: the `FakeConn`s with what they
received, the maps, and `connChan`. -/
theorem accept_loops_agree (now : Time) {es : List Event} (hes : ∀ e ∈ es, e.Fits) :
    (exec BufListener.step es (BufListener.new now)).map BufListener.view =
      exec Listener.step es (Listener.new now) := by
  have hstart : (BufListener.new now).view = Listener.new now := rfl
  rw [← hstart]
  exact exec_simulates (I := fun s => s.buf.length = Tcpraw.maxPayloadSize)
    (fun _ _ _ hs _ h => length_buf_step hs h) (fun _ _ hs he => view_step hs he)
    (List.length_replicate ..) hes

/-- A long message, and a short one that leaves the end of it in the buffer. -/
theorem accept_loops_agree_stale :
    (exec BufListener.step [.recv [1, 2, 3] peerA, .advance, .advance, .advance, .advance, .advance,
        .recv [4] peerA, .advance, .advance] (BufListener.new 0)).map BufListener.view =
      exec Listener.step [.recv [1, 2, 3] peerA, .advance, .advance, .advance, .advance, .advance,
        .recv [4] peerA, .advance, .advance] (Listener.new 0) :=
  accept_loops_agree 0 (by decide)

end Faketcp
