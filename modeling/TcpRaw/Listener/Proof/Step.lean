import TcpRaw.Listener.Listener

/-!
# The steps of a listener, case by case

`ListenerStep` lists the steps that `Listener.step` makes: when each is possible, and the state
after it (`listenerStep`). The accept loop's step is one of seven (`AdvanceStep`), and a close marks
an open `FakeConn` or finds it closed (`CloseStep`). What a step does to a part of the state is read
off by cases over these, and the invariants are proved from that.
-/

namespace Faketcp

open GoRt Common

/-- The accept loop's next step. -/
inductive AdvanceStep (l : Listener) : Listener → Prop
  | found {data : Bytes} {src : Peer} {f : Nat} (hloop : l.loop = .lookup data src)
      (hf : l.connMap.lookup src.key = some f) : AdvanceStep l { l with loop := .push data f }
  | absent {data : Bytes} {src : Peer} (hloop : l.loop = .lookup data src)
      (hnone : l.connMap.lookup src.key = none) : AdvanceStep l { l with loop := .create data src }
  | create {data : Bytes} {src : Peer} (hloop : l.loop = .create data src) :
      AdvanceStep l { l with
        conns := l.conns ++ [newFakeConn src]
        loop := .send data src l.conns.length }
  | send {data : Bytes} {src : Peer} {f : Nat} (hloop : l.loop = .send data src f)
      (hroom : l.connChan.length < connChanCap) :
      AdvanceStep l { l with
        connChan := l.connChan ++ [f]
        sent := f :: l.sent
        loop := .insert data src f }
  | full {data : Bytes} {src : Peer} {f : Nat} (hloop : l.loop = .send data src f)
      (hfull : ¬ l.connChan.length < connChanCap) : AdvanceStep l { l with loop := .read }
  | insert {data : Bytes} {src : Peer} {f : Nat} (hloop : l.loop = .insert data src f) :
      AdvanceStep l { l with
        connMap := l.connMap.insert src.key f
        inserted := f :: l.inserted
        loop := .push data f }
  | push {data : Bytes} {f : Nat} (hloop : l.loop = .push data f) :
      AdvanceStep l { l with conns := l.conns.modify f (·.push l.now data), loop := .read }

/-- The first critical section of a close. -/
inductive CloseStep (l : Listener) (f : Nat) (kind : CloseKind) : Listener → Prop
  | already (h : ∀ c, l.conns[f]? = some c → c.closed = true) : CloseStep l f kind l
  | marks {c : FakeConn} (hc : l.conns[f]? = some c) (hopen : c.closed = false) :
      CloseStep l f kind { l with
        conns := l.conns.set f { c with closed := true }
        closing := l.closing.insert f kind }

/-- One step of the listener. -/
inductive ListenerStep (l : Listener) : Event → Listener → Prop
  | tick {t : Time} (h : l.now ≤ t) : ListenerStep l (.tick t) { l with now := t }
  | recv {data : Bytes} {src : Peer} (hloop : l.loop = .read) :
      ListenerStep l (.recv data src) { l with loop := .lookup data src }
  | advance {l' : Listener} (h : AdvanceStep l l') : ListenerStep l .advance l'
  | accept {f : Nat} {connChan : List Nat} (h : l.connChan = f :: connChan) :
      ListenerStep l .accept { l with connChan, accepted := f :: l.accepted }
  | take {f : Nat} (h : f ∈ l.accepted) :
      ListenerStep l (.take f)
        { l with conns := l.conns.modify f fun c => { c with recvch := c.recvch.tail } }
  | close {f : Nat} {l' : Listener} (hf : f ∈ l.accepted)
      (h : CloseStep l f (.delayed (l.now + 10 * second)) l') : ListenerStep l (.close f) l'
  | closeTarget {f : Nat} {l' : Listener} (hf : f ∈ l.targets)
      (h : CloseStep { l with targets := l.targets.erase f } f .immediately l') :
      ListenerStep l (.closeTarget f) l'
  | delete {f : Nat} (h : l.closing.lookup f = some .immediately) :
      ListenerStep l (.finish f) { l with
        connMap := GoMap.eraseAll l.connMap ([f].filterMap l.key)
        closing := l.closing.erase f }
  | delay {f : Nat} {t : Time} (h : l.closing.lookup f = some (.delayed t)) :
      ListenerStep l (.finish f)
        { l with delayMap := l.delayMap.insert f t, closing := l.closing.erase f }
  | delaySweep {clock : Nat → Time} (hclock : ∀ f ∈ l.delayMap.keys, l.now ≤ clock f) :
      ListenerStep l (.delaySweep clock) { l with
        now := lastReading clock l.now l.delayMap.keys
        connMap := GoMap.eraseAll l.connMap ((l.due clock).filterMap l.key)
        delayMap := GoMap.eraseAll l.delayMap (l.due clock) }
  | expireSweep {clock : Nat → Time} (hclock : ∀ e ∈ l.connMap.entries, l.now ≤ clock e.2) :
      ListenerStep l (.expireSweep clock) { l with
        now := lastReading clock l.now (l.connMap.entries.map (·.2))
        targets := l.targets ++ l.idle clock }
  | fetch {k : AddrKey} {f : Nat} (h : l.connMap.lookup k = some f) :
      ListenerStep l (.fetch k) { l with targets := l.targets ++ [f] }
  | cancel : ListenerStep l .cancel { l with cancelled := true }
  | cleanerExit : ListenerStep l .cleanerExit { l with cleanerDone := true }

section
variable {l l' : Listener} {e : Event}

theorem advanceStep (hs : l.advance = some l') : AdvanceStep l l' := by
  unfold Listener.advance at hs
  split at hs
  · cases hs
  · rename_i hloop
    split at hs
    · rename_i hf
      cases hs
      exact .found hloop hf
    · rename_i hnone
      cases hs
      exact .absent hloop hnone
  · rename_i hloop
    cases hs
    exact .create hloop
  · rename_i hloop
    split at hs
    · rename_i hroom
      cases hs
      exact .send hloop hroom
    · rename_i hfull
      cases hs
      exact .full hloop hfull
  · rename_i hloop
    cases hs
    exact .insert hloop
  · rename_i hloop
    cases hs
    exact .push hloop

theorem closeStep (l : Listener) (f : Nat) (kind : CloseKind) :
    CloseStep l f kind (l.beginClose f kind) := by
  unfold Listener.beginClose
  split
  · rename_i c hc
    split
    · rename_i hclosed
      refine .already fun c' hc' => ?_
      rw [hc] at hc'
      cases hc'
      exact hclosed
    · rename_i hopen
      exact .marks hc (by simpa using hopen)
  · rename_i hnone
    refine .already fun c hc => ?_
    rw [hnone] at hc
    cases hc

/-- **`Listener.step` makes these steps.** -/
theorem listenerStep (hs : l.step e = some l') : ListenerStep l e l' := by
  unfold Listener.step at hs
  split at hs
  · split at hs <;> cases hs
    exact .tick ‹_›
  · split at hs <;> cases hs
    exact .recv ‹_›
  · exact .advance (advanceStep hs)
  · split at hs <;> cases hs
    exact .accept ‹_›
  · split at hs <;> cases hs
    exact .take ‹_›
  · split at hs <;> cases hs
    exact .close ‹_› (closeStep _ _ _)
  · split at hs <;> cases hs
    exact .closeTarget ‹_› (closeStep _ _ _)
  · unfold Listener.finishClose at hs
    split at hs
    · cases hs
      exact .delete ‹_›
    · cases hs
      exact .delay ‹_›
    · cases hs
  · split at hs <;> cases hs
    rename_i h
    exact .delaySweep h.2
  · split at hs <;> cases hs
    rename_i h
    exact .expireSweep h.2
  · split at hs
    · split at hs <;> cases hs
      exact .fetch ‹_›
    · cases hs
  · cases hs
    exact .cancel
  · split at hs <;> cases hs
    exact .cleanerExit

end

end Faketcp
