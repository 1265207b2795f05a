import TcpRaw.Lib.Keyed
import TcpRaw.Listener.Listeners
import TcpRaw.Listener.Proof.Conns

/-!
# No connection is lost or handed out twice

A `FakeConn` goes through three places on its way to the application: the `connChan` of its
listener, the hands of the goroutine that forwards from it, and the `connChan` of `Listeners`.
`Sending` is what a listener guarantees: it sends each `FakeConn` once, in the order of their
creation. `FanIn`: what a listener handed out is, in its order, what `Listeners.Accept` returned of
it, then what is on the channel, then what its goroutine holds.

`listeners_fan_in` puts the two together. Nothing can get stuck: while the listeners are open,
goroutines and `Accept` alone bring everything that was sent to the application (`drain`). A panic
cannot come between: an accept loop panics only after its listener's `Close` (`FanIn.closed`,
`FanIn.ended`).
-/

namespace Faketcp

open GoRt Common Trans Keyed

/-! ## A listener -/

/-- What a listener sends on its `connChan` (module doc). -/
structure Sending (l : Listener) : Prop where
  order : l.sent.reverse = l.accepted.reverse ++ l.connChan
  newest : l.sent.Pairwise (· > ·)
  created : ∀ f ∈ l.sent, f < l.conns.length
  fresh : ∀ data src f, l.loop = .send data src f → f < l.conns.length ∧ ∀ g ∈ l.sent, g < f

section
variable {l l' : Listener} {e : Event}

theorem Sending.keep (h : Sending l) (hsent : l'.sent = l.sent)
    (haccepted : l'.accepted = l.accepted) (hchan : l'.connChan = l.connChan)
    (hconns : l.conns.length ≤ l'.conns.length)
    (hloop : ∀ data src f, l'.loop = .send data src f → l.loop = .send data src f) :
    Sending l' where
  order := by rw [hsent, haccepted, hchan, h.order]
  newest := by rw [hsent]; exact h.newest
  created f hf := by
    rw [hsent] at hf
    exact Nat.lt_of_lt_of_le (h.created f hf) hconns
  fresh data src f hf := by
    obtain ⟨hlt, hall⟩ := h.fresh data src f (hloop data src f hf)
    rw [hsent]
    exact ⟨Nat.lt_of_lt_of_le hlt hconns, hall⟩

theorem sending_advance (h : Sending l) (hs : AdvanceStep l l') : Sending l' := by
  cases hs with
  | found | absent | full | insert => exact h.keep rfl rfl rfl (Nat.le_refl _) (by simp)
  | push => exact h.keep rfl rfl rfl (by simp) (by simp)
  | create =>
    refine ⟨h.order, h.newest, fun f hf => ?_, fun data src f hf => ?_⟩
    · rw [List.length_append]
      exact Nat.lt_add_right _ (h.created f hf)
    · cases hf
      exact ⟨by simp, h.created⟩
  | send hloop =>
    obtain ⟨hlt, hall⟩ := h.fresh _ _ _ hloop
    refine ⟨?_, List.pairwise_cons.2 ⟨hall, h.newest⟩, fun f hf => ?_, by simp⟩
    · rw [List.reverse_cons, h.order, List.append_assoc]
    · rcases List.mem_cons.1 hf with rfl | hf
      · exact hlt
      · exact h.created f hf

theorem sending_close (h : Sending l) {f : Nat} {kind : CloseKind} (hs : CloseStep l f kind l') :
    Sending l' := by
  cases hs with
  | already => exact h
  | marks => exact h.keep rfl rfl rfl (by simp) (by simp)

theorem sending_step (h : Sending l) (hs : l.step e = some l') : Sending l' := by
  cases listenerStep hs with
  | advance ha => exact sending_advance h ha
  | @accept f connChan hch =>
    refine ⟨?_, h.newest, h.created, h.fresh⟩
    rw [List.reverse_cons, h.order, hch, List.append_assoc]
    rfl
  | close _ hc => exact sending_close h hc
  | closeTarget _ hc =>
    exact sending_close (l := { l with targets := l.targets.erase _ })
      (h.keep rfl rfl rfl (Nat.le_refl _) fun _ _ _ => id) hc
  | take => exact h.keep rfl rfl rfl (by simp) fun _ _ _ => id
  | recv => exact h.keep rfl rfl rfl (Nat.le_refl _) (by simp)
  | _ => exact h.keep rfl rfl rfl (Nat.le_refl _) fun _ _ _ => id

theorem sending_new (now : Time) : Sending (Listener.new now) where
  order := rfl
  newest := List.Pairwise.nil
  created _ h := absurd h List.not_mem_nil
  fresh _ _ _ h := by cases h

/-- What the goroutine that forwards relies on: only it accepts, and a context that is done stays
done. -/
theorem other_step (hs : l.step e = some l') (he : e ≠ .accept) :
    l'.accepted = l.accepted ∧ (l.cancelled = true → l'.cancelled = true) := by
  cases listenerStep hs with
  | accept => exact absurd rfl he
  | advance ha => cases ha <;> exact ⟨rfl, id⟩
  | close _ hc => cases hc <;> exact ⟨rfl, id⟩
  | closeTarget _ hc => cases hc <;> exact ⟨rfl, id⟩
  | cancel => exact ⟨rfl, fun _ => rfl⟩
  | _ => exact ⟨rfl, id⟩

end

/-! ## The goroutines -/

/-- The steps of `Listeners`: when each is possible, and the state after it. -/
inductive ListenersStep (ls : Listeners) : ListenersEvent → Listeners → Prop
  | listener {i : Nat} {e : Event} {b : Branch} {l' : Listener} (hb : ls.branches[i]? = some b)
      (he : e ≠ .accept) (hs : b.listener.step e = some l') :
      ListenersStep ls (.listener i e) (ls.setBranch i { b with listener := l' })
  | closeConn {i : Nat} {l : Listener} {forwarder : Forwarder}
      (hb : ls.branches[i]? = some ⟨l, forwarder, .opened⟩) (hcancelled : l.cancelled = true) :
      ListenersStep ls (.closeConn i) (ls.setBranch i ⟨l, forwarder, .closed⟩)
  | eof {i : Nat} {l : Listener} {forwarder : Forwarder}
      (hb : ls.branches[i]? = some ⟨l, forwarder, .closed⟩) :
      ListenersStep ls (.eof i) (ls.setBranch i ⟨l, forwarder, .eof⟩)
  | crash {i : Nat} {l : Listener} {forwarder : Forwarder}
      (hb : ls.branches[i]? = some ⟨l, forwarder, .eof⟩) :
      ListenersStep ls (.crash i) { ls with ended := true }
  | start : ListenersStep ls .start { ls with once := true }
  | fetch {i f : Nat} {l : Listener} {conn : ConnPhase} {connChan : List Nat}
      (hb : ls.branches[i]? = some ⟨l, .accepting, conn⟩) (hf : l.connChan = f :: connChan) :
      ListenersStep ls (.fetch i)
        (ls.setBranch i ⟨{ l with connChan, accepted := f :: l.accepted }, .sending f, conn⟩)
  | stop {i : Nat} {l : Listener} {conn : ConnPhase}
      (hb : ls.branches[i]? = some ⟨l, .accepting, conn⟩) (hcancelled : l.cancelled = true) :
      ListenersStep ls (.stop i) (ls.setBranch i ⟨l, .returned, conn⟩)
  | send {i f : Nat} {l : Listener} {conn : ConnPhase}
      (hb : ls.branches[i]? = some ⟨l, .sending f, conn⟩)
      (hroom : ls.connChan.length < listenersChanCap) :
      ListenersStep ls (.send i)
        { ls.setBranch i ⟨l, .accepting, conn⟩ with connChan := ls.connChan ++ [(i, f)] }
  | accept {x : Nat × Nat} {connChan : List (Nat × Nat)} (hx : ls.connChan = x :: connChan) :
      ListenersStep ls .accept { ls with connChan, returned := ls.returned ++ [x] }
  | fail : ListenersStep ls .fail ls
  | cancel : ListenersStep ls .cancel { ls with cancelled := true }

/-- **`Listeners.step` makes these steps.** -/
theorem listenersStep {ls ls' : Listeners} {e : ListenersEvent} (hs : ls.step e = some ls') :
    ListenersStep ls e ls' := by
  unfold Listeners.step at hs
  obtain ⟨-, hs⟩ := Option.ite_none_left_eq_some.1 hs
  unfold Listeners.act at hs
  split at hs
  · split at hs
    · rename_i i e _ b hb
      obtain ⟨hallows, hs⟩ := Option.ite_none_right_eq_some.1 hs
      obtain ⟨l', hl', rfl⟩ := Option.map_eq_some_iff.1 hs
      refine .listener hb ?_ hl'
      rintro rfl
      cases hallows
    · cases hs
  · split at hs
    · rename_i hb
      obtain ⟨hcancelled, hs⟩ := Option.ite_none_right_eq_some.1 hs
      cases hs
      exact .closeConn hb hcancelled
    · cases hs
  · split at hs
    · rename_i hb
      split at hs
      · cases hs
        exact .eof hb
      · cases hs
    · cases hs
  · split at hs
    · rename_i hb
      cases hs
      exact .crash hb
    · cases hs
  · cases hs
    exact .start
  · split at hs
    · rename_i l conn hb
      obtain ⟨-, hs⟩ := Option.ite_none_right_eq_some.1 hs
      obtain ⟨f, hf, hs⟩ := Option.bind_eq_some_iff.1 hs
      obtain ⟨l', hl', rfl⟩ := Option.map_eq_some_iff.1 hs
      cases listenerStep hl' with
      | accept hch =>
        rw [hch, List.head?_cons] at hf
        cases hf
        exact .fetch hb hch
    · cases hs
  · split at hs
    · rename_i hb
      obtain ⟨hcancelled, hs⟩ := Option.ite_none_right_eq_some.1 hs
      cases hs
      exact .stop hb hcancelled.2
    · cases hs
  · split at hs
    · rename_i hb
      obtain ⟨hroom, hs⟩ := Option.ite_none_right_eq_some.1 hs
      cases hs
      exact .send hb hroom
    · cases hs
  · split at hs
    · cases hs
    · rename_i hx
      obtain ⟨-, hs⟩ := Option.ite_none_right_eq_some.1 hs
      cases hs
      exact .accept hx
  · obtain ⟨-, hs⟩ := Option.ite_none_right_eq_some.1 hs
    cases hs
    exact .fail
  · cases hs
    exact .cancel

/-- What a goroutine holds. -/
def Forwarder.held : Forwarder → List Nat
  | .sending f => [f]
  | _ => []

/-- The invariant of `Listeners` (module doc). -/
structure FanIn (ls : Listeners) : Prop where
  room : ls.connChan.length ≤ listenersChanCap
  sending : ∀ b ∈ ls.branches, Sending b.listener
  order : ∀ i b, ls.branches[i]? = some b →
    b.listener.accepted.reverse = ofSource i (ls.returned ++ ls.connChan) ++ b.forwarder.held
  closed : ∀ b ∈ ls.branches, b.forwarder = .returned ∨ b.conn ≠ .opened →
    b.listener.cancelled = true
  source : ∀ x ∈ ls.returned ++ ls.connChan, x.1 < ls.branches.length
  ended : ls.ended = true → ∃ b ∈ ls.branches, b.listener.cancelled = true

section
variable {ls ls' : Listeners} {e : ListenersEvent}

theorem live_of_step (hs : ls.step e = some ls') : ls.ended = false :=
  Bool.eq_false_iff.2 (Option.ite_none_left_eq_some.1 hs).1

theorem FanIn.set (h : FanIn ls) (hlive : ls.ended = false) {i : Nat} {b b' : Branch}
    (hb : ls.branches[i]? = some b) (xs : List (Nat × Nat)) (hxs : ∀ x ∈ xs, x.1 = i)
    (hroom : (ls.connChan ++ xs).length ≤ listenersChanCap) (hsending : Sending b'.listener)
    (horder : b'.listener.accepted.reverse =
      ofSource i (ls.returned ++ ls.connChan) ++ ofSource i xs ++ b'.forwarder.held)
    (hclosed : b'.forwarder = .returned ∨ b'.conn ≠ .opened → b'.listener.cancelled = true) :
    FanIn { ls.setBranch i b' with connChan := ls.connChan ++ xs } where
  room := hroom
  sending c hc := by
    rcases List.mem_or_eq_of_mem_set hc with hc | rfl
    · exact h.sending c hc
    · exact hsending
  order j c hj := by
    have hlist : ls.returned ++ (ls.connChan ++ xs) = ls.returned ++ ls.connChan ++ xs :=
      (List.append_assoc _ _ _).symm
    change (ls.branches.set i b')[j]? = some c at hj
    change c.listener.accepted.reverse = ofSource j (ls.returned ++ (ls.connChan ++ xs)) ++ _
    rw [hlist, ofSource_append]
    by_cases hij : i = j
    · subst hij
      rw [List.getElem?_set_self (List.getElem?_eq_some_iff.1 hb).1] at hj
      cases hj
      exact horder
    · rw [List.getElem?_set_ne hij] at hj
      have hne : ∀ x ∈ xs, x.1 ≠ j := fun x hx => by
        rw [hxs x hx]
        exact hij
      rw [ofSource_ne hne, List.append_nil]
      exact h.order j c hj
  closed c hc := by
    rcases List.mem_or_eq_of_mem_set hc with hc | rfl
    · exact h.closed c hc
    · exact hclosed
  source x hx := by
    change x ∈ ls.returned ++ (ls.connChan ++ xs) at hx
    change x.1 < (ls.branches.set i b').length
    rw [List.length_set]
    rw [← List.append_assoc] at hx
    rcases List.mem_append.1 hx with hx | hx
    · exact h.source x hx
    · rw [hxs x hx]
      exact (List.getElem?_eq_some_iff.1 hb).1
  ended hended := by
    change ls.ended = true at hended
    rw [hlive] at hended
    cases hended

theorem FanIn.setBranch (h : FanIn ls) (hlive : ls.ended = false) {i : Nat} {b b' : Branch}
    (hb : ls.branches[i]? = some b) (hsending : Sending b'.listener)
    (horder : b'.listener.accepted.reverse =
      ofSource i (ls.returned ++ ls.connChan) ++ b'.forwarder.held)
    (hclosed : b'.forwarder = .returned ∨ b'.conn ≠ .opened → b'.listener.cancelled = true) :
    FanIn (ls.setBranch i b') := by
  have hset : FanIn { ls.setBranch i b' with connChan := ls.connChan ++ [] } := by
    refine h.set hlive hb [] (fun _ hx => absurd hx List.not_mem_nil) ?_ hsending ?_ hclosed
    · rw [List.append_nil]
      exact h.room
    · rw [horder]
      simp [ofSource]
  rwa [List.append_nil] at hset

/-- **The invariant is kept by every step.** -/
theorem fanIn_step (h : FanIn ls) (hs : ls.step e = some ls') : FanIn ls' := by
  have hlive := live_of_step hs
  cases listenersStep hs with
  | start => exact ⟨h.room, h.sending, h.order, h.closed, h.source, h.ended⟩
  | fail => exact h
  | cancel => exact ⟨h.room, h.sending, h.order, h.closed, h.source, h.ended⟩
  | @listener i e b l' hb he hl' =>
    have hmem := List.mem_of_getElem? hb
    obtain ⟨haccepted, hcancelled⟩ := other_step hl' he
    refine h.setBranch hlive hb (sending_step (h.sending b hmem) hl') ?_ fun hclosed => ?_
    · rw [haccepted, h.order i b hb]
    · exact hcancelled (h.closed b hmem hclosed)
  | closeConn hb hcancelled =>
    have hsending := h.sending _ (List.mem_of_getElem? hb)
    have horder := h.order _ _ hb
    exact h.setBranch hlive hb hsending horder fun _ => hcancelled
  | eof hb =>
    have hsending := h.sending _ (List.mem_of_getElem? hb)
    have hclosed := h.closed _ (List.mem_of_getElem? hb) (.inr nofun)
    have horder := h.order _ _ hb
    exact h.setBranch hlive hb hsending horder fun _ => hclosed
  | crash hb =>
    have hmem := List.mem_of_getElem? hb
    exact ⟨h.room, h.sending, h.order, h.closed, h.source,
      fun _ => ⟨_, hmem, h.closed _ hmem (.inr nofun)⟩⟩
  | @fetch i f l conn connChan hb hf =>
    have hmem := List.mem_of_getElem? hb
    have hcancelled := h.closed _ hmem
    have hstep : l.step .accept = some { l with connChan, accepted := f :: l.accepted } := by
      rw [Listener.step, hf]
    refine h.setBranch hlive hb (sending_step (h.sending _ hmem) hstep) ?_ fun hclosed => ?_
    · rw [List.reverse_cons, h.order i _ hb]
      simp [Forwarder.held]
    · exact hcancelled (hclosed.imp_left nofun)
  | stop hb hcancelled =>
    have hsending := h.sending _ (List.mem_of_getElem? hb)
    have horder := h.order _ _ hb
    exact h.setBranch hlive hb hsending horder fun _ => hcancelled
  | @send i f l conn hb hspace =>
    have hsending := h.sending _ (List.mem_of_getElem? hb)
    have hcancelled := h.closed _ (List.mem_of_getElem? hb)
    refine h.set hlive hb [(i, f)] (by simp) ?_ hsending ?_ fun hclosed => ?_
    · rw [List.length_append]
      exact hspace
    · rw [h.order i _ hb, ofSource_self]
      simp [Forwarder.held]
    · exact hcancelled (hclosed.imp_left nofun)
  | @accept x connChan hx =>
    have hsame : ls.returned ++ [x] ++ connChan = ls.returned ++ ls.connChan := by
      rw [hx, List.append_assoc]
      rfl
    refine ⟨?_, h.sending, fun i b hb => ?_, h.closed, fun y hy => ?_, h.ended⟩
    · have hle := h.room
      rw [hx, List.length_cons] at hle
      exact Nat.le_of_succ_le hle
    · rw [hsame]
      exact h.order i b hb
    · rw [hsame] at hy
      exact h.source y hy

theorem fanIn_new (n : Nat) (now : Time) : FanIn (fakeTcpListeners n now) := by
  have hbranch : ∀ b ∈ (fakeTcpListeners n now).branches, b = ⟨.new now, .accepting, .opened⟩ :=
    fun b hb => List.eq_of_mem_replicate hb
  refine ⟨Nat.zero_le _, fun b hb => ?_, fun i b hb => ?_, fun b hb hclosed => ?_,
    by simp [fakeTcpListeners], nofun⟩
  · rw [hbranch b hb]
    exact sending_new now
  · rw [hbranch b (List.mem_of_getElem? hb)]
    rfl
  · rw [hbranch b hb] at hclosed
    rcases hclosed with hclosed | hclosed
    · cases hclosed
    · exact absurd rfl hclosed

theorem fanIn_of_reachable {n : Nat} {now : Time} (h : ls.Reachable n now) : FanIn ls := by
  refine h.invariant ?_ fun _ _ _ h hs => fanIn_step h hs
  rintro _ rfl
  exact fanIn_new n now

/-- **What a listener sent**, from the first on: what `Accept` returned of it, then what is on the
channel, what its goroutine holds, and what its own channel holds. -/
theorem FanIn.sent (h : FanIn ls) {i : Nat} {b : Branch} (hb : ls.branches[i]? = some b) :
    b.listener.sent.reverse = ofSource i ls.returned ++ ofSource i ls.connChan ++
      b.forwarder.held ++ b.listener.connChan := by
  rw [(h.sending b (List.mem_of_getElem? hb)).order, h.order i b hb, ofSource_append]

theorem FanIn.nodup (h : FanIn ls) : ls.returned.Nodup := by
  refine nodup_of_sources fun x hx => ?_
  obtain ⟨b, hb⟩ : ∃ b, ls.branches[x.1]? = some b :=
    ⟨_, List.getElem?_eq_getElem (h.source x (List.mem_append_left _ hx))⟩
  have hsent : b.listener.sent.reverse.Nodup :=
    List.nodup_reverse.2 ((h.sending b (List.mem_of_getElem? hb)).newest.imp Nat.ne_of_gt)
  rw [h.sent hb] at hsent
  refine hsent.sublist ?_
  rw [List.append_assoc, List.append_assoc]
  exact List.sublist_append_left _ _

/-! ## Nothing gets stuck -/

/-- The process runs, the goroutines were started, and no listener is closed. -/
structure Started (ls : Listeners) : Prop where
  live : ls.ended = false
  once : ls.once = true
  opened : ∀ b ∈ ls.branches, b.listener.cancelled = false

theorem Started.set (h : Started ls) {i : Nat} (b' : Branch) (hb' : b'.listener.cancelled = false)
    (connChan : List (Nat × Nat)) : Started { ls.setBranch i b' with connChan } where
  live := h.live
  once := h.once
  opened c hc := by
    rcases List.mem_or_eq_of_mem_set hc with hc | rfl
    · exact h.opened c hc
    · exact hb'

theorem Started.step (h : Started ls) (e : ListenersEvent) : ls.step e = ls.act e :=
  if_neg (Bool.eq_false_iff.1 h.live)

/-- What is left to do, where a `FakeConn` on the channel takes one step and a branch takes `g`. -/
def Listeners.load (g : Branch → Nat) (ls : Listeners) : Nat :=
  ls.connChan.length + (ls.branches.map g).sum

theorem load_set (g : Branch → Nat) {i : Nat} {b b' : Branch} {connChan : List (Nat × Nat)}
    (hb : ls.branches[i]? = some b)
    (hlt : connChan.length + g b' < ls.connChan.length + g b) :
    Listeners.load g { ls.setBranch i b' with connChan } < ls.load g := by
  have hsum := sum_set g b' hb
  simp only [Listeners.load, Listeners.setBranch]
  omega

theorem load_accept (g : Branch → Nat) {x : Nat × Nat} {connChan returned : List (Nat × Nat)}
    (hx : ls.connChan = x :: connChan) :
    Listeners.load g { ls with connChan, returned } < ls.load g := by
  simp [Listeners.load, hx]

theorem exists_of_load {g : Branch → Nat} (h : 0 < ls.load g) (hchan : ls.connChan = []) :
    ∃ (i : Nat) (b : Branch), ls.branches[i]? = some b ∧ 0 < g b := by
  have hsum : 0 < (ls.branches.map g).sum := by
    rwa [Listeners.load, hchan, List.length_nil, Nat.zero_add] at h
  obtain ⟨_, hmap, hpos⟩ := List.sum_pos_iff_exists_pos_nat.1 hsum
  obtain ⟨b, hmem, rfl⟩ := List.mem_map.1 hmap
  obtain ⟨i, hb⟩ := List.getElem?_of_mem hmem
  exact ⟨i, b, hb, hpos⟩

theorem of_load_eq_zero {g : Branch → Nat} (h : ls.load g = 0) :
    ls.connChan = [] ∧ ∀ b ∈ ls.branches, g b = 0 := by
  obtain ⟨hchan, hsum⟩ := Nat.add_eq_zero_iff.1 h
  exact ⟨List.eq_nil_of_length_eq_zero hchan,
    fun b hb => List.sum_eq_zero_iff_forall_eq_nat.1 hsum _ (List.mem_map_of_mem hb)⟩

/-- The step is one of a goroutine, or `Accept` returns. -/
def ListenersEvent.forwards : ListenersEvent → Bool
  | .fetch _ | .send _ | .accept => true
  | _ => false

/-- The steps that it takes to bring what a branch holds to the application. -/
def Branch.pending (b : Branch) : Nat :=
  3 * b.listener.connChan.length + 2 * b.forwarder.held.length

/-- What the listeners sent. -/
def Listeners.sent (ls : Listeners) : List (List Nat) := ls.branches.map fun b => b.listener.sent

/-- **As long as something is on its way, a goroutine or `Accept` can go on.** -/
theorem forward_step (h : FanIn ls) (hrun : Started ls) (hpending : 0 < ls.load Branch.pending) :
    ∃ e ls', e.forwards = true ∧ ls.step e = some ls' ∧ Started ls' ∧ ls'.sent = ls.sent ∧
      ls'.load Branch.pending < ls.load Branch.pending := by
  cases hchan : ls.connChan with
  | cons x connChan =>
    refine ⟨.accept, { ls with connChan, returned := ls.returned ++ [x] }, rfl, ?_,
      ⟨hrun.live, hrun.once, hrun.opened⟩, rfl, load_accept _ hchan⟩
    simp [hrun.step, Listeners.act, hchan, hrun.once]
  | nil =>
    obtain ⟨i, ⟨l, forwarder, conn⟩, hb, hpos⟩ := exists_of_load hpending hchan
    have hmem := List.mem_of_getElem? hb
    have hopened : l.cancelled = false := hrun.opened _ hmem
    cases forwarder with
    | returned =>
      have hcancelled : l.cancelled = true := h.closed _ hmem (.inl rfl)
      rw [hopened] at hcancelled
      cases hcancelled
    | sending f =>
      refine ⟨.send i,
        { ls.setBranch i ⟨l, .accepting, conn⟩ with connChan := ls.connChan ++ [(i, f)] }, rfl, ?_,
        hrun.set ⟨l, .accepting, conn⟩ hopened _, map_set_of hb rfl, load_set _ hb ?_⟩
      · simp [hrun.step, Listeners.act, hb, hchan, listenersChanCap]
      · simp only [Branch.pending, Forwarder.held, hchan, List.nil_append, List.length_cons,
          List.length_nil]
        omega
    | accepting =>
      cases hl : l.connChan with
      | nil => simp [Branch.pending, Forwarder.held, hl] at hpos
      | cons f connChan =>
        let b' : Branch := ⟨{ l with connChan, accepted := f :: l.accepted }, .sending f, conn⟩
        refine ⟨.fetch i, ls.setBranch i b', rfl, ?_, hrun.set b' hopened _, map_set_of hb rfl,
          load_set _ hb ?_⟩
        · simp [hrun.step, Listeners.act, Listener.step, hb, hl, hrun.once, b']
        · simp only [b', Branch.pending, Forwarder.held, hl, List.length_cons, List.length_nil]
          omega

/-- **Everything can be brought to the application**, by the goroutines and `Accept` alone. -/
theorem drain (h : FanIn ls) (hrun : Started ls) :
    ∃ es ls', (∀ e ∈ es, e.forwards = true) ∧ exec Listeners.step es ls = some ls' ∧ FanIn ls' ∧
      ls'.sent = ls.sent ∧ ls'.load Branch.pending = 0 := by
  have hnext : ∀ t : Listeners, FanIn t ∧ Started t ∧ t.sent = ls.sent →
      0 < t.load Branch.pending → ∃ e t', e.forwards = true ∧ t.step e = some t' ∧
        (FanIn t' ∧ Started t' ∧ t'.sent = ls.sent) ∧
        t'.load Branch.pending < t.load Branch.pending := by
    intro t ht hpos
    obtain ⟨hfan, hrun, hsent⟩ := ht
    obtain ⟨e, t', he, hs, hrun', hsent', hlt⟩ := forward_step hfan hrun hpos
    exact ⟨e, t', he, hs, ⟨fanIn_step hfan hs, hrun', hsent'.trans hsent⟩, hlt⟩
  obtain ⟨es, ls', hes, hexec, ⟨hfan, -, hsent⟩, hzero⟩ :=
    exec_variant (I := fun t => FanIn t ∧ Started t ∧ t.sent = ls.sent) _ _ hnext ⟨h, hrun, rfl⟩
  exact ⟨es, ls', hes, hexec, hfan, hsent, hzero⟩

theorem FanIn.sent_of_load (h : FanIn ls) (hzero : ls.load Branch.pending = 0) {i : Nat}
    {b : Branch} (hb : ls.branches[i]? = some b) :
    b.listener.sent.reverse = ofSource i ls.returned := by
  obtain ⟨hchan, hbranches⟩ := of_load_eq_zero hzero
  have hpending := hbranches b (List.mem_of_getElem? hb)
  unfold Branch.pending at hpending
  have hheld : b.forwarder.held = [] := List.eq_nil_of_length_eq_zero (by omega)
  have hown : b.listener.connChan = [] := List.eq_nil_of_length_eq_zero (by omega)
  rw [h.sent hb, hchan, hheld, hown]
  simp [ofSource]

end

/-- **`Listeners` hands out each `FakeConn` once, and loses none.** In every run: the channel never
holds more than its capacity and `Accept` returns no `FakeConn` twice; what a listener sent is, in
its order, what `Accept` returned of it, what is on the channel, what its goroutine holds, and what
its own channel holds. And as long as no listener is closed, the goroutines and further calls of
`Accept` alone can bring all that to the application. -/
theorem listeners_fan_in {n : Nat} {now : Time} {ls : Listeners} (h : ls.Reachable n now) :
    ls.connChan.length ≤ listenersChanCap ∧ ls.returned.Nodup ∧
      (∀ i b, ls.branches[i]? = some b → b.listener.sent.reverse =
        ofSource i ls.returned ++ ofSource i ls.connChan ++ b.forwarder.held ++
          b.listener.connChan) ∧
      (ls.once = true → (∀ b ∈ ls.branches, b.listener.cancelled = false) →
        ∃ es ls', (∀ e ∈ es, e.forwards = true) ∧ exec Listeners.step es ls = some ls' ∧
          ls'.sent = ls.sent ∧
          ∀ i b, ls'.branches[i]? = some b →
            b.listener.sent.reverse = ofSource i ls'.returned) := by
  have hfan := fanIn_of_reachable h
  refine ⟨hfan.room, hfan.nodup, fun i b hb => hfan.sent hb, fun honce hopened => ?_⟩
  -- a panic would have had to close a listener
  have hlive : ls.ended = false := by
    refine Bool.eq_false_iff.2 fun hended => ?_
    obtain ⟨b, hb, hcancelled⟩ := hfan.ended hended
    rw [hopened b hb] at hcancelled
    cases hcancelled
  obtain ⟨es, ls', hes, hexec, hfan', hsent, hzero⟩ := drain hfan ⟨hlive, honce, hopened⟩
  exact ⟨es, ls', hes, hexec, hsent, fun i b hb => hfan'.sent_of_load hzero hb⟩

theorem cancelled_of_map {bs : List Branch} {n : Nat} {closed : Bool}
    (h : bs.map (fun b => b.listener.cancelled) = List.replicate n closed) :
    ∀ b ∈ bs, b.listener.cancelled = closed := by
  intro b hb
  have hmem := List.mem_map_of_mem (f := fun b : Branch => b.listener.cancelled) hb
  rw [h] at hmem
  exact List.eq_of_mem_replicate hmem

/-- Two listeners get a message each; the second one's `FakeConn` comes first. -/
theorem listeners_fan_in_two :
    ∃ ls, exec Listeners.step [.start, .listener 0 (.recv [1] peerA), .listener 1 (.recv [2] peerA),
        .listener 0 .advance, .listener 0 .advance, .listener 0 .advance, .listener 0 .advance,
        .listener 1 .advance, .listener 1 .advance, .listener 1 .advance, .listener 1 .advance,
        .fetch 1, .send 1, .fetch 0, .accept] (fakeTcpListeners 2 0) = some ls ∧
      ls.returned = [(1, 0)] ∧ ls.returned.Nodup ∧
      ∃ es ls', (∀ e ∈ es, e.forwards = true) ∧ exec Listeners.step es ls = some ls' ∧
        ls'.sent = [[0], [0]] ∧
        ∀ i b, ls'.branches[i]? = some b → b.listener.sent.reverse = ofSource i ls'.returned := by
  have hrun : (exec Listeners.step [.start, .listener 0 (.recv [1] peerA),
      .listener 1 (.recv [2] peerA),
      .listener 0 .advance, .listener 0 .advance, .listener 0 .advance, .listener 0 .advance,
      .listener 1 .advance, .listener 1 .advance, .listener 1 .advance, .listener 1 .advance,
      .fetch 1, .send 1, .fetch 0, .accept] (fakeTcpListeners 2 0)).map
        (fun ls => (ls.returned, ls.once, ls.sent, ls.branches.map fun b => b.listener.cancelled)) =
      some ([(1, 0)], true, [[0], [0]], [false, false]) := by decide +kernel
  obtain ⟨ls, hls, hrun⟩ := Option.map_eq_some_iff.1 hrun
  simp only [Prod.mk.injEq] at hrun
  obtain ⟨hreturned, honce, hsent, hcancelled⟩ := hrun
  have hreach : ls.Reachable 2 0 := Reach.exec (fun _ _ _ h => h) (.init rfl) hls
  obtain ⟨-, hnodup, -, hdrain⟩ := listeners_fan_in hreach
  obtain ⟨es, ls', hes, hexec, hsame, hall⟩ := hdrain honce (cancelled_of_map (n := 2) hcancelled)
  exact ⟨ls, hls, hreturned, hnodup, es, ls', hes, hexec, hsame.trans hsent, hall⟩

end Faketcp
