import TcpRaw.Listener.Proof.Conns

/-!
# A closed address is quarantined

`FakeConn.Close` leaves the entry in `connMap` for ten seconds, and while the entry is there no
other `FakeConn` with its key is made. The deletion is scheduled once, in `closing` and then in
`delayMap` (`Scheduled`), and only the delayed-delete sweep carries it out, when its clock is past
the time (`scheduled_step`, `entry_step`). The expiry sweep and `Listener.Close` may collect the
`FakeConn`, but `close(true)` returns at once as it is closed.
-/

namespace Faketcp

open GoRt Common Trans

/-- The deletion of `f` is scheduled for `t`. -/
def Scheduled (l : Listener) (f : Nat) (t : Time) : Prop :=
  l.closing.lookup f = some (.delayed t) ∨ l.delayMap.lookup f = some t

section
variable {l l' : Listener} {e : Event} {f : Nat} {t : Time} {k : AddrKey}

theorem Scheduled.pending (h : Scheduled l f t) : l.Pending f := by
  rcases h with h | h
  · exact .inl (mem_of_lookup h)
  · exact .inr (mem_of_lookup h)

/-! ## The clock -/

theorem le_lastReading (clock : Nat → Time) (fs : List Nat) (now : Time) :
    now ≤ lastReading clock now fs ∧ ∀ f ∈ fs, clock f ≤ lastReading clock now fs :=
  le_foldl_max clock fs now

theorem now_step (hs : l.step e = some l') : l.now ≤ l'.now := by
  cases listenerStep hs with
  | tick h => exact h
  | advance ha => cases ha <;> exact Nat.le_refl _
  | close _ hc => cases hc <;> exact Nat.le_refl _
  | closeTarget _ hc => cases hc <;> exact Nat.le_refl _
  | delaySweep => exact (le_lastReading _ _ _).1
  | expireSweep => exact (le_lastReading _ _ _).1
  | _ => exact Nat.le_refl _

/-! ## The schedule -/

theorem scheduled_close {g : Nat} {kind : CloseKind} (h : Scheduled l f t) (hclosed : ¬ l.Open f)
    (hs : CloseStep l g kind l') : Scheduled l' f t := by
  cases hs with
  | already => exact h
  | marks hc hopen =>
    have hne : f ≠ g := by
      rintro rfl
      exact hclosed ⟨_, hc, hopen⟩
    exact h.imp_left fun h => (AList.lookup_insert_ne hne).trans h

theorem due_past {clock : Nat → Time} (hdel : l.delayMap.lookup f = some t) (hf : f ∈ l.due clock) :
    t < clock f := by
  obtain ⟨x, hx, rfl⟩ := List.mem_map.1 hf
  obtain ⟨hmem, hlt⟩ := List.mem_filter.1 hx
  have hx2 : l.delayMap.lookup x.1 = some x.2 := AList.mem_lookup_iff.2 hmem
  rw [hdel] at hx2
  cases hx2
  exact of_decide_eq_true hlt

theorem sweep_past {clock : Nat → Time} (hdel : l.delayMap.lookup f = some t)
    (hs : l.step (.delaySweep clock) = some l') (hf : f ∈ l.due clock) : t < l'.now := by
  have hlt := due_past hdel hf
  cases listenerStep hs
  exact Nat.lt_of_lt_of_le hlt
    ((le_lastReading clock _ _).2 f (AList.mem_keys.1 (mem_due hf)))

/-- **A schedule stays** until the clock is past its time. -/
theorem scheduled_step (hreg : Registry l) (h : Scheduled l f t) (hs : l.step e = some l') :
    Scheduled l' f t ∨ t < l'.now := by
  have hclosed := (hreg.pending f h.pending).2
  have hstep := hs
  cases listenerStep hs with
  | close _ hc => exact .inl (scheduled_close h hclosed hc)
  | @closeTarget g _ _ hc =>
    exact .inl (scheduled_close (l := { l with targets := l.targets.erase g }) h hclosed hc)
  | @delete g hk =>
    have hg : f ≠ g := by
      rintro rfl
      rcases h with h | h
      · rw [h] at hk
        cases hk
      · exact hreg.closing f (mem_of_lookup hk) (mem_of_lookup h)
    exact .inl (h.imp_left fun h => (AList.lookup_erase_ne hg).trans h)
  | @delay g t' hk =>
    left
    by_cases hg : f = g
    · subst hg
      rcases h with h | h
      · rw [h] at hk
        cases hk
        exact .inr (AList.lookup_insert _)
      · exact absurd (mem_of_lookup h) (hreg.closing f (mem_of_lookup hk))
    · exact h.imp (fun h => (AList.lookup_erase_ne hg).trans h)
        fun h => (AList.lookup_insert_ne hg).trans h
  | @delaySweep clock =>
    rcases h with h | h
    · exact .inl (.inl h)
    · by_cases hdue : f ∈ l.due clock
      · exact .inr (sweep_past h hstep hdue)
      · refine .inl (.inr ?_)
        dsimp only
        rw [GoMap.lookup_eraseAll, if_neg hdue, h]
  | advance ha => cases ha <;> exact .inl h
  | _ => exact .inl h

/-- **The entry stays** until the clock is past its time. -/
theorem entry_step (hreg : Registry l) (h : Scheduled l f t) (hk : l.connMap.lookup k = some f)
    (hs : l.step e = some l') : l'.connMap.lookup k = some f ∨ t < l'.now := by
  by_contra hno
  push Not at hno
  obtain ⟨hgone, hearly⟩ := hno
  have hdel := ((hreg.removed hs hk hgone f).2 rfl).1
  unfold Listener.deletions at hdel
  split at hdel
  · -- a deletion at once, but this one is scheduled
    split at hdel
    · rename_i g himm
      obtain rfl := List.mem_singleton.1 hdel
      rcases h with h | h
      · rw [h] at himm
        cases himm
      · exact hreg.closing f (mem_of_lookup himm) (mem_of_lookup h)
    · cases hdel
  · rcases h with h | h
    · exact hreg.closing f (mem_of_lookup h) (mem_due hdel)
    · exact Nat.not_lt_of_le hearly (sweep_past h hs hdel)
  · cases hdel

/-! ## The quarantine -/

/-- The entry at `k` is there and its deletion is scheduled for `t`; all `FakeConn`s with key `k`
are among the `old` ones. -/
structure Quarantined (k : AddrKey) (f : Nat) (old : Nat → Prop) (t : Time) (l : Listener) :
    Prop where
  registry : Registry l
  entry : l.connMap.lookup k = some f
  scheduled : Scheduled l f t
  old : ∀ g, l.key g = some k → old g

theorem quarantined_step {old : Nat → Prop} (h : Quarantined k f old t l)
    (hs : l.step e = some l') : Quarantined k f old t l' ∨ t < l'.now := by
  rcases entry_step h.registry h.scheduled h.entry hs with hentry | hpast
  · rcases scheduled_step h.registry h.scheduled hs with hsch | hpast
    · refine .inl ⟨registry_step h.registry hs, hentry, hsch, fun g hg => ?_⟩
      rcases (connsStep hs).addrs with he | ⟨data, src, -, hloop, he⟩
      · rw [key_eq_addrs, he, ← key_eq_addrs] at hg
        exact h.old g hg
      · -- a new one: the accept loop has found no entry at its key
        have hnone := h.registry.loop
        rw [hloop] at hnone
        rcases Nat.lt_or_ge g l.conns.length with hlt | hge
        · refine h.old g ?_
          rwa [key_eq_addrs, he, List.getElem?_append_left (by simpa using hlt),
            ← key_eq_addrs] at hg
        · rw [key_eq_addrs, he, List.getElem?_append_right (by simpa using hge),
            List.getElem?_singleton] at hg
          split at hg
          · obtain rfl : src.key = k := Option.some.inj hg
            cases h.entry.symm.trans hnone
          · cases hg
    · exact .inr hpast
  · exact .inr hpast

theorem quarantined_run {old : Nat → Prop} : ∀ (es : List Event) {l l' : Listener},
    Quarantined k f old t l ∨ t < l.now → exec Listener.step es l = some l' →
      Quarantined k f old t l' ∨ t < l'.now
  | [], l, l', h, hrun => by
    cases hrun
    exact h
  | e :: es, l, l', h, hrun => by
    obtain ⟨l₁, hs, hrun⟩ := Option.bind_eq_some_iff.1 hrun
    refine quarantined_run es ?_ hrun
    rcases h with h | h
    · exact quarantined_step h hs
    · exact .inr (Nat.lt_of_lt_of_le h (now_step hs))

/-- **A closed address is quarantined.** The application closes an open `FakeConn` that is the entry
at its key. In every state of every later run, up to ten seconds after, the entry is still there and
no other `FakeConn` with this key has been created. -/
theorem quarantined (hl : l.Reachable) (hopen : l.Open f) (hentry : l.connMap.lookup k = some f)
    (hclose : l.step (.close f) = some l') (es : List Event) {l₂ : Listener}
    (hrun : exec Listener.step es l' = some l₂) (hnow : l₂.now ≤ l.now + 10 * second) :
    l₂.connMap.lookup k = some f ∧ ∀ g, l₂.key g = some k → l.key g = some k := by
  have hreg := registry_of_reachable hl
  obtain ⟨c, hc, hcl⟩ := hopen
  have hstart : Quarantined k f (fun g => l.key g = some k) (l.now + 10 * second) l' := by
    have hreg' := registry_step hreg hclose
    cases listenerStep hclose with
    | close _ hs =>
      cases hs with
      | already h =>
        rw [h c hc] at hcl
        cases hcl
      | @marks c' hc' =>
        have haddrs : (l.conns.set f { c' with closed := true }).map (·.addr) =
            l.conns.map (·.addr) := map_set_of hc' rfl
        refine ⟨hreg', hentry, .inl (AList.lookup_insert _), fun g hg => ?_⟩
        rw [key_eq_addrs] at hg ⊢
        rw [← haddrs]
        exact hg
  rcases quarantined_run es (.inl hstart) hrun with h | h
  · exact ⟨h.entry, h.old⟩
  · exact absurd h (Nat.not_lt_of_le hnow)

end

/-- A `FakeConn` that has been idle for a minute is closed. More data arrives, the expiry sweep
collects the `FakeConn` and closes it again, and the delayed-delete sweep runs ten seconds after the
close. -/
theorem quarantined_sweeps :
    ∃ l l' l₂, exec Listener.step [.recv [1] peerA, .advance, .advance, .advance, .advance,
        .advance, .accept, .tick (61 * second)] (Listener.new 0) = some l ∧
      l.step (.close 0) = some l' ∧
      exec Listener.step [.expireSweep fun _ => 62 * second, .finish 0, .closeTarget 0,
        .recv [2] peerA, .advance, .advance, .delaySweep fun _ => 71 * second] l' = some l₂ ∧
      l₂.now = 71 * second ∧ l₂.connMap.lookup peerA.key = some 0 ∧
      ∀ g, l₂.key g = some peerA.key → l.key g = some peerA.key := by
  have hrun : (exec Listener.step [.recv [1] peerA, .advance, .advance, .advance, .advance,
      .advance, .accept, .tick (61 * second)] (Listener.new 0)).map (fun l =>
        ((l.conns[0]?).map (·.closed), l.connMap.lookup peerA.key, l.now,
          ((l.step (.close 0)).bind (exec Listener.step
            [.expireSweep fun _ => 62 * second, .finish 0, .closeTarget 0, .recv [2] peerA,
            .advance, .advance, .delaySweep fun _ => 71 * second])).map (·.now))) =
      some (some false, some 0, 61 * second, some (71 * second)) := by decide +kernel
  obtain ⟨l, hl, hrun⟩ := Option.map_eq_some_iff.1 hrun
  simp only [Prod.mk.injEq] at hrun
  obtain ⟨hclosed, hentry, hnow, hrun⟩ := hrun
  obtain ⟨l₂, hrun, hnow₂⟩ := Option.map_eq_some_iff.1 hrun
  obtain ⟨l', hclose, hrun⟩ := Option.bind_eq_some_iff.1 hrun
  obtain ⟨c, hc, hcl⟩ := Option.map_eq_some_iff.1 hclosed
  exact ⟨l, l', l₂, hl, hclose, hrun, hnow₂,
    quarantined (reachable_exec hl) ⟨c, hc, hcl⟩ hentry hclose _ hrun
      (by rw [hnow₂, hnow]; decide)⟩

end Faketcp
