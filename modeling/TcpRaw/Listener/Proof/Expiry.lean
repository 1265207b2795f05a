import TcpRaw.Listener.Expiry
import TcpRaw.Listener.Proof.Quarantine

/-!
# Expiry closes idle connections, but for two races

The cleaner looks at `ts` under the lock and closes later without it. `ts` is the time of the last
accepted `Push` (`Times.ts`), so what the cleaner collects has been idle for a minute, if its first
`Push` was made; and what it closes is idle, if no further `Push` was accepted in between. In the
runs where sweeps keep to that (`Timed.Careful`) every close is right, and each step that does not
opens the way to a close that is wrong (`expiry_closes_idle`).
-/

namespace Faketcp

open GoRt Common Trans

/-- `ts` of a `FakeConn`; `none` is the zero time. -/
def Listener.tsOf (l : Listener) (f : Nat) : Option Time := ((l.conns.map (·.ts))[f]?).join

/-- What the accept loop knows of the inserts. -/
def LoopInserted (l : Listener) : Loop → Prop
  | .push _ f => f ∈ l.inserted
  | .send _ _ f | .insert _ _ f => f ∉ l.inserted
  | _ => True

/-- What is to be closed after a step. -/
def Listener.targetsAfter (l : Listener) : Event → List Nat
  | .closeTarget f => l.targets.erase f
  | .expireSweep clock => l.targets ++ l.idle clock
  | .fetch k => l.targets ++ (l.connMap.lookup k).toList
  | _ => l.targets

section
variable {l l' : Listener} {e : Event} {f : Nat}

theorem tsOf_of_get {c : FakeConn} (h : l.conns[f]? = some c) : l.tsOf f = c.ts := by
  rw [Listener.tsOf, List.getElem?_map, h]
  rfl

/-! ## What a step does to the times -/

theorem accepting_iff : l.Accepting f ↔
    ∃ data c, l.loop = .push data f ∧ l.conns[f]? = some c ∧ c.recvch.length < recvchCap := by
  constructor
  · rintro ⟨hpush, c, hget, hroom⟩
    cases hloop : l.loop with
    | push data g =>
      rw [hloop] at hpush
      cases hpush
      exact ⟨data, c, rfl, hget, hroom⟩
    | _ => rw [hloop] at hpush; cases hpush
  · rintro ⟨data, c, hloop, hget, hroom⟩
    exact ⟨by rw [hloop]; rfl, c, hget, hroom⟩

theorem tsOf_congr (h : l'.conns.map (·.ts) = l.conns.map (·.ts)) (g : Nat) :
    l'.tsOf g = l.tsOf g := by
  rw [Listener.tsOf, h, Listener.tsOf]

theorem tsOf_step (hs : l.step e = some l') :
    ((e = .advance → ∀ f, ¬ l.Accepting f) ∧ ∀ g, l'.tsOf g = l.tsOf g) ∨
      ∃ f, e = .advance ∧ l.Accepting f ∧
        ∀ g, l'.tsOf g = if g = f then some l.now else l.tsOf g := by
  have hconns := connsStep hs
  generalize hc : l'.conns = conns at hconns
  cases hconns with
  | keep hpush =>
    refine .inl ⟨fun hadv f hacc => ?_, tsOf_congr (by rw [hc])⟩
    obtain ⟨data, c, hloop, -⟩ := accepting_iff.1 hacc
    exact hpush hadv data f hloop
  | create hloop =>
    refine .inl ⟨fun _ f hacc => ?_, fun g => ?_⟩
    · obtain ⟨data, c, hloop', -⟩ := accepting_iff.1 hacc
      rw [hloop] at hloop'
      cases hloop'
    · rw [Listener.tsOf, hc, List.map_append, Listener.tsOf, List.getElem?_append]
      split
      · rfl
      · rename_i hge
        rw [List.getElem?_eq_none (Nat.not_lt.1 hge), List.map_singleton, List.getElem?_singleton]
        split <;> rfl
  | @push data f hloop =>
    by_cases hacc : l.Accepting f
    · refine .inr ⟨f, rfl, hacc, fun g => ?_⟩
      obtain ⟨-, c, -, hget, hroom⟩ := accepting_iff.1 hacc
      rw [Listener.tsOf, hc, List.getElem?_map, List.getElem?_modify]
      split
      · rename_i heq
        rw [if_pos heq.symm, ← heq, hget]
        simp [FakeConn.push, hroom]
      · rename_i hne
        rw [if_neg (Ne.symm hne), Listener.tsOf, List.getElem?_map]
        exact congrArg (fun o : Option FakeConn => (o.map (·.ts)).join) (id_map _)
    · refine .inl ⟨fun _ g hg => ?_, tsOf_congr (hc ▸ map_modify_of fun c hget => ?_)⟩
      · obtain ⟨data', c, hloop', -⟩ := accepting_iff.1 hg
        rw [hloop] at hloop'
        cases hloop'
        exact hacc hg
      · have hfull : ¬ c.recvch.length < recvchCap :=
          fun h => hacc (accepting_iff.2 ⟨data, c, hloop, hget, h⟩)
        simp [FakeConn.push, hfull]
  | take f =>
    refine .inl ⟨fun h => ?_, tsOf_congr (hc ▸ map_modify_of fun c _ => rfl)⟩
    cases h
  | close hget hadv =>
    exact .inl ⟨fun h => absurd h hadv, tsOf_congr (hc ▸ map_set_of hget rfl)⟩

theorem open_iff_get : l.Open f ↔ (l.conns.map (·.closed))[f]? = some false := by
  rw [List.getElem?_map, Option.map_eq_some_iff]
  rfl

theorem open_step (hs : l.step e = some l') (hopen : l'.Open f) (hlt : f < l.conns.length) :
    l.Open f := by
  rw [open_iff_get] at hopen ⊢
  have hconns := connsStep hs
  generalize l'.conns = conns at hconns hopen
  cases hconns with
  | keep => exact hopen
  | create hloop =>
    rw [List.map_append, List.getElem?_append_left (by rw [List.length_map]; exact hlt)] at hopen
    exact hopen
  | @push data g hloop =>
    rw [map_modify_of fun c _ => ?_] at hopen
    · exact hopen
    · unfold FakeConn.push
      split <;> rfl
  | take g =>
    have hmap : (l.conns.modify g fun c => { c with recvch := c.recvch.tail }).map (·.closed) =
        l.conns.map (·.closed) := map_modify_of fun c _ => rfl
    rw [hmap] at hopen
    exact hopen
  | @close e g c hget =>
    rw [List.map_set, List.getElem?_set] at hopen
    split at hopen
    · split at hopen <;> cases hopen
    · exact hopen

/-- The inserts and the place of the accept loop, in the steps of the others. -/
theorem frame_step (hs : l.step e = some l') (hadv : e ≠ .advance) :
    l'.inserted = l.inserted ∧ (l'.loop = l.loop ∨ ∃ data src, l'.loop = .lookup data src) := by
  cases listenerStep hs with
  | advance => exact absurd rfl hadv
  | recv => exact ⟨rfl, .inr ⟨_, _, rfl⟩⟩
  | close _ hc => cases hc <;> exact ⟨rfl, .inl rfl⟩
  | closeTarget _ hc => cases hc <;> exact ⟨rfl, .inl rfl⟩
  | _ => exact ⟨rfl, .inl rfl⟩

theorem loopInserted_advance (hreg : Registry l) (h : LoopInserted l l.loop)
    (hs : AdvanceStep l l') : LoopInserted l' l'.loop := by
  cases hs with
  | found hloop hlook => exact (hreg.entry _ _ hlook).2
  | absent => trivial
  | create hloop =>
    intro hmem
    exact absurd (hreg.valid _ (hreg.inserted _ hmem)) (Nat.lt_irrefl _)
  | send hloop =>
    rw [hloop] at h
    exact h
  | full => trivial
  | insert => exact List.mem_cons_self
  | push => trivial

/-- **The accept loop pushes to what was inserted**, and inserts a `FakeConn` once. -/
theorem loopInserted_step (hreg : Registry l) (h : LoopInserted l l.loop)
    (hs : l.step e = some l') : LoopInserted l' l'.loop := by
  by_cases hadv : e = .advance
  · subst hadv
    exact loopInserted_advance hreg h (advanceStep hs)
  · obtain ⟨hins, hloop | ⟨data, src, hloop⟩⟩ := frame_step hs hadv
    · rw [hloop]
      cases hl : l.loop <;> rw [hl] at h <;> simp_all [LoopInserted]
    · rw [hloop]
      trivial

/-- **What is to be closed**: the sweeps and `Listener.Close` add to it, and a close takes away. -/
theorem targets_step (hs : l.step e = some l') : l'.targets = l.targetsAfter e := by
  cases listenerStep hs with
  | advance ha => cases ha <;> rfl
  | close _ hc => cases hc <;> rfl
  | closeTarget _ hc => cases hc <;> rfl
  | fetch hlook => rw [Listener.targetsAfter, hlook, Option.toList_some]
  | _ => rfl

end

/-! ## The times of a run -/

/-- The invariant of a listener with its times (module doc). -/
structure Times (t : Timed) : Prop where
  registry : Registry t.l
  loop : LoopInserted t.l t.l.loop
  ts : ∀ f, t.l.tsOf f = t.pushedAt.lookup f
  inserted : ∀ f ∈ t.l.inserted, ∃ ti, t.insertedAt.lookup f = some ti ∧ ti ≤ t.l.now
  pushed : ∀ f tp, t.pushedAt.lookup f = some tp →
    f ∈ t.l.inserted ∧ ∃ ti, t.insertedAt.lookup f = some ti ∧ ti ≤ tp
  expiring : ∀ f, t.expiring.count f ≤ t.l.targets.count f

section
variable {t t' : Timed} {e : TimedEvent} {f : Nat}

theorem times_new (now : Time) : Times (Timed.new now) where
  registry := registry_new now
  loop := trivial
  ts _ := rfl
  inserted _ h := by cases h
  pushed _ _ h := by cases h
  expiring _ := Nat.le_refl _

/-- The step of the listener in a step with times. -/
def TimedEvent.base : TimedEvent → Event
  | .step e => e
  | .expire f => .closeTarget f

theorem recordAdvance_l (t : Timed) (l' : Listener) : (t.recordAdvance l').l = l' := by
  unfold Timed.recordAdvance
  split
  · rfl
  · split
    · split <;> rfl
    · rfl
  · rfl

theorem recordAdvance_closes (t : Timed) (l' : Listener) :
    (t.recordAdvance l').expiring = t.expiring ∧ (t.recordAdvance l').closes = t.closes := by
  unfold Timed.recordAdvance
  split
  · exact ⟨rfl, rfl⟩
  · split
    · split <;> exact ⟨rfl, rfl⟩
    · exact ⟨rfl, rfl⟩
  · exact ⟨rfl, rfl⟩

theorem record_l (t : Timed) (l' : Listener) (e : Event) : (t.record l' e).l = l' := by
  cases e with
  | advance => exact recordAdvance_l t l'
  | _ => rfl

theorem record_closes (t : Timed) (l' : Listener) (e : Event) :
    (t.record l' e).closes = t.closes := by
  cases e with
  | advance => exact (recordAdvance_closes t l').2
  | _ => rfl

/-- A step is one of the listener; the cleaner's close is one of what it has collected. -/
theorem step_cases (hs : t.step e = some t') :
    (∃ e' l', e = .step e' ∧ t.others e' = true ∧ t.l.step e' = some l' ∧ t' = t.record l' e') ∨
      ∃ f l', e = .expire f ∧ f ∈ t.expiring ∧ t.l.step (.closeTarget f) = some l' ∧
        t' = t.recordExpire l' f := by
  cases e with
  | step e =>
    simp only [Timed.step] at hs
    split at hs
    · rename_i ho
      obtain ⟨l', hl', rfl⟩ := Option.map_eq_some_iff.1 hs
      exact .inl ⟨e, l', rfl, ho, hl', rfl⟩
    · cases hs
  | expire f =>
    simp only [Timed.step] at hs
    split at hs
    · rename_i hf
      obtain ⟨l', hl', rfl⟩ := Option.map_eq_some_iff.1 hs
      exact .inr ⟨f, l', rfl, hf, hl', rfl⟩
    · cases hs

theorem base_step (hs : t.step e = some t') : t.l.step e.base = some t'.l := by
  rcases step_cases hs with ⟨e', l', rfl, -, hl', rfl⟩ | ⟨f, l', rfl, -, hl', rfl⟩
  · rw [record_l]
    exact hl'
  · exact hl'

theorem insertedAt_step (hs : t.step e = some t') :
    (t'.insertedAt = t.insertedAt ∧ t'.l.inserted = t.l.inserted) ∨
      ∃ data src f, t.l.loop = .insert data src f ∧ t'.l.inserted = f :: t.l.inserted ∧
        t'.insertedAt = (f, t.l.now) :: t.insertedAt := by
  rcases step_cases hs with ⟨e', l', -, -, hl', rfl⟩ | ⟨f, l', -, -, hl', rfl⟩
  · by_cases hadv : e' = .advance
    · subst hadv
      rw [record_l]
      simp only [Timed.record, Timed.recordAdvance]
      cases advanceStep hl' with
      | found hloop => exact .inl (by simp only [hloop, and_self])
      | absent hloop => exact .inl (by simp only [hloop, and_self])
      | create hloop => exact .inl (by simp only [hloop, and_self])
      | send hloop => exact .inl (by simp only [hloop, and_self])
      | full hloop => exact .inl (by simp only [hloop, and_self])
      | insert hloop => exact .inr ⟨_, _, _, hloop, rfl, by simp only [hloop]⟩
      | push hloop =>
        refine .inl ⟨?_, rfl⟩
        simp only [hloop]
        split
        · split <;> rfl
        · rfl
    · refine .inl ⟨?_, ?_⟩
      · cases e' with
        | advance => exact absurd rfl hadv
        | _ => rfl
      · rw [record_l]
        exact (frame_step hl' hadv).1
  · exact .inl ⟨rfl, (frame_step hl' (by simp)).1⟩

theorem advance_push {l l' : Listener} {data : Bytes} (hloop : l.loop = .push data f)
    (hs : l.step .advance = some l') :
    l'.now = l.now ∧ l'.conns[f]? = (l.conns[f]?).map (·.push l.now data) := by
  simp only [Listener.step, Listener.advance, hloop] at hs
  cases hs
  exact ⟨rfl, by rw [List.getElem?_modify_eq]; rfl⟩

theorem pushedAt_accepted {l' : Listener} (hs : t.l.step .advance = some l')
    (h : t.l.Accepting f) :
    (t.record l' .advance).pushedAt = (f, t.l.now) :: t.pushedAt := by
  obtain ⟨data, c, hloop, hget, hroom⟩ := accepting_iff.1 h
  have hafter := (advance_push hloop hs).2
  rw [hget] at hafter
  simp only [Timed.record, Timed.recordAdvance, hloop, hget, hafter, Option.map_some]
  rw [if_pos (by simp [FakeConn.push, hroom])]

theorem pushedAt_refused {l' : Listener} (hs : t.l.step .advance = some l')
    (h : ∀ f, ¬ t.l.Accepting f) : (t.record l' .advance).pushedAt = t.pushedAt := by
  simp only [Timed.record, Timed.recordAdvance]
  split
  · rfl
  · rename_i data f hloop
    split
    · rename_i before after hbefore hafter
      have hpush := (advance_push hloop hs).2
      rw [hbefore, hafter] at hpush
      cases hpush
      have hfull : ¬ before.recvch.length < recvchCap :=
        fun hroom => h f (accepting_iff.2 ⟨data, before, hloop, hbefore, hroom⟩)
      rw [if_neg (by simp [FakeConn.push, hfull])]
    · rfl
  · rfl

theorem pushedAt_step (hs : t.step e = some t') :
    (t'.pushedAt = t.pushedAt ∧ ∀ g, t'.l.tsOf g = t.l.tsOf g) ∨
      ∃ f, e = .step .advance ∧ t.l.Accepting f ∧ t'.pushedAt = (f, t.l.now) :: t.pushedAt ∧
        ∀ g, t'.l.tsOf g = if g = f then some t.l.now else t.l.tsOf g := by
  rcases step_cases hs with ⟨e', l', rfl, -, hl', rfl⟩ | ⟨f, l', -, -, hl', rfl⟩
  · rw [record_l]
    rcases tsOf_step hl' with ⟨hno, hts⟩ | ⟨f, rfl, hacc, hts⟩
    · refine .inl ⟨?_, hts⟩
      cases e' with
      | advance => exact pushedAt_refused hl' (hno rfl)
      | _ => rfl
    · exact .inr ⟨f, rfl, hacc, pushedAt_accepted hl' hacc, hts⟩
  · rcases tsOf_step hl' with ⟨-, hts⟩ | ⟨g, hadv, -⟩
    · exact .inl ⟨rfl, hts⟩
    · cases hadv

theorem expiring_step (h : ∀ f, t.expiring.count f ≤ t.l.targets.count f)
    (hs : t.step e = some t') (f : Nat) : t'.expiring.count f ≤ t'.l.targets.count f := by
  rcases step_cases hs with ⟨e', l', -, ho, hl', rfl⟩ | ⟨g, l', -, -, hl', rfl⟩
  · rw [record_l, targets_step hl']
    cases e' with
    | advance =>
      change (t.recordAdvance l').expiring.count f ≤ _
      rw [(recordAdvance_closes t l').1]
      exact h f
    | expireSweep clock =>
      change (t.expiring ++ t.l.idle clock).count f ≤ (t.l.targets ++ t.l.idle clock).count f
      rw [List.count_append, List.count_append]
      exact Nat.add_le_add_right (h f) _
    | closeTarget g =>
      -- one of `Listener.Close`: it leaves what the cleaner has yet to close
      have hlt : t.expiring.count g < t.l.targets.count g := of_decide_eq_true ho
      change t.expiring.count f ≤ (t.l.targets.erase g).count f
      rw [List.count_erase]
      split
      · rename_i heq
        obtain rfl : g = f := by simpa using heq
        omega
      · exact h f
    | fetch k =>
      change t.expiring.count f ≤ (t.l.targets ++ (t.l.connMap.lookup k).toList).count f
      rw [List.count_append]
      exact Nat.le_add_right_of_le (h f)
    | _ => exact h f
  · change (t.expiring.erase g).count f ≤ l'.targets.count f
    rw [targets_step hl']
    change (t.expiring.erase g).count f ≤ (t.l.targets.erase g).count f
    rw [List.count_erase, List.count_erase]
    exact Nat.sub_le_sub_right (h f) _

theorem lookup_cons_if {α : Type} (f g : Nat) (a : α) (l : List (Nat × α)) :
    ((g, a) :: l).lookup f = if f = g then some a else l.lookup f := by
  rw [List.lookup_cons]
  by_cases h : f = g
  · rw [if_pos h, beq_iff_eq.2 h]
  · rw [if_neg h, beq_eq_false_iff_ne.2 h]

theorem pushed_step (h : Times t) (hs : t.step e = some t') (f : Nat) (tp : Time)
    (htp : t'.pushedAt.lookup f = some tp) :
    f ∈ t'.l.inserted ∧ ∃ ti, t'.insertedAt.lookup f = some ti ∧ ti ≤ tp := by
  rcases pushedAt_step hs with ⟨hp, -⟩ | ⟨g, -, hacc, hp, -⟩
  · rw [hp] at htp
    obtain ⟨hf, ti, hti, hle⟩ := h.pushed f tp htp
    rcases insertedAt_step hs with ⟨hat, hins⟩ | ⟨data, src, g, hloop, hins, hat⟩
    · rw [hat, hins]
      exact ⟨hf, ti, hti, hle⟩
    · -- what is inserted now was not inserted before
      have hne : f ≠ g := by
        rintro rfl
        have hnew := h.loop
        rw [hloop] at hnew
        exact hnew hf
      rw [hat, hins, lookup_cons_if, if_neg hne]
      exact ⟨List.mem_cons_of_mem _ hf, ti, hti, hle⟩
  · obtain ⟨data, c, hloop, -⟩ := accepting_iff.1 hacc
    rcases insertedAt_step hs with ⟨hat, hins⟩ | ⟨data', src, g', hloop', -⟩
    · rw [hat, hins]
      rw [hp, lookup_cons_if] at htp
      split at htp
      · rename_i heq
        cases htp
        have hg := h.loop
        rw [hloop] at hg
        rw [heq]
        exact ⟨hg, h.inserted g hg⟩
      · exact h.pushed f tp htp
    · rw [hloop] at hloop'
      cases hloop'

/-- **The times are kept** by every step. -/
theorem times_step (h : Times t) (hs : t.step e = some t') : Times t' := by
  have hl' := base_step hs
  have hnow := now_step hl'
  refine ⟨registry_step h.registry hl', loopInserted_step h.registry h.loop hl', fun f => ?_,
    fun f hf => ?_, pushed_step h hs, expiring_step h.expiring hs⟩
  · rcases pushedAt_step hs with ⟨hp, hts⟩ | ⟨g, -, -, hp, hts⟩
    · rw [hts, hp]
      exact h.ts f
    · rw [hts, hp, lookup_cons_if, h.ts]
  · rcases insertedAt_step hs with ⟨hat, hins⟩ | ⟨data, src, g, -, hins, hat⟩
    · rw [hins] at hf
      obtain ⟨ti, hti, hle⟩ := h.inserted f hf
      exact ⟨ti, by rw [hat]; exact hti, Nat.le_trans hle hnow⟩
    · rw [hat, lookup_cons_if]
      split
      · exact ⟨t.l.now, rfl, hnow⟩
      · rename_i hfg
        rw [hins] at hf
        obtain ⟨ti, hti, hle⟩ := h.inserted f ((List.mem_cons.1 hf).resolve_left hfg)
        exact ⟨ti, hti, Nat.le_trans hle hnow⟩

theorem times_of_reachable (h : t.Reachable) : Times t := by
  refine Reach.invariant ?_ ?_ h
  · rintro t ⟨now, rfl⟩
    exact times_new now
  · exact fun t e t' h hs => times_step h hs

/-! ## Careful runs -/

/-- What the cleaner has yet to close and is open has been idle for a minute, and so had been all
that it has closed. -/
structure Quiet (t : Timed) : Prop where
  times : Times t
  expiring : ∀ f ∈ t.expiring, t.l.Open f →
    ∃ tp, t.l.tsOf f = some tp ∧ tp + expireAfter < t.l.now
  closes : ∀ c ∈ t.closes, c.Idle

theorem Times.lt_length (h : Times t) (hf : f ∈ t.expiring) : f < t.l.conns.length := by
  apply h.registry.valid
  apply h.registry.targets
  exact List.count_pos_iff.1 (Nat.lt_of_lt_of_le (List.count_pos_iff.2 hf) (h.expiring f))

/-- What the sweep collects has been idle for a minute, if its first `Push` was made. -/
theorem idle_collected {l l' : Listener} {clock : Nat → Time}
    (hs : l.step (.expireSweep clock) = some l') (hf : f ∈ l.idle clock) {tp : Time}
    (htp : l.tsOf f = some tp) : tp + expireAfter < l'.now := by
  obtain ⟨hmem, hexp⟩ := List.mem_filter.1 hf
  split at hexp
  · rename_i c hget
    rw [tsOf_of_get hget] at htp
    rw [FakeConn.expired, htp] at hexp
    cases listenerStep hs
    exact Nat.lt_of_lt_of_le (of_decide_eq_true hexp) ((le_lastReading clock _ _).2 f hmem)
  · cases hexp

/-- What is to be closed was so before, or is collected by this step. -/
theorem mem_expiring_step (hs : t.step e = some t') (hf : f ∈ t'.expiring) :
    f ∈ t.expiring ∨ ∃ clock, e = .step (.expireSweep clock) ∧ f ∈ t.l.idle clock := by
  rcases step_cases hs with ⟨e', l', rfl, -, -, rfl⟩ | ⟨g, l', -, -, -, rfl⟩
  · cases e' with
    | advance =>
      change f ∈ (t.recordAdvance l').expiring at hf
      rw [(recordAdvance_closes t l').1] at hf
      exact .inl hf
    | expireSweep clock =>
      rcases List.mem_append.1 hf with hf | hf
      · exact .inl hf
      · exact .inr ⟨clock, rfl, hf⟩
    | _ => exact .inl hf
  · exact .inl (List.mem_of_mem_erase hf)

theorem mem_closes_step {c : ExpiryClose} (hs : t.step e = some t') (hc : c ∈ t'.closes) :
    c ∈ t.closes ∨ ∃ f, f ∈ t.expiring ∧ t.l.Open f ∧
      c = ⟨f, t.l.now, t.insertedAt.lookup f, t.pushedAt.lookup f⟩ := by
  rcases step_cases hs with ⟨e', l', -, -, -, rfl⟩ | ⟨f, l', -, hf, -, rfl⟩
  · rw [record_closes] at hc
    exact .inl hc
  · simp only [Timed.recordExpire] at hc
    split at hc
    · rename_i fc hget
      split at hc
      · exact .inl hc
      · rename_i hcl
        rcases List.mem_cons.1 hc with rfl | hc
        · exact .inr ⟨f, hf, ⟨fc, hget, by simpa using hcl⟩, rfl⟩
        · exact .inl hc
    · exact .inl hc

theorem Quiet.expiring_step (h : Quiet t) (hs : t.step e = some t') (hc : t.Careful e) (f : Nat)
    (hf : f ∈ t'.expiring) (hopen : t'.l.Open f) :
    ∃ tp, t'.l.tsOf f = some tp ∧ tp + expireAfter < t'.l.now := by
  have hl' := base_step hs
  rcases mem_expiring_step hs hf with hf | ⟨clock, rfl, hf⟩
  · have hopen' := open_step hl' hopen (h.times.lt_length hf)
    obtain ⟨tp, htp, hlt⟩ := h.expiring f hf hopen'
    refine ⟨tp, ?_, Nat.lt_of_lt_of_le hlt (now_step hl')⟩
    rcases pushedAt_step hs with ⟨-, hts⟩ | ⟨g, rfl, hacc, -, hts⟩
    · rw [hts, htp]
    · -- an accepted `Push` goes to another
      have hne : f ≠ g := by
        rintro rfl
        obtain ⟨c, hget, hcl⟩ := hopen'
        rw [hc f hf hacc c hget] at hcl
        cases hcl
      rw [hts, if_neg hne, htp]
  · -- no `Push` is made by the sweep, and the first one was made before
    obtain ⟨x, hx, rfl⟩ := List.mem_map.1 (List.mem_filter.1 hf).1
    obtain ⟨fc, hget, hcl⟩ := open_step hl' hopen
      (h.times.registry.valid x.2 (mem_targets_sweep h.times.registry hf))
    have hts : t'.l.tsOf x.2 = t.l.tsOf x.2 := by
      rcases tsOf_step hl' with ⟨-, hts⟩ | ⟨g, hadv, -⟩
      · exact hts x.2
      · cases hadv
    cases hfc : fc.ts with
    | none => exact absurd ⟨fc, hget, hcl, hfc⟩ (hc x hx)
    | some tp =>
      have htp : t.l.tsOf x.2 = some tp := (tsOf_of_get hget).trans hfc
      exact ⟨tp, hts.trans htp, idle_collected hl' hf htp⟩

theorem Quiet.closes_step (h : Quiet t) (hs : t.step e = some t') :
    ∀ c ∈ t'.closes, c.Idle := by
  intro c hc
  rcases mem_closes_step hs hc with hc | ⟨f, hf, hopen, rfl⟩
  · exact h.closes c hc
  · obtain ⟨tp, htp, hlt⟩ := h.expiring f hf hopen
    rw [h.times.ts] at htp
    obtain ⟨-, ti, hti, hle⟩ := h.times.pushed f tp htp
    exact ⟨⟨ti, hti, Nat.lt_of_le_of_lt (Nat.add_le_add_right hle _) hlt⟩, tp, htp, hlt⟩

theorem quiet_step (h : Quiet t) (hs : t.step e = some t') (hc : t.Careful e) : Quiet t' :=
  ⟨times_step h.times hs, h.expiring_step hs hc, h.closes_step hs⟩

theorem quiet_of_careful (h : t.CarefullyReachable) : Quiet t := by
  refine Reach.invariant ?_ ?_ h
  · rintro t ⟨now, rfl⟩
    refine ⟨times_new now, fun f hf => ?_, fun c hc => ?_⟩
    · cases hf
    · cases hc
  · intro t e t' h hs
    unfold Timed.stepCarefully at hs
    split at hs
    · rename_i hc
      exact quiet_step h hs hc
    · cases hs

/-! ## The races -/

theorem expire_next (h : Times t) (hf : f ∈ t.expiring) (hopen : t.l.Open f) :
    ∃ t', t.step (.expire f) = some t' ∧
      ⟨f, t.l.now, t.insertedAt.lookup f, t.pushedAt.lookup f⟩ ∈ t'.closes := by
  have hmem : f ∈ t.l.targets :=
    List.count_pos_iff.1 (Nat.lt_of_lt_of_le (List.count_pos_iff.2 hf) (h.expiring f))
  obtain ⟨l', hclose⟩ : ∃ l', t.l.step (.closeTarget f) = some l' := ⟨_, if_pos hmem⟩
  obtain ⟨c, hget, hcl⟩ := hopen
  refine ⟨t.recordExpire l' f, ?_, ?_⟩
  · rw [Timed.step, if_pos hf, hclose]
    rfl
  · simp [Timed.recordExpire, hget, hcl]

theorem conns_expireSweep {l l' : Listener} {clock : Nat → Time}
    (hs : l.step (.expireSweep clock) = some l') : l'.conns = l.conns := by
  cases listenerStep hs
  rfl

/-- A sweep between the insert and the first `Push` of a `FakeConn` collects it. -/
theorem race_unpushed (h : Times t) {clock : Nat → Time}
    (hs : t.step (.step (.expireSweep clock)) = some t') (hf : f ∈ t.l.connMap.entries.map (·.2))
    (hun : t.l.Unpushed f) :
    ∃ t'', t'.step (.expire f) = some t'' ∧ ∃ c ∈ t''.closes, ¬ c.Idle := by
  have h' := times_step h hs
  obtain ⟨c, hget, hcl, hts⟩ := hun
  have hidle : f ∈ t.l.idle clock := by
    refine List.mem_filter.2 ⟨hf, ?_⟩
    rw [Option.mem_def.1 hget]
    simp only [FakeConn.expired, hts]
  have hconns : t'.l.conns = t.l.conns := conns_expireSweep (base_step hs)
  have hmem : f ∈ t'.expiring := by
    rcases step_cases hs with ⟨e', l', heq, -, -, rfl⟩ | ⟨g, l', heq, -⟩
    · cases heq
      exact List.mem_append_right _ hidle
    · cases heq
  have hnone : t'.pushedAt.lookup f = none := by
    rw [← h'.ts, tsOf_of_get (hconns ▸ hget), hts]
  obtain ⟨t'', hstep, hclose⟩ := expire_next h' hmem ⟨c, hconns ▸ hget, hcl⟩
  refine ⟨t'', hstep, _, hclose, fun hbad => ?_⟩
  obtain ⟨-, tp, htp, -⟩ := hbad
  rw [hnone] at htp
  cases htp

/-- A `Push` between the collection and the close of a `FakeConn` does not stop the close. -/
theorem race_collected (h : Times t) (hs : t.step (.step .advance) = some t')
    (hacc : t.l.Accepting f) (hmem : f ∈ t.expiring) (hopen : t.l.Open f) :
    ∃ t'', t'.step (.expire f) = some t'' ∧ ∃ c ∈ t''.closes, ¬ c.Idle := by
  have h' := times_step h hs
  obtain ⟨c, hget, hcl⟩ := hopen
  rcases step_cases hs with ⟨e', l', heq, -, hl', rfl⟩ | ⟨g, l', heq, -⟩
  · cases heq
    obtain ⟨data, -, hloop, -⟩ := accepting_iff.1 hacc
    obtain ⟨hnow, hafter⟩ := advance_push hloop hl'
    rw [hget] at hafter
    have hopen : (t.record l' .advance).l.Open f := by
      rw [record_l]
      refine ⟨c.push t.l.now data, hafter, ?_⟩
      unfold FakeConn.push
      split <;> exact hcl
    have hmem' : f ∈ (t.record l' .advance).expiring := by
      change f ∈ (t.recordAdvance l').expiring
      rw [(recordAdvance_closes t l').1]
      exact hmem
    obtain ⟨t'', hstep, hclose⟩ := expire_next h' hmem' hopen
    refine ⟨t'', hstep, _, hclose, fun hbad => ?_⟩
    obtain ⟨-, tp, htp, hlt⟩ := hbad
    rw [pushedAt_accepted hl' hacc, lookup_cons_if, if_pos rfl] at htp
    cases htp
    rw [record_l, hnow] at hlt
    exact Nat.not_lt.2 (Nat.le_add_right _ _) hlt
  · cases heq

/-- A step that is not careful lets the cleaner close what is not idle. -/
theorem race (h : Times t) (hs : t.step e = some t') (hc : ¬ t.Careful e) :
    ∃ f t'', t'.step (.expire f) = some t'' ∧ ∃ c ∈ t''.closes, ¬ c.Idle := by
  unfold Timed.Careful at hc
  split at hc
  · push Not at hc
    obtain ⟨x, hx, hun⟩ := hc
    exact ⟨x.2, race_unpushed h hs (List.mem_map_of_mem hx) hun⟩
  · push Not at hc
    obtain ⟨f, hf, hacc, c, hget, hcl⟩ := hc
    exact ⟨f, race_collected h hs hacc hf ⟨c, hget, by simpa using hcl⟩⟩
  · exact absurd trivial hc

/-- **Expiry closes idle connections**, in every run in which no expiry sweep falls between the
insert of a `FakeConn` and its first `Push`, and no `Push` is accepted between the collection of a
`FakeConn` and its close. After any step that is not so, the cleaner's next step can close one that
is not idle. -/
theorem expiry_closes_idle (t : Timed) :
    (t.CarefullyReachable → ∀ c ∈ t.closes, c.Idle) ∧
      (t.Reachable → ∀ e t', t.step e = some t' → ¬ t.Careful e →
        ∃ f t'', t'.step (.expire f) = some t'' ∧ ∃ c ∈ t''.closes, ¬ c.Idle) :=
  ⟨fun h => (quiet_of_careful h).closes, fun h _ _ hs hc => race (times_of_reachable h) hs hc⟩

end

/-- The first message of a peer, up to the insert of its `FakeConn`. -/
def insertFirst : List TimedEvent :=
  [.step (.recv [1] peerA), .step .advance, .step .advance, .step .advance, .step .advance]

/-- A `FakeConn` that is idle for a minute after its first `Push` is closed. -/
theorem expiry_closes_idle_minute : ∃ t, exec Timed.stepCarefully (insertFirst ++
      [.step .advance, .step (.expireSweep fun _ => 61 * second), .expire 0]) (Timed.new 0) =
        some t ∧
    t.closes = [⟨0, 61 * second, some 0, some 0⟩] ∧ ∀ c ∈ t.closes, c.Idle := by
  have hrun : (exec Timed.stepCarefully (insertFirst ++ [.step .advance,
      .step (.expireSweep fun _ => 61 * second), .expire 0]) (Timed.new 0)).map (·.closes) =
      some [⟨0, 61 * second, some 0, some 0⟩] := by decide +kernel
  obtain ⟨t, ht, hcloses⟩ := Option.map_eq_some_iff.1 hrun
  have hreach : t.CarefullyReachable := Reach.exec (fun _ _ _ h => h) (.init ⟨0, rfl⟩) ht
  exact ⟨t, ht, hcloses, (expiry_closes_idle t).1 hreach⟩

/-- **Two closes that are wrong.** A sweep right after the insert of a `FakeConn` closes it, before
its first `Push`. A `FakeConn` that was idle for a minute is collected, accepts a `Push`, and is
closed at the time of that `Push`. -/
theorem expiry_closes_busy :
    (∃ t, exec Timed.step (insertFirst ++ [.step (.expireSweep fun _ => 0), .expire 0])
        (Timed.new 0) = some t ∧ t.closes = [⟨0, 0, some 0, none⟩]) ∧
      (∃ t, exec Timed.step (insertFirst ++ [.step .advance,
          .step (.expireSweep fun _ => 61 * second), .step (.recv [2] peerA), .step .advance,
          .step .advance, .expire 0]) (Timed.new 0) = some t ∧
        t.closes = [⟨0, 61 * second, some 0, some (61 * second)⟩]) ∧
      ¬ ExpiryClose.Idle ⟨0, 0, some 0, none⟩ ∧
      ¬ ExpiryClose.Idle ⟨0, 61 * second, some 0, some (61 * second)⟩ := by
  refine ⟨?_, ?_, ?_, ?_⟩
  · exact Option.map_eq_some_iff.1 (by decide +kernel)
  · exact Option.map_eq_some_iff.1 (by decide +kernel)
  · rintro ⟨-, tp, htp, -⟩
    cases htp
  · rintro ⟨-, tp, htp, hlt⟩
    cases htp
    exact absurd hlt (by decide)

end Faketcp
