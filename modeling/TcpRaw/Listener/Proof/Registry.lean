import TcpRaw.Listener.Proof.Step

/-!
# One open connection per peer

`connMap` is keyed by address, and so are its deletions; that a deletion for one `FakeConn` never
hits another's entry rests on `Registry`: a `FakeConn` that was inserted and is open, or whose
deletion is still to come, is the entry at its key; while the accept loop holds one that is not
inserted yet, there is no entry at its key; and each `FakeConn` is closed once, so its deletion
comes once.
-/

namespace Faketcp

open GoRt Common Trans

/-- `f` is not closed. -/
def Listener.Open (l : Listener) (f : Nat) : Prop := ∃ c, l.conns[f]? = some c ∧ c.closed = false

/-- The deletion of `f` is still to come. -/
def Listener.Pending (l : Listener) (f : Nat) : Prop := f ∈ l.closing ∨ f ∈ l.delayMap

/-- While the accept loop holds a `FakeConn` to insert, there is no entry at its key. -/
def LoopOk (l : Listener) : Loop → Prop
  | .create _ src => l.connMap.lookup src.key = none
  | .send _ src f => l.connMap.lookup src.key = none ∧ l.key f = some src.key
  | .insert _ src f => l.connMap.lookup src.key = none ∧ l.key f = some src.key ∧ f ∈ l.sent
  | _ => True

theorem LoopOk.mono {l l' : Listener} {lp : Loop} (h : LoopOk l lp)
    (hnone : ∀ k, l.connMap.lookup k = none → l'.connMap.lookup k = none)
    (hkey : ∀ f k, l.key f = some k → l'.key f = some k) (hsent : ∀ f ∈ l.sent, f ∈ l'.sent) :
    LoopOk l' lp := by
  cases lp with
  | create data src => exact hnone _ h
  | send data src f => exact ⟨hnone _ h.1, hkey f _ h.2⟩
  | insert data src f => exact ⟨hnone _ h.1, hkey f _ h.2.1, hsent f h.2.2⟩
  | read => trivial
  | lookup data src => trivial
  | push data f => trivial

/-- The invariant of a listener (module doc). -/
structure Registry (l : Listener) : Prop where
  entry : ∀ k f, l.connMap.lookup k = some f → l.key f = some k ∧ f ∈ l.inserted
  live : ∀ f k, f ∈ l.inserted → l.key f = some k → l.Open f ∨ l.Pending f →
    l.connMap.lookup k = some f
  loop : LoopOk l l.loop
  sent : ∀ f ∈ l.sent, f ∈ l.inserted ∨ ∃ data src, l.loop = .insert data src f
  valid : ∀ f ∈ l.sent, f < l.conns.length
  pending : ∀ f, l.Pending f → f ∈ l.sent ∧ ¬ l.Open f
  closing : ∀ f ∈ l.closing, f ∉ l.delayMap
  inserted : ∀ f ∈ l.inserted, f ∈ l.sent
  accepted : ∀ f ∈ l.accepted, f ∈ l.sent
  connChan : ∀ f ∈ l.connChan, f ∈ l.sent
  targets : ∀ f ∈ l.targets, f ∈ l.sent

section
variable {l : Listener}

theorem key_isSome {f : Nat} (h : f < l.conns.length) : ∃ k, l.key f = some k :=
  ⟨_, by rw [Listener.key, List.getElem?_eq_getElem h]; rfl⟩

/-- What may happen to the `FakeConn`s of a listener while the maps stay as they are. -/
structure SameConns (l l' : Listener) : Prop where
  key : ∀ f, l'.key f = l.key f
  opened : ∀ f, l'.Open f ↔ l.Open f
  length : l'.conns.length = l.conns.length

theorem sameConns_modify (f : Nat) {g : FakeConn → FakeConn} (haddr : ∀ c, (g c).addr = c.addr)
    (hclosed : ∀ c, (g c).closed = c.closed) :
    SameConns l { l with conns := l.conns.modify f g } := by
  have hget : ∀ i, (l.conns.modify f g)[i]? =
      if f = i then (l.conns[i]?).map g else l.conns[i]? := by
    intro i
    rw [List.getElem?_modify]
    split <;> simp
  refine ⟨fun i => ?_, fun i => ?_, List.length_modify ..⟩
  · simp only [Listener.key, hget]
    split
    · rw [Option.map_map]
      congr 1
      funext c
      simp [haddr]
    · rfl
  · simp only [Listener.Open, hget]
    split
    · constructor
      · rintro ⟨c, hc, hcl⟩
        obtain ⟨c', hc', rfl⟩ := Option.map_eq_some_iff.1 hc
        exact ⟨c', hc', by rwa [hclosed] at hcl⟩
      · rintro ⟨c, hc, hcl⟩
        exact ⟨g c, by rw [hc]; rfl, by rwa [hclosed]⟩
    · rfl

/-! ## Steps that keep the maps -/

theorem Registry.frame (h : Registry l) {targets : List Nat} (ht : ∀ f ∈ targets, f ∈ l.sent)
    (now : Time) (cancelled cleanerDone : Bool) :
    Registry { l with now, targets, cancelled, cleanerDone } :=
  ⟨h.entry, h.live, h.loop, h.sent, h.valid, h.pending, h.closing, h.inserted, h.accepted,
    h.connChan, ht⟩

theorem Registry.sameConns (h : Registry l) {conns : List FakeConn}
    (hs : SameConns l { l with conns }) : Registry { l with conns } := by
  refine ⟨fun k f hk => ?_, fun f k hf hk ho => ?_, ?_, h.sent, fun f hf => ?_, fun f hp => ?_,
    h.closing, h.inserted, h.accepted, h.connChan, h.targets⟩
  · rw [hs.key]
    exact h.entry k f hk
  · rw [hs.key] at hk
    exact h.live f k hf hk (ho.imp_left (hs.opened f).1)
  · exact h.loop.mono (fun k hk => hk) (fun f k hk => (hs.key f).trans hk) fun f hf => hf
  · rw [hs.length]
    exact h.valid f hf
  · obtain ⟨hsent, hno⟩ := h.pending f hp
    exact ⟨hsent, fun ho => hno ((hs.opened f).1 ho)⟩

/-- The accept loop goes on, with no `FakeConn` to insert before. -/
theorem Registry.setLoop (h : Registry l) {lp : Loop} (hlp : LoopOk l lp)
    (hno : ∀ data src f, l.loop ≠ .insert data src f) : Registry { l with loop := lp } := by
  refine ⟨h.entry, h.live, hlp, fun f hf => ?_, h.valid, h.pending, h.closing, h.inserted,
    h.accepted, h.connChan, h.targets⟩
  rcases h.sent f hf with hf | ⟨data, src, he⟩
  · exact .inl hf
  · exact absurd he (hno data src f)

theorem registry_create (h : Registry l) {data : Bytes} {src : Peer}
    (hloop : l.loop = .create data src) :
    Registry { l with conns := l.conns ++ [newFakeConn src],
                      loop := .send data src l.conns.length } := by
  have hget : ∀ f, f < l.conns.length → (l.conns ++ [newFakeConn src])[f]? = l.conns[f]? :=
    fun f hf => List.getElem?_append_left hf
  have hkey : ∀ f, f ∈ l.sent →
      Listener.key { l with conns := l.conns ++ [newFakeConn src] } f = l.key f := fun f hf => by
    simp only [Listener.key, hget f (h.valid f hf)]
  have hopen : ∀ f, f ∈ l.sent →
      (Listener.Open { l with conns := l.conns ++ [newFakeConn src] } f ↔ l.Open f) :=
    fun f hf => by simp only [Listener.Open, hget f (h.valid f hf)]
  refine ⟨fun k f hk => ?_, fun f k hf hk ho => ?_, ⟨?_, ?_⟩, fun f hf => ?_, fun f hf => ?_,
    fun f hp => ?_, h.closing, h.inserted, h.accepted, h.connChan, h.targets⟩
  · obtain ⟨hk, hf⟩ := h.entry k f hk
    exact ⟨(hkey f (h.inserted f hf)).trans hk, hf⟩
  · have hsent := h.inserted f hf
    exact h.live f k hf ((hkey f hsent).symm.trans hk) (ho.imp_left (hopen f hsent).1)
  · have hl := h.loop
    rw [hloop] at hl
    exact hl
  · simp [Listener.key, newFakeConn]
  · rcases h.sent f hf with hf | ⟨data', src', he⟩
    · exact .inl hf
    · rw [hloop] at he
      cases he
  · rw [List.length_append]
    exact Nat.lt_add_right _ (h.valid f hf)
  · obtain ⟨hsent, hno⟩ := h.pending f hp
    exact ⟨hsent, fun ho => hno ((hopen f hsent).1 ho)⟩

theorem registry_send (h : Registry l) {data : Bytes} {src : Peer} {f : Nat}
    (hloop : l.loop = .send data src f) :
    Registry { l with connChan := l.connChan ++ [f], sent := f :: l.sent,
                      loop := .insert data src f } := by
  have hl := h.loop
  rw [hloop] at hl
  refine ⟨h.entry, h.live, ⟨hl.1, hl.2, List.mem_cons_self⟩, fun g hg => ?_, fun g hg => ?_,
    fun g hp => ?_, h.closing, fun g hg => List.mem_cons_of_mem _ (h.inserted g hg),
    fun g hg => List.mem_cons_of_mem _ (h.accepted g hg), fun g hg => ?_,
    fun g hg => List.mem_cons_of_mem _ (h.targets g hg)⟩
  · rcases List.mem_cons.1 hg with rfl | hg
    · exact .inr ⟨data, src, rfl⟩
    · rcases h.sent g hg with hg | ⟨data', src', he⟩
      · exact .inl hg
      · rw [hloop] at he
        cases he
  · rcases List.mem_cons.1 hg with rfl | hg
    · obtain ⟨c, hc, -⟩ := Option.map_eq_some_iff.1 hl.2
      exact (List.getElem?_eq_some_iff.1 hc).1
    · exact h.valid g hg
  · obtain ⟨hsent, hno⟩ := h.pending g hp
    exact ⟨List.mem_cons_of_mem _ hsent, hno⟩
  · rcases List.mem_append.1 hg with hg | hg
    · exact List.mem_cons_of_mem _ (h.connChan g hg)
    · rw [List.mem_singleton.1 hg]
      exact List.mem_cons_self

theorem registry_insert (h : Registry l) {data : Bytes} {src : Peer} {f : Nat}
    (hloop : l.loop = .insert data src f) :
    Registry { l with connMap := l.connMap.insert src.key f, inserted := f :: l.inserted,
                      loop := .push data f } := by
  have hl := h.loop
  rw [hloop] at hl
  obtain ⟨hnone, hkey, hsent⟩ := hl
  refine ⟨fun k g hk => ?_, fun g k hg hk ho => ?_, trivial, fun g hg => ?_, h.valid, h.pending,
    h.closing, fun g hg => ?_, h.accepted, h.connChan, h.targets⟩
  · rw [GoMap.lookup_insert_of] at hk
    split at hk
    · rename_i he
      cases hk
      exact ⟨he ▸ hkey, List.mem_cons_self⟩
    · obtain ⟨hk, hg⟩ := h.entry k g hk
      exact ⟨hk, List.mem_cons_of_mem _ hg⟩
  · rw [GoMap.lookup_insert_of]
    rcases List.mem_cons.1 hg with rfl | hg
    · rw [if_pos (Option.some.inj (hk.symm.trans hkey))]
    · -- an open `FakeConn` that was inserted before has an entry, so its key is another
      have hlook := h.live g k hg hk ho
      rw [if_neg, hlook]
      rintro rfl
      rw [hnone] at hlook
      cases hlook
  · rcases h.sent g hg with hg | ⟨data', src', he⟩
    · exact .inl (List.mem_cons_of_mem _ hg)
    · rw [hloop] at he
      cases he
      exact .inl List.mem_cons_self
  · rcases List.mem_cons.1 hg with rfl | hg
    · exact hsent
    · exact h.inserted g hg

/-! ## Closing -/

theorem registry_close (h : Registry l) {f : Nat} (hf : f ∈ l.sent) {kind : CloseKind}
    {l' : Listener} (hs : CloseStep l f kind l') : Registry l' := by
  cases hs with
  | already => exact h
  | @marks c hc hcl =>
    have hopenf : l.Open f := ⟨c, hc, hcl⟩
    have hlt := (List.getElem?_eq_some_iff.1 hc).1
    have hkey : ∀ g, Listener.key { l with conns := l.conns.set f { c with closed := true } } g =
        l.key g := by
      intro g
      by_cases hg : g = f
      · subst hg
        simp [Listener.key, List.getElem?_set_self hlt, hc]
      · simp [Listener.key, List.getElem?_set_ne (Ne.symm hg)]
    have hopen : ∀ g, Listener.Open { l with conns := l.conns.set f { c with closed := true } } g →
        g ≠ f ∧ l.Open g := by
      rintro g ⟨c', hc', hcl'⟩
      by_cases hg : g = f
      · subst hg
        rw [List.getElem?_set_self hlt] at hc'
        cases hc'
        cases hcl'
      · rw [List.getElem?_set_ne (Ne.symm hg)] at hc'
        exact ⟨hg, c', hc', hcl'⟩
    refine ⟨fun k g hk => ?_, fun g k hg hk ho => ?_, ?_, h.sent, fun g hg => ?_, fun g hp => ?_,
      fun g hg => ?_, h.inserted, h.accepted, h.connChan, h.targets⟩
    · exact ⟨(hkey g).trans (h.entry k g hk).1, (h.entry k g hk).2⟩
    · refine h.live g k hg ((hkey g).symm.trans hk) ?_
      rcases ho with ho | ho | ho
      · exact .inl (hopen g ho).2
      · rcases (AList.mem_insert _).1 ho with rfl | ho
        · exact .inl hopenf
        · exact .inr (.inl ho)
      · exact .inr (.inr ho)
    · exact h.loop.mono (fun k hk => hk) (fun g k hk => (hkey g).trans hk) fun g hg => hg
    · rw [List.length_set]
      exact h.valid g hg
    · have hold : g = f ∨ l.Pending g := by
        rcases hp with hp | hp
        · exact ((AList.mem_insert _).1 hp).imp_right .inl
        · exact .inr (.inr hp)
      rcases hold with rfl | hold
      · exact ⟨hf, fun ho => (hopen _ ho).1 rfl⟩
      · exact ⟨(h.pending g hold).1, fun ho => (h.pending g hold).2 (hopen g ho).2⟩
    · rcases (AList.mem_insert _).1 hg with rfl | hg
      · exact fun hd => (h.pending _ (.inr hd)).2 hopenf
      · exact h.closing g hg

/-- **A deletion by key hits its own entry**: the entry at the key of a `FakeConn` whose deletion is
to come is no other's. -/
theorem Registry.entry_of_pending (h : Registry l) {f g : Nat} {k : AddrKey} (hp : l.Pending f)
    (hk : l.key f = some k) (hlook : l.connMap.lookup k = some g) : g = f := by
  rcases h.sent f (h.pending f hp).1 with hf | ⟨data, src, he⟩
  · rw [h.live f k hf hk (.inr hp)] at hlook
    exact (Option.some.inj hlook).symm
  · -- closed by the application before its insertion: there is no entry yet
    have hl := h.loop
    rw [he] at hl
    obtain rfl : src.key = k := Option.some.inj (hl.2.1.symm.trans hk)
    rw [hl.1] at hlook
    cases hlook

theorem Registry.delete (h : Registry l) {fs : List Nat} {closing : GoMap Nat CloseKind}
    {delayMap : GoMap Nat Time} (hfs : ∀ f ∈ fs, l.Pending f ∧ f ∉ closing ∧ f ∉ delayMap)
    (hc : ∀ f ∈ closing, f ∈ l.closing) (hd : ∀ f ∈ delayMap, f ∈ l.delayMap) :
    Registry { l with connMap := GoMap.eraseAll l.connMap (fs.filterMap l.key),
                      closing, delayMap } := by
  have hpend : ∀ f, f ∈ closing ∨ f ∈ delayMap → l.Pending f := fun f => Or.imp (hc f) (hd f)
  have hnone : ∀ k, l.connMap.lookup k = none →
      (GoMap.eraseAll l.connMap (fs.filterMap l.key)).lookup k = none := by
    intro k hk
    rw [GoMap.lookup_eraseAll]
    split
    · rfl
    · exact hk
  refine ⟨fun k f hk => ?_, fun f k hf hk ho => ?_, ?_, h.sent, h.valid,
    fun f hp => h.pending f (hpend f hp), fun f hf hd' => h.closing f (hc f hf) (hd f hd'),
    h.inserted, h.accepted, h.connChan, h.targets⟩
  · rw [GoMap.lookup_eraseAll] at hk
    split at hk
    · cases hk
    · exact h.entry k f hk
  · have hlook := h.live f k hf hk (ho.imp_right (hpend f))
    rw [GoMap.lookup_eraseAll, if_neg, hlook]
    intro hmem
    obtain ⟨g, hg, hgk⟩ := List.mem_filterMap.1 hmem
    obtain ⟨hp, hgc, hgd⟩ := hfs g hg
    obtain rfl := h.entry_of_pending hp hgk hlook
    rcases ho with ho | ho | ho
    · exact (h.pending _ hp).2 ho
    · exact hgc ho
    · exact hgd ho
  · exact h.loop.mono hnone (fun f k hk => hk) fun f hf => hf

/-- A deletion is scheduled: it moves from `closing` to `delayMap`. -/
theorem Registry.delay (h : Registry l) {f : Nat} (hf : f ∈ l.closing) (t : Time) :
    Registry { l with delayMap := l.delayMap.insert f t, closing := l.closing.erase f } := by
  have hpend : ∀ g, g ∈ l.closing.erase f ∨ g ∈ l.delayMap.insert f t → l.Pending g := by
    rintro g (hg | hg)
    · exact .inl (AList.mem_erase.1 hg).2
    · rcases (AList.mem_insert _).1 hg with rfl | hg
      · exact .inl hf
      · exact .inr hg
  refine ⟨h.entry, fun g k hg hk ho => h.live g k hg hk (ho.imp_right (hpend g)), h.loop,
    h.sent, h.valid, fun g hp => h.pending g (hpend g hp), fun g hg hd => ?_, h.inserted,
    h.accepted, h.connChan, h.targets⟩
  obtain ⟨hne, hg⟩ := AList.mem_erase.1 hg
  rcases (AList.mem_insert _).1 hd with rfl | hd
  · exact hne rfl
  · exact h.closing g hg hd

theorem mem_of_lookup {α : Type} {m : GoMap Nat α} {f : Nat} {a : α} (h : m.lookup f = some a) :
    f ∈ m :=
  AList.lookup_isSome.1 (by rw [h]; rfl)

theorem mem_due {clock : Nat → Time} {f : Nat} (h : f ∈ l.due clock) : f ∈ l.delayMap := by
  obtain ⟨e, he, rfl⟩ := List.mem_map.1 h
  exact AList.mem_keys.2 (List.mem_map_of_mem (List.mem_filter.1 he).1)

/-! ## All steps -/

theorem registry_advance (h : Registry l) {l' : Listener} (hs : AdvanceStep l l') :
    Registry l' := by
  cases hs with
  | found hloop => exact h.setLoop trivial (by simp [hloop])
  | absent hloop hnone => exact h.setLoop hnone (by simp [hloop])
  | create hloop => exact registry_create h hloop
  | send hloop => exact registry_send h hloop
  | full hloop => exact h.setLoop trivial (by simp [hloop])
  | insert hloop => exact registry_insert h hloop
  | @push data f hloop =>
    have hpush : Registry { l with conns := l.conns.modify f (·.push l.now data) } := by
      refine h.sameConns (sameConns_modify f (fun c => ?_) fun c => ?_)
      · unfold FakeConn.push
        split <;> rfl
      · unfold FakeConn.push
        split <;> rfl
    exact hpush.setLoop trivial (by simp [hloop])

theorem mem_targets_sweep (h : Registry l) {clock : Nat → Time} {f : Nat}
    (hf : f ∈ l.idle clock) : f ∈ l.sent := by
  obtain ⟨e, he, rfl⟩ := List.mem_map.1 (List.mem_filter.1 hf).1
  exact h.inserted _ (h.entry e.1 e.2 (AList.mem_lookup_iff.2 he)).2

/-- **One step keeps the invariant.** -/
theorem registry_step (h : Registry l) {e : Event} {l' : Listener} (hs : l.step e = some l') :
    Registry l' := by
  cases listenerStep hs with
  | tick => exact h.frame h.targets _ _ _
  | recv hloop => exact h.setLoop trivial (by simp [hloop])
  | advance ha => exact registry_advance h ha
  | @accept f connChan hch =>
    refine ⟨h.entry, h.live, h.loop, h.sent, h.valid, h.pending, h.closing, h.inserted,
      fun g hg => ?_, fun g hg => h.connChan g (by rw [hch]; exact List.mem_cons_of_mem _ hg),
      h.targets⟩
    rcases List.mem_cons.1 hg with rfl | hg
    · exact h.connChan _ (by rw [hch]; exact List.mem_cons_self)
    · exact h.accepted g hg
  | @take f => exact h.sameConns (sameConns_modify f (fun _ => rfl) fun _ => rfl)
  | close hf hc => exact registry_close h (h.accepted _ hf) hc
  | @closeTarget f _ hf hc =>
    have hrest : Registry { l with targets := l.targets.erase f } :=
      h.frame (fun g hg => h.targets g (List.mem_of_mem_erase hg)) _ _ _
    exact registry_close hrest (h.targets f hf) hc
  | delete hk =>
    have hf := mem_of_lookup hk
    refine h.delete (fun g hg => ?_) (fun g hg => (AList.mem_erase.1 hg).2) fun g hg => hg
    obtain rfl := List.mem_singleton.1 hg
    exact ⟨.inl hf, fun hg => (AList.mem_erase.1 hg).1 rfl, h.closing _ hf⟩
  | delay hk => exact h.delay (mem_of_lookup hk) _
  | @delaySweep clock =>
    have hdel : Registry { l with
        connMap := GoMap.eraseAll l.connMap ((l.due clock).filterMap l.key)
        closing := l.closing
        delayMap := GoMap.eraseAll l.delayMap (l.due clock) } :=
      h.delete (fun f hf => ⟨.inr (mem_due hf), fun hc => h.closing f hc (mem_due hf),
          fun hd => (GoMap.mem_eraseAll.1 hd).2 hf⟩)
        (fun f hf => hf) fun f hf => (GoMap.mem_eraseAll.1 hf).1
    exact hdel.frame hdel.targets _ _ _
  | expireSweep =>
    refine h.frame (fun f hf => ?_) _ _ _
    rcases List.mem_append.1 hf with hf | hf
    · exact h.targets f hf
    · exact mem_targets_sweep h hf
  | @fetch k f hlook =>
    refine h.frame (fun g hg => ?_) _ _ _
    rcases List.mem_append.1 hg with hg | hg
    · exact h.targets g hg
    · rw [List.mem_singleton.1 hg]
      exact h.inserted f (h.entry k f hlook).2
  | cancel => exact h.frame h.targets _ _ _
  | cleanerExit => exact h.frame h.targets _ _ _

theorem registry_new (now : Time) : Registry (Listener.new now) where
  entry _ _ h := by cases h
  live _ _ h := by cases h
  loop := trivial
  sent _ h := by cases h
  valid _ h := by cases h
  pending _ h := by rcases h with h | h <;> exact absurd h (AList.notMem_empty _)
  closing _ h := absurd h (AList.notMem_empty _)
  inserted _ h := by cases h
  accepted _ h := by cases h
  connChan _ h := by cases h
  targets _ h := by cases h

/-- **Every reachable state meets the invariant.** -/
theorem registry_of_reachable (hl : l.Reachable) : Registry l := by
  refine hl.invariant (fun l hl => ?_) fun l e l' h hs => registry_step h hs
  obtain ⟨now, rfl⟩ := hl
  exact registry_new now

theorem reachable_exec {now : Time} {es : List Event}
    (h : exec Listener.step es (Listener.new now) = some l) : l.Reachable :=
  Reach.exec (fun _ _ _ h => h) (.init ⟨now, rfl⟩) h

/-! ## What a step does to `connMap` -/

theorem CloseStep.connMap {f : Nat} {kind : CloseKind} {l' : Listener}
    (hs : CloseStep l f kind l') : l'.connMap = l.connMap := by
  cases hs <;> rfl

/-- A step inserts what the accept loop holds, or carries out its deletions. -/
theorem connMap_step {e : Event} {l' : Listener} (hs : l.step e = some l') :
    l'.connMap = GoMap.eraseAll l.connMap ((l.deletions e).filterMap l.key) ∨
      ∃ data src f, l.loop = .insert data src f ∧ l'.connMap = l.connMap.insert src.key f := by
  cases listenerStep hs with
  | advance ha =>
    cases ha with
    | insert hloop => exact .inr ⟨_, _, _, hloop, rfl⟩
    | _ => exact .inl rfl
  | close _ hc => exact .inl hc.connMap
  | closeTarget _ hc => exact .inl hc.connMap
  | delete hk =>
    left
    rw [Listener.deletions, hk]
  | delay hk =>
    left
    rw [Listener.deletions, hk]
    rfl
  | _ => exact .inl rfl

theorem pending_of_deletions {e : Event} {f : Nat} (h : f ∈ l.deletions e) : l.Pending f := by
  unfold Listener.deletions at h
  split at h
  · split at h
    · rename_i hk
      obtain rfl := List.mem_singleton.1 h
      exact .inl (mem_of_lookup hk)
    · cases h
  · exact .inr (mem_due h)
  · cases h

/-- **An entry that a step removes belongs to the `FakeConn` that it deletes.** -/
theorem Registry.removed (h : Registry l) {e : Event} {l' : Listener} (hs : l.step e = some l')
    {k : AddrKey} {g : Nat} (hg : l.connMap.lookup k = some g) (hg' : l'.connMap.lookup k ≠ some g)
    (f : Nat) : f ∈ l.deletions e ∧ l.key f = some k ↔ f = g := by
  rcases connMap_step hs with he | ⟨data, src, f', hloop, he⟩
  · rw [he, GoMap.lookup_eraseAll] at hg'
    have hmem : k ∈ (l.deletions e).filterMap l.key := by
      by_contra hno
      exact hg' (by rw [if_neg hno, hg])
    obtain ⟨f0, hf0, hk0⟩ := List.mem_filterMap.1 hmem
    obtain rfl := h.entry_of_pending (pending_of_deletions hf0) hk0 hg
    constructor
    · rintro ⟨hf, hk⟩
      exact (h.entry_of_pending (pending_of_deletions hf) hk hg).symm
    · rintro rfl
      exact ⟨hf0, hk0⟩
  · -- an insertion: its key had no entry
    have hl := h.loop
    rw [hloop] at hl
    rw [he, GoMap.lookup_insert_of] at hg'
    split at hg'
    · rename_i hk
      rw [hk, hl.1] at hg
      cases hg
    · exact absurd hg hg'

theorem Registry.unique (h : Registry l) {f g : Nat} (hf : f ∈ l.sent) (hg : g ∈ l.sent)
    (hfo : l.Open f) (hgo : l.Open g) (hkey : l.key f = l.key g) : f = g := by
  obtain ⟨k, hk⟩ := key_isSome (h.valid f hf)
  have hloop := h.loop
  rcases h.sent f hf with hfi | ⟨data, src, he⟩
  · have hlf := h.live f k hfi hk (.inl hfo)
    rcases h.sent g hg with hgi | ⟨data, src, he⟩
    · have hlg := h.live g k hgi (hkey ▸ hk) (.inl hgo)
      rw [hlf] at hlg
      exact Option.some.inj hlg
    · rw [he] at hloop
      obtain rfl : src.key = k := Option.some.inj (hloop.2.1.symm.trans (hkey ▸ hk))
      rw [hloop.1] at hlf
      cases hlf
  · rw [he] at hloop
    rcases h.sent g hg with hgi | ⟨data', src', he'⟩
    · have hlg := h.live g src.key hgi (hkey ▸ hloop.2.1) (.inl hgo)
      rw [hloop.1] at hlg
      cases hlg
    · rw [he] at he'
      cases he'
      rfl

/-- No two open `FakeConn`s that were sent on `connChan` have the same key, every open one that was
inserted is the entry at its key, and an entry that a step removes belongs to the `FakeConn` that
the step deletes. -/
structure OneOpenPerPeer (l : Listener) : Prop where
  unique : ∀ f ∈ l.sent, ∀ g ∈ l.sent, l.Open f → l.Open g → l.key f = l.key g → f = g
  entry : ∀ f ∈ l.inserted, l.Open f → ∀ k, l.key f = some k → l.connMap.lookup k = some f
  removed : ∀ e l', l.step e = some l' → ∀ k g, l.connMap.lookup k = some g →
    l'.connMap.lookup k ≠ some g → ∀ f, f ∈ l.deletions e ∧ l.key f = some k ↔ f = g

/-- **At most one open connection per peer**, in every reachable state. -/
theorem one_open_per_peer (hl : l.Reachable) : OneOpenPerPeer l := by
  have h := registry_of_reachable hl
  exact ⟨fun f hf g hg hfo hgo => h.unique hf hg hfo hgo,
    fun f hf hfo k hk => h.live f k hf hk (.inl hfo),
    fun e l' hs k g hg hg' f => h.removed hs hg hg' f⟩

end

/-- The peer 10.0.0.1:4000. -/
def peerA : Peer := ⟨.tcp [10, 0, 0, 1] 4000, ⟨0x0a000001, 4000⟩, by decide⟩

/-- A message makes a `FakeConn`, which the application closes. -/
theorem one_open_per_peer_closed :
    ∃ l, exec Listener.step [.recv [1] peerA, .advance, .advance, .advance, .advance, .advance,
        .accept, .close 0, .finish 0] (Listener.new 0) = some l ∧
      l.sent = [0] ∧ l.inserted = [0] ∧ OneOpenPerPeer l := by
  have hrun : (exec Listener.step [.recv [1] peerA, .advance, .advance, .advance, .advance,
      .advance, .accept, .close 0, .finish 0] (Listener.new 0)).map
      (fun l => (l.sent, l.inserted)) = some ([0], [0]) := by decide +kernel
  obtain ⟨l, hl, hrun⟩ := Option.map_eq_some_iff.1 hrun
  obtain ⟨hsent, hins⟩ := Prod.mk.inj hrun
  exact ⟨l, hl, hsent, hins, one_open_per_peer (reachable_exec hl)⟩

end Faketcp
