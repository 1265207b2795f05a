import TcpRaw.Listener.History
import TcpRaw.Listener.Proof.Conns
import TcpRaw.Lib.Keyed

/-!
# Demultiplexing and conservation

Two invariants of a listener's history:

* `Account`, for each `FakeConn`: what entered its `recvch` is what the application received and
  what is still there, and `dropRxBytes` counts what `Push` refused (`account_step`).
* `Routed`: the accept loop holds the message that `ReadFromv2` returned last; each `Push` is for a
  message with the key of the `FakeConn`, in the order of the messages; a message that the loop is
  done with was offered, or found `connChan` full (`routed_step`).

`Registry` is what connects the entry that the loop looked up with the sender's key, and
`same_of_key` the key with the address.
-/

namespace Faketcp

open GoRt Common Trans Keyed

/-! ## The account of a `FakeConn` -/

/-- The data of the offers to `f` that entered its `recvch`. -/
def enteredData (offers : List Offer) (f : Nat) : List Bytes :=
  (enteredOf offers f).map (·.data)

/-- What one `FakeConn` received, holds and dropped. -/
structure Account (offers : List Offer) (taken : List (Nat × Bytes)) (f : Nat) (c : FakeConn) :
    Prop where
  bound : c.recvch.length ≤ recvchCap
  flow : enteredData offers f = takenOf taken f ++ c.recvch
  dropped : c.dropRxBytes = UInt64.ofNat (refusedOf offers f)

/-- `Push` puts the slice at the end of `recvch`. -/
def Offer.Stored (o : Offer) : Prop :=
  o.after.recvch = o.before.recvch ++ [o.data] ∧ o.after.dropRxBytes = o.before.dropRxBytes

/-- `recvch` is full, and `Push` adds the length of the slice to `dropRxBytes`. -/
def Offer.Refused (o : Offer) : Prop :=
  o.before.recvch.length = recvchCap ∧ o.after.recvch = o.before.recvch ∧
    o.after.dropRxBytes = o.before.dropRxBytes + UInt64.ofNat o.data.length

/-- All accounts, for offers to existing `FakeConn`s. -/
structure Accounts (conns : List FakeConn) (offers : List Offer) (taken : List (Nat × Bytes)) :
    Prop where
  account : ∀ f c, conns[f]? = some c → Account offers taken f c
  offers_lt : ∀ o ∈ offers, o.conn < conns.length
  taken_lt : ∀ x ∈ taken, x.1 < conns.length
  fate : ∀ o ∈ offers, o.Stored ∨ o.Refused

section
variable {conns : List FakeConn} {offers : List Offer} {taken : List (Nat × Bytes)}

theorem enteredData_concat (o : Offer) (f : Nat) : enteredData (offers ++ [o]) f =
    enteredData offers f ++ if o.conn = f ∧ o.entered = true then [o.data] else [] := by
  rw [enteredData, enteredOf, List.filter_append, List.map_append, enteredData, enteredOf]
  congr 1
  by_cases h : o.conn = f <;> cases he : o.entered <;> simp [h, he]

theorem refusedOf_concat (o : Offer) (f : Nat) : refusedOf (offers ++ [o]) f =
    refusedOf offers f + if o.conn = f ∧ o.entered = false then o.data.length else 0 := by
  rw [refusedOf, List.filter_append, List.map_append, List.sum_append, refusedOf]
  congr 1
  by_cases h : o.conn = f <;> cases he : o.entered <;> simp [h, he]

theorem takenOf_concat (x : Nat × Bytes) (f : Nat) :
    takenOf (taken ++ [x]) f = takenOf taken f ++ if x.1 = f then [x.2] else [] := by
  rw [takenOf, List.filter_append, List.map_append, takenOf]
  congr 1
  by_cases h : x.1 = f <;> simp [h]

/-- **One `Push`.** -/
theorem push_cases {c : FakeConn} (hc : c.recvch.length ≤ recvchCap) (now : Time) (msg f : Nat)
    (data : Bytes) :
    let o : Offer := ⟨msg, f, data, c, c.push now data⟩
    (o.Stored ∧ o.entered = true ∧ c.recvch.length < recvchCap) ∨
      (o.Refused ∧ o.entered = false) := by
  unfold FakeConn.push
  split
  · refine .inl ⟨⟨rfl, rfl⟩, ?_, by assumption⟩
    simp [Offer.entered]
  · refine .inr ⟨⟨by dsimp only; omega, rfl, rfl⟩, ?_⟩
    simp [Offer.entered]

theorem Account.push {f : Nat} {c : FakeConn} (h : Account offers taken f c) (now : Time)
    (msg : Nat) (data : Bytes) :
    Account (offers ++ [⟨msg, f, data, c, c.push now data⟩]) taken f (c.push now data) := by
  rcases push_cases h.bound now msg f data with ⟨⟨hq, hd⟩, he, hlt⟩ | ⟨⟨-, hq, hd⟩, he⟩
  · refine ⟨?_, ?_, ?_⟩
    · rw [show (c.push now data).recvch = c.recvch ++ [data] from hq, List.length_append,
        List.length_singleton]
      omega
    · rw [enteredData_concat, if_pos ⟨rfl, he⟩, h.flow, List.append_assoc]
      exact congrArg _ hq.symm
    · rw [refusedOf_concat, if_neg (by simp [he]), Nat.add_zero, ← h.dropped]
      exact hd
  · refine ⟨?_, ?_, ?_⟩
    · rw [show (c.push now data).recvch = c.recvch from hq]
      exact h.bound
    · rw [enteredData_concat, if_neg (by simp [he]), List.append_nil, h.flow]
      exact congrArg _ hq.symm
    · rw [refusedOf_concat, if_pos ⟨rfl, he⟩, UInt64.ofNat_add, ← h.dropped]
      exact hd

theorem Account.push_ne {f : Nat} {c : FakeConn} (h : Account offers taken f c) {o : Offer}
    (hne : o.conn ≠ f) : Account (offers ++ [o]) taken f c := by
  refine ⟨h.bound, ?_, ?_⟩
  · rw [enteredData_concat, if_neg (fun h => hne h.1), List.append_nil, h.flow]
  · rw [refusedOf_concat, if_neg (fun h => hne h.1), Nat.add_zero, h.dropped]

theorem Account.take {f : Nat} {c : FakeConn} (h : Account offers taken f c) {b : Bytes}
    {recvch : List Bytes} (hb : c.recvch = b :: recvch) :
    Account offers (taken ++ [(f, b)]) f { c with recvch } := by
  have hlen := h.bound
  rw [hb, List.length_cons] at hlen
  refine ⟨Nat.le_of_succ_le hlen, ?_, h.dropped⟩
  rw [takenOf_concat, if_pos rfl, h.flow, hb, List.append_assoc]
  rfl

theorem Account.take_ne {f g : Nat} {c : FakeConn} (h : Account offers taken f c) (b : Bytes)
    (hne : g ≠ f) : Account offers (taken ++ [(g, b)]) f c := by
  refine ⟨h.bound, ?_, h.dropped⟩
  rw [takenOf_concat, if_neg hne, List.append_nil, h.flow]

theorem Accounts.create (h : Accounts conns offers taken) (src : Peer) :
    Accounts (conns ++ [newFakeConn src]) offers taken := by
  have hlen : (conns ++ [newFakeConn src]).length = conns.length + 1 := by simp
  refine ⟨fun f c hc => ?_, fun o ho => ?_, fun x hx => ?_, h.fate⟩
  · rcases Nat.lt_or_ge f conns.length with hf | hf
    · rw [List.getElem?_append_left hf] at hc
      exact h.account f c hc
    · rw [List.getElem?_append_right hf, List.getElem?_singleton] at hc
      split at hc
      · cases hc
        have hoff : ∀ o ∈ offers, o.conn ≠ f := fun o ho => by
          have := h.offers_lt o ho
          omega
        have htak : ∀ x ∈ taken, x.1 ≠ f := fun x hx => by
          have := h.taken_lt x hx
          omega
        refine ⟨Nat.zero_le _, ?_, ?_⟩
        · rw [enteredData, enteredOf, takenOf, List.filter_eq_nil_iff.2 (fun o ho => by
            simp [hoff o ho]), List.filter_eq_nil_iff.2 (fun x hx => by simp [htak x hx])]
          rfl
        · rw [refusedOf, List.filter_eq_nil_iff.2 (fun o ho => by simp [hoff o ho])]
          rfl
      · cases hc
  · rw [hlen]
    exact Nat.lt_succ_of_lt (h.offers_lt o ho)
  · rw [hlen]
    exact Nat.lt_succ_of_lt (h.taken_lt x hx)

theorem Accounts.push (h : Accounts conns offers taken) {f : Nat} {c : FakeConn}
    (hc : conns[f]? = some c) (now : Time) (msg : Nat) (data : Bytes) :
    Accounts (conns.modify f (·.push now data)) (offers ++ [⟨msg, f, data, c, c.push now data⟩])
      taken := by
  refine ⟨fun g c' hc' => ?_, fun o ho => ?_, fun x hx => ?_, fun o ho => ?_⟩
  · rw [List.getElem?_modify] at hc'
    by_cases hg : f = g
    · subst hg
      rw [hc] at hc'
      simp only [if_true, Option.map_eq_map, Option.map_some, Option.some.injEq] at hc'
      subst hc'
      exact (h.account f c hc).push now msg data
    · simp only [hg, if_false, Option.map_eq_map, Option.map_id'] at hc'
      exact (h.account g c' hc').push_ne hg
  · rw [List.length_modify]
    rcases List.mem_append.1 ho with ho | ho
    · exact h.offers_lt o ho
    · rw [List.mem_singleton.1 ho]
      exact (List.getElem?_eq_some_iff.1 hc).1
  · rw [List.length_modify]
    exact h.taken_lt x hx
  · rcases List.mem_append.1 ho with ho | ho
    · exact h.fate o ho
    · rw [List.mem_singleton.1 ho]
      rcases push_cases (h.account f c hc).bound now msg f data with ⟨hst, -, -⟩ | ⟨hre, -⟩
      · exact .inl hst
      · exact .inr hre

theorem Accounts.take (h : Accounts conns offers taken) {f : Nat} {c : FakeConn} {b : Bytes}
    {recvch : List Bytes} (hc : conns[f]? = some c) (hb : c.recvch = b :: recvch) :
    Accounts (conns.modify f fun c => { c with recvch := c.recvch.tail }) offers
      (taken ++ [(f, b)]) := by
  refine ⟨fun g c' hc' => ?_, fun o ho => ?_, fun x hx => ?_, h.fate⟩
  · rw [List.getElem?_modify] at hc'
    by_cases hg : f = g
    · subst hg
      rw [hc] at hc'
      simp only [if_true, Option.map_eq_map, Option.map_some, Option.some.injEq, hb,
        List.tail_cons] at hc'
      subst hc'
      exact (h.account f c hc).take hb
    · simp only [hg, if_false, Option.map_eq_map, Option.map_id'] at hc'
      exact (h.account g c' hc').take_ne b hg
  · rw [List.length_modify]
    exact h.offers_lt o ho
  · rw [List.length_modify]
    rcases List.mem_append.1 hx with hx | hx
    · exact h.taken_lt x hx
    · rw [List.mem_singleton.1 hx]
      exact (List.getElem?_eq_some_iff.1 hc).1

/-- A change that keeps `recvch` and `dropRxBytes` of every `FakeConn`. -/
theorem Accounts.congr (h : Accounts conns offers taken) {conns' : List FakeConn}
    (he : conns'.map (fun c => (c.recvch, c.dropRxBytes)) =
      conns.map fun c => (c.recvch, c.dropRxBytes)) : Accounts conns' offers taken := by
  have hlen : conns'.length = conns.length := by simpa using congrArg List.length he
  refine ⟨fun f c hc => ?_, fun o ho => hlen ▸ h.offers_lt o ho, fun x hx => hlen ▸ h.taken_lt x hx,
    h.fate⟩
  have hf := congrArg (·[f]?) he
  simp only [List.getElem?_map, hc, Option.map_some] at hf
  obtain ⟨c0, hc0, heq⟩ := Option.map_eq_some_iff.1 hf.symm
  obtain ⟨hq, hd⟩ := Prod.mk.inj heq
  have hacc := h.account f c0 hc0
  exact ⟨hq ▸ hacc.bound, hq ▸ hacc.flow, hd ▸ hacc.dropped⟩

end

/-! ## The record of a step -/

section
variable {t t' : Traced} {e : Event}

theorem Traced.step_eq (hs : t.step e = some t') :
    e.SrcFits ∧ ∃ l', t.l.step e = some l' ∧ t' = t.record l' e := by
  unfold Traced.step at hs
  split at hs
  · rename_i hfit
    obtain ⟨l', hl', rfl⟩ := Option.map_eq_some_iff.1 hs
    exact ⟨hfit, l', hl', rfl⟩
  · cases hs

theorem record_keep (l' : Listener) (hpush : e = .advance → ∀ data f, t.l.loop ≠ .push data f)
    (htake : ∀ f, e ≠ .take f) :
    (t.record l' e).l = l' ∧ (t.record l' e).offers = t.offers ∧
      (t.record l' e).taken = t.taken := by
  cases e with
  | advance =>
    simp only [Traced.record, Traced.recordAdvance]
    split
    · rename_i data f hloop
      exact absurd hloop (hpush rfl data f)
    · split <;> exact ⟨rfl, rfl, rfl⟩
    · exact ⟨rfl, rfl, rfl⟩
  | take f => exact absurd rfl (htake f)
  | _ => exact ⟨rfl, rfl, rfl⟩

theorem record_push {l' : Listener} {data : Bytes} {f : Nat} {c c' : FakeConn}
    (hloop : t.l.loop = .push data f) (hc : t.l.conns[f]? = some c) (hc' : l'.conns[f]? = some c') :
    t.record l' .advance =
      { t with l := l', offers := t.offers ++ [⟨t.msgs.length - 1, f, data, c, c'⟩] } := by
  simp only [Traced.record, Traced.recordAdvance, hloop, hc, hc']

/-- **The accounts after a step.** -/
theorem account_step (h : Accounts t.l.conns t.offers t.taken)
    (hpush : ∀ data f, t.l.loop = .push data f → f < t.l.conns.length) (hs : t.step e = some t') :
    Accounts t'.l.conns t'.offers t'.taken := by
  obtain ⟨-, l', hl', rfl⟩ := Traced.step_eq hs
  have hstep := connsStep hl'
  generalize hcs : l'.conns = cs at hstep
  cases hstep with
  | keep hp ht =>
    obtain ⟨hl, ho, htk⟩ := record_keep l' hp ht
    rw [hl, ho, htk, hcs]
    exact h
  | create hloop =>
    obtain ⟨hl, ho, htk⟩ := record_keep (t := t) (e := .advance) l'
      (fun _ data f => by simp [hloop]) (by simp)
    rw [hl, ho, htk, hcs]
    exact h.create _
  | @push data f hloop =>
    obtain ⟨c, hc⟩ : ∃ c, t.l.conns[f]? = some c :=
      ⟨_, List.getElem?_eq_getElem (hpush data f hloop)⟩
    have hc' : l'.conns[f]? = some (c.push t.l.now data) := by
      rw [hcs, List.getElem?_modify, hc]
      simp
    rw [record_push hloop hc hc']
    dsimp only
    rw [hcs]
    exact h.push hc _ _ _
  | take f =>
    simp only [Traced.record]
    cases hc : t.l.conns[f]? with
    | none =>
      simp only [Option.bind_none]
      rw [hcs, List.modify_eq_self (List.getElem?_eq_none_iff.1 hc)]
      exact h
    | some c =>
      cases hb : c.recvch with
      | nil =>
        simp only [Option.bind_some, hb, List.head?_nil]
        rw [hcs]
        refine h.congr (map_modify_of fun c' hc' => ?_)
        rw [hc] at hc'
        cases hc'
        rw [hb, List.tail_nil]
      | cons b recvch =>
        simp only [Option.bind_some, hb, List.head?_cons]
        rw [hcs]
        exact h.take hc hb
  | @close e f c hc hadv ht =>
    obtain ⟨hl, ho, htk⟩ := record_keep (t := t) l' (fun h => absurd h hadv) ht
    rw [hl, ho, htk, hcs]
    exact h.congr (map_set_of hc rfl)

end

/-! ## Routing -/

/-- The number of messages that the accept loop is done with. -/
def Traced.handled (t : Traced) : Nat :=
  match t.l.loop with
  | .read => t.msgs.length
  | _ => t.msgs.length - 1

/-- What the accept loop holds is the last message, and a `FakeConn` that it will push to has the
sender's key. -/
def Traced.Holding (t : Traced) : Loop → Prop
  | .read => True
  | .lookup data src | .create data src | .send data src _ | .insert data src _ =>
    t.msgs.getLast? = some ⟨data, src⟩
  | .push data f => ∃ src, t.msgs.getLast? = some ⟨data, src⟩ ∧ t.l.key f = some src.key

/-- The invariant of a history (module doc). -/
structure Routed (t : Traced) : Prop where
  registry : Registry t.l
  msgs : ∀ m ∈ t.msgs, m.src.addr.PortFits
  conns : ∀ c ∈ t.l.conns, c.addr.addr.PortFits
  loop : t.Holding t.l.loop
  ordered : Ordered Offer.msg t.offers
  offered : ∀ o ∈ t.offers, o.msg < t.handled ∧
    ∃ m, t.msgs[o.msg]? = some m ∧ m.data = o.data ∧ t.l.key o.conn = some m.src.key
  handled : ∀ i < t.handled, (∃ o ∈ t.offers, o.msg = i) ∨ ∃ r ∈ t.rejections, r.msg = i
  room : t.l.connChan.length ≤ connChanCap
  full : ∀ r ∈ t.rejections, r.waiting = connChanCap

section
variable {t t' : Traced} {e : Event} {l' : Listener}

theorem Routed.conns_step (h : Routed t) (hs : t.l.step e = some l') :
    ∀ c ∈ l'.conns, c.addr.addr.PortFits := by
  intro c hc
  have hmem := List.mem_map_of_mem (f := (·.addr)) hc
  have hold : ∀ a ∈ t.l.conns.map (·.addr), a.addr.PortFits := by
    intro a ha
    obtain ⟨c, hc, rfl⟩ := List.mem_map.1 ha
    exact h.conns c hc
  rcases (connsStep hs).addrs with he | ⟨data, src, -, hloop, he⟩
  · exact hold _ (he ▸ hmem)
  · rw [he] at hmem
    rcases List.mem_append.1 hmem with hmem | hmem
    · exact hold _ hmem
    · have hl := h.loop
      rw [hloop] at hl
      have hsrc := h.msgs _ (List.mem_of_getLast? hl)
      rw [List.mem_singleton.1 hmem]
      exact hsrc

/-- A step that offers nothing and rejects nothing, and after which the loop is done with as many
messages as before. -/
theorem Routed.keep (h : Routed t) (hs : t.l.step e = some l') {msgs : List Message}
    {taken : List (Nat × Bytes)} (hmsgs : ∀ (i : Nat) m, t.msgs[i]? = some m → msgs[i]? = some m)
    (hfits : ∀ m ∈ msgs, m.src.addr.PortFits)
    (hloop : Traced.Holding ⟨l', msgs, t.offers, t.rejections, taken⟩ l'.loop)
    (hhandled : Traced.handled ⟨l', msgs, t.offers, t.rejections, taken⟩ = t.handled)
    (hroom : l'.connChan.length ≤ connChanCap) :
    Routed ⟨l', msgs, t.offers, t.rejections, taken⟩ where
  registry := registry_step h.registry hs
  msgs := hfits
  conns := h.conns_step hs
  loop := hloop
  ordered := h.ordered
  offered := by
    intro o ho
    obtain ⟨hlt, m, hm, hd, hk⟩ := h.offered o ho
    exact ⟨hhandled ▸ hlt, m, hmsgs _ _ hm, hd, key_step hs hk⟩
  handled := by
    rw [hhandled]
    exact h.handled
  room := hroom
  full := h.full

theorem Traced.handled_read (h : t.l.loop = .read) : t.handled = t.msgs.length := by
  simp only [Traced.handled, h]

theorem Traced.handled_busy (h : t.l.loop ≠ .read) : t.handled = t.msgs.length - 1 := by
  unfold Traced.handled
  split
  · exact absurd ‹_› h
  · rfl

/-- What was offered before is still so when the loop has put its message away. -/
theorem Routed.offered_settled (h : Routed t) (hs : t.l.step e = some l')
    (hbusy : t.l.loop ≠ .read) :
    ∀ o ∈ t.offers, o.msg < t.msgs.length ∧
      ∃ m, t.msgs[o.msg]? = some m ∧ m.data = o.data ∧ l'.key o.conn = some m.src.key := by
  intro o ho
  obtain ⟨hlt, m, hm, hd, hk⟩ := h.offered o ho
  rw [Traced.handled_busy hbusy] at hlt
  exact ⟨by omega, m, hm, hd, key_step hs hk⟩

theorem Routed.handled_settled (h : Routed t) (hbusy : t.l.loop ≠ .read) {offers : List Offer}
    {rejections : List Rejection} (hoffers : ∀ o ∈ t.offers, o ∈ offers)
    (hrejections : ∀ r ∈ t.rejections, r ∈ rejections)
    (hlast : (∃ o ∈ offers, o.msg = t.msgs.length - 1) ∨
      ∃ r ∈ rejections, r.msg = t.msgs.length - 1) :
    ∀ i < t.msgs.length, (∃ o ∈ offers, o.msg = i) ∨ ∃ r ∈ rejections, r.msg = i := by
  intro i hi
  have hold := Traced.handled_busy hbusy
  rcases (by omega : i < t.handled ∨ i = t.msgs.length - 1) with hi | rfl
  · rcases h.handled i hi with ⟨o, ho, hoi⟩ | ⟨r, hr, hri⟩
    · exact .inl ⟨o, hoffers o ho, hoi⟩
    · exact .inr ⟨r, hrejections r hr, hri⟩
  · exact hlast

theorem Routed.settle_offer (h : Routed t) (hs : t.l.step e = some l') (hread : l'.loop = .read)
    (hbusy : t.l.loop ≠ .read) (hroom : l'.connChan.length ≤ connChanCap) {o : Offer} {m : Message}
    (hmsg : o.msg = t.msgs.length - 1) (hlast : t.msgs.getLast? = some m) (hdata : m.data = o.data)
    (hkey : t.l.key o.conn = some m.src.key) :
    Routed ⟨l', t.msgs, t.offers ++ [o], t.rejections, t.taken⟩ := by
  have hm : t.msgs[o.msg]? = some m := by rw [hmsg, ← List.getLast?_eq_getElem?, hlast]
  have hnow : Traced.handled ⟨l', t.msgs, t.offers ++ [o], t.rejections, t.taken⟩ = t.msgs.length :=
    Traced.handled_read hread
  refine ⟨registry_step h.registry hs, h.msgs, h.conns_step hs, ?_, ?_, ?_, ?_, hroom, h.full⟩
  · rw [hread]
    trivial
  · refine List.pairwise_append.2 ⟨h.ordered, List.pairwise_singleton _ _, fun a ha b hb => ?_⟩
    have hlt := (h.offered a ha).1
    rw [Traced.handled_busy hbusy] at hlt
    rw [List.mem_singleton.1 hb, hmsg]
    exact hlt
  · intro o' ho'
    rw [hnow]
    rcases List.mem_append.1 ho' with ho' | ho'
    · exact h.offered_settled hs hbusy o' ho'
    · rw [List.mem_singleton.1 ho']
      exact ⟨(List.getElem?_eq_some_iff.1 hm).1, m, hm, hdata, key_step hs hkey⟩
  · rw [hnow]
    exact h.handled_settled hbusy (fun _ ho => List.mem_append_left _ ho) (fun _ hr => hr)
      (.inl ⟨o, List.mem_append_right _ (List.mem_singleton_self o), hmsg⟩)

theorem Routed.settle_reject (h : Routed t) (hs : t.l.step e = some l') (hread : l'.loop = .read)
    (hbusy : t.l.loop ≠ .read) (hroom : l'.connChan.length ≤ connChanCap) {r : Rejection}
    (hmsg : r.msg = t.msgs.length - 1) (hfull : r.waiting = connChanCap) :
    Routed ⟨l', t.msgs, t.offers, t.rejections ++ [r], t.taken⟩ := by
  have hnow : Traced.handled ⟨l', t.msgs, t.offers, t.rejections ++ [r], t.taken⟩ = t.msgs.length :=
    Traced.handled_read hread
  refine ⟨registry_step h.registry hs, h.msgs, h.conns_step hs, ?_, h.ordered, ?_, ?_, hroom,
    fun r' hr' => ?_⟩
  · rw [hread]
    trivial
  · rw [hnow]
    exact h.offered_settled hs hbusy
  · rw [hnow]
    exact h.handled_settled hbusy (fun _ ho => ho) (fun _ hr => List.mem_append_left _ hr)
      (.inr ⟨r, List.mem_append_right _ (List.mem_singleton_self r), hmsg⟩)
  · rcases List.mem_append.1 hr' with hr' | hr'
    · exact h.full r' hr'
    · rw [List.mem_singleton.1 hr']
      exact hfull

theorem others_step {l : Listener} (hs : l.step e = some l')
    (hrecv : ∀ data src, e ≠ .recv data src) (hadv : e ≠ .advance) :
    l'.loop = l.loop ∧ l'.connChan.length ≤ l.connChan.length := by
  cases listenerStep hs with
  | recv => exact absurd rfl (hrecv _ _)
  | advance => exact absurd rfl hadv
  | accept hch => exact ⟨rfl, by rw [hch]; exact Nat.le_succ _⟩
  | close _ hc => cases hc <;> exact ⟨rfl, Nat.le_refl _⟩
  | closeTarget _ hc => cases hc <;> exact ⟨rfl, Nat.le_refl _⟩
  | _ => exact ⟨rfl, Nat.le_refl _⟩

theorem Traced.Holding.mono {lp : Loop} (h : t.Holding lp) (hmsgs : t'.msgs = t.msgs)
    (hkey : ∀ f k, t.l.key f = some k → t'.l.key f = some k) : t'.Holding lp := by
  cases lp with
  | read => trivial
  | push data f =>
    obtain ⟨src, hlast, hk⟩ := h
    exact ⟨src, hmsgs ▸ hlast, hkey f _ hk⟩
  | lookup data src => exact (congrArg List.getLast? hmsgs).trans h
  | create data src => exact (congrArg List.getLast? hmsgs).trans h
  | send data src f => exact (congrArg List.getLast? hmsgs).trans h
  | insert data src f => exact (congrArg List.getLast? hmsgs).trans h

theorem record_others (l' : Listener) (hrecv : ∀ data src, e ≠ .recv data src)
    (hadv : e ≠ .advance) :
    ∃ taken, t.record l' e = ⟨l', t.msgs, t.offers, t.rejections, taken⟩ := by
  cases e with
  | recv data src => exact absurd rfl (hrecv data src)
  | advance => exact absurd rfl hadv
  | take f =>
    simp only [Traced.record]
    split <;> exact ⟨_, rfl⟩
  | _ => exact ⟨_, rfl⟩

/-- **One step of the accept loop.** -/
theorem routed_advance (h : Routed t) (hs : t.l.advance = some l') :
    Routed (t.record l' .advance) := by
  have hstep : t.l.step .advance = some l' := hs
  have hhold := h.loop
  have hroom := h.room
  cases advanceStep hs with
  | @found data src f hloop hlook =>
    rw [hloop] at hhold
    simp only [Traced.record, Traced.recordAdvance, hloop]
    refine h.keep hstep (fun _ _ hm => hm) h.msgs ⟨src, hhold, ?_⟩ ?_ hroom
    · exact (h.registry.entry _ _ hlook).1
    · simp only [Traced.handled, hloop]
  | absent hloop =>
    rw [hloop] at hhold
    simp only [Traced.record, Traced.recordAdvance, hloop]
    refine h.keep hstep (fun _ _ hm => hm) h.msgs hhold ?_ hroom
    simp only [Traced.handled, hloop]
  | create hloop =>
    rw [hloop] at hhold
    simp only [Traced.record, Traced.recordAdvance, hloop]
    refine h.keep hstep (fun _ _ hm => hm) h.msgs hhold ?_ hroom
    simp only [Traced.handled, hloop]
  | send hloop hlt =>
    rw [hloop] at hhold
    simp only [Traced.record, Traced.recordAdvance, hloop]
    rw [if_pos hlt]
    refine h.keep hstep (fun _ _ hm => hm) h.msgs hhold ?_ ?_
    · simp only [Traced.handled, hloop]
    · rw [List.length_append, List.length_singleton]
      omega
  | full hloop hge =>
    simp only [Traced.record, Traced.recordAdvance, hloop]
    rw [if_neg hge]
    refine h.settle_reject hstep rfl (by simp [hloop]) hroom rfl ?_
    dsimp only
    omega
  | @insert data src f hloop =>
    have hreg := h.registry.loop
    rw [hloop] at hhold hreg
    simp only [Traced.record, Traced.recordAdvance, hloop]
    refine h.keep hstep (fun _ _ hm => hm) h.msgs ⟨src, hhold, hreg.2.1⟩ ?_ hroom
    simp only [Traced.handled, hloop]
  | @push data f hloop =>
    rw [hloop] at hhold
    obtain ⟨src, hlast, hkey⟩ := hhold
    obtain ⟨c, hc, -⟩ := Option.map_eq_some_iff.1 hkey
    have hc' : (t.l.conns.modify f (·.push t.l.now data))[f]? = some (c.push t.l.now data) := by
      rw [List.getElem?_modify, hc]
      simp
    rw [record_push hloop hc hc']
    exact h.settle_offer hstep rfl (by simp [hloop]) hroom rfl hlast rfl hkey

/-- **The routing after a step.** -/
theorem routed_step (h : Routed t) (hs : t.step e = some t') : Routed t' := by
  obtain ⟨hfit, l', hl', rfl⟩ := Traced.step_eq hs
  by_cases hadv : e = .advance
  · subst hadv
    exact routed_advance h hl'
  by_cases hrecv : ∃ data src, e = .recv data src
  · obtain ⟨data, src, rfl⟩ := hrecv
    have hstep := hl'
    cases listenerStep hl' with
    | recv hloop =>
      refine h.keep hstep (fun i m hm => ?_) (fun m hm => ?_) ?_ ?_ h.room
      · rw [List.getElem?_append_left (List.getElem?_eq_some_iff.1 hm).1, hm]
      · rcases List.mem_append.1 hm with hm | hm
        · exact h.msgs m hm
        · rw [List.mem_singleton.1 hm]
          exact hfit
      · exact List.getLast?_concat
      · simp only [Traced.handled, hloop]
        simp
  · push Not at hrecv
    obtain ⟨hloop, hchan⟩ := others_step hl' hrecv hadv
    obtain ⟨taken, he⟩ := record_others (t := t) l' hrecv hadv
    rw [he]
    refine h.keep hl' (fun _ _ hm => hm) h.msgs ?_ ?_ (Nat.le_trans hchan h.room)
    · rw [hloop]
      exact h.loop.mono rfl fun f k hk => key_step hl' hk
    · simp only [Traced.handled, hloop]

end

/-! ## Every run -/

section
variable {t : Traced}

theorem routed_new (now : Time) : Routed (Traced.new now) where
  registry := registry_new now
  msgs _ h := by cases h
  conns _ h := by cases h
  loop := trivial
  ordered := List.Pairwise.nil
  offered _ h := by cases h
  handled _ h := by cases h
  room := Nat.zero_le _
  full _ h := by cases h

theorem accounts_new : Accounts [] [] [] where
  account _ _ h := by cases h
  offers_lt _ h := by cases h
  taken_lt _ h := by cases h
  fate _ h := by cases h

theorem history_of_reachable (ht : t.Reachable) :
    Routed t ∧ Accounts t.l.conns t.offers t.taken := by
  refine ht.invariant (I := fun t => Routed t ∧ Accounts t.l.conns t.offers t.taken)
    (fun t ht => ?_) fun t e t' h hs => ?_
  · obtain ⟨now, rfl⟩ := ht
    exact ⟨routed_new now, accounts_new⟩
  · refine ⟨routed_step h.1 hs, account_step h.2 (fun data f hloop => ?_) hs⟩
    have hl := h.1.loop
    rw [hloop] at hl
    obtain ⟨src, -, hk⟩ := hl
    obtain ⟨c, hc, -⟩ := Option.map_eq_some_iff.1 hk
    exact (List.getElem?_eq_some_iff.1 hc).1

/-- How far the accept loop is from its next read. -/
def Loop.rank : Loop → Nat
  | .read => 0
  | .push _ _ => 1
  | .insert _ _ _ => 2
  | .send _ _ _ => 3
  | .create _ _ => 4
  | .lookup _ _ => 5

theorem advance_rank {l : Listener} (h : l.loop ≠ .read) :
    ∃ l', l.advance = some l' ∧ l'.loop.rank < l.loop.rank := by
  unfold Listener.advance
  cases hloop : l.loop with
  | read => exact absurd hloop h
  | lookup data src =>
    dsimp only
    split
    · exact ⟨_, rfl, by show 1 < 5; omega⟩
    · exact ⟨_, rfl, by show 4 < 5; omega⟩
  | create data src => exact ⟨_, rfl, by show 3 < 4; omega⟩
  | send data src f =>
    dsimp only
    split
    · exact ⟨_, rfl, by show 2 < 3; omega⟩
    · exact ⟨_, rfl, by show 0 < 3; omega⟩
  | insert data src f => exact ⟨_, rfl, by show 1 < 2; omega⟩
  | push data f => exact ⟨_, rfl, by show 0 < 1; omega⟩

/-- The accept loop gets back to its read in at most five steps of its own. -/
theorem advance_to_read : ∀ (n : Nat) (t : Traced), t.l.loop.rank ≤ n →
    ∃ k t', k ≤ n ∧ exec Traced.step (List.replicate k .advance) t = some t' ∧ t'.l.loop = .read
  | 0, t, h => by
    refine ⟨0, t, Nat.le_refl _, rfl, ?_⟩
    unfold Loop.rank at h
    split at h <;> first | assumption | omega
  | n + 1, t, h => by
    by_cases hread : t.l.loop = .read
    · exact ⟨0, t, Nat.zero_le _, rfl, hread⟩
    obtain ⟨l', hl', hlt⟩ := advance_rank hread
    have hstep : t.step .advance = some (t.record l' .advance) := by
      rw [Traced.step, if_pos (show Event.SrcFits .advance from trivial),
        show t.l.step .advance = some l' from hl', Option.map_some]
    have hrec : (t.record l' .advance).l = l' := by
      simp only [Traced.record, Traced.recordAdvance]
      split
      · split <;> rfl
      · split <;> rfl
      · rfl
    obtain ⟨k, t', hk, hrun, hend⟩ := advance_to_read n (t.record l' .advance) (by
      rw [hrec]
      omega)
    refine ⟨k + 1, t', Nat.succ_le_succ hk, ?_, hend⟩
    rw [List.replicate_succ, exec, hstep, Option.bind_some, hrun]

/-- **What `f` received**: a subsequence of the messages from its address, with the data that went
to the application or is still in `recvch`. -/
theorem received_of (h : Routed t) (ha : Accounts t.l.conns t.offers t.taken) {f : Nat}
    {c : FakeConn} (hc : t.l.conns[f]? = some c) :
    (t.received f).Sublist (t.msgs.filter fun m => c.addr.addr.same m.src.addr) ∧
      (t.received f).map (·.data) = takenOf t.taken f ++ c.recvch := by
  have hmem : ∀ o ∈ enteredOf t.offers f, o ∈ t.offers ∧ o.conn = f := fun o ho => by
    obtain ⟨ho, hf⟩ := List.mem_filter.1 ho
    exact ⟨ho, (of_decide_eq_true hf).1⟩
  constructor
  · refine (h.ordered.sublist List.filter_sublist).filterMap_sublist fun o ho => ?_
    obtain ⟨hmem, hf⟩ := hmem o ho
    obtain ⟨-, m, hm, -, hk⟩ := h.offered o hmem
    rw [hf, Listener.key, hc] at hk
    exact ⟨m, hm, same_of_key (h.conns c (List.mem_of_getElem? hc))
      (h.msgs m (List.mem_of_getElem? hm)) (Option.some.inj hk)⟩
  · rw [← (ha.account f c hc).flow, enteredData, Traced.received, List.map_filterMap,
      ← List.filterMap_eq_map]
    refine List.filterMap_congr fun o ho => ?_
    obtain ⟨-, m, hm, hd, -⟩ := h.offered o (hmem o ho).1
    rw [hm, Option.map_some, hd]
    rfl

/-- What became of the messages so far. They are offered to at most one `FakeConn` each, in order,
and that has the address of the sender; what enters a `recvch` is a subsequence of the messages from
its address, and is what the application received and what is still there; a message that is neither
offered nor still in the hands of the accept loop found `connChan` full, and one that is refused
found `recvch` full and is counted in `dropRxBytes`. The accept loop is done with a message after at
most five steps. -/
structure Demultiplexed (t : Traced) : Prop where
  order : (t.offers.map (·.msg)).Pairwise (· < ·)
  offered : ∀ o ∈ t.offers, (o.Stored ∨ o.Refused) ∧ ∃ m c, t.msgs[o.msg]? = some m ∧
    o.data = m.data ∧ t.l.conns[o.conn]? = some c ∧ c.addr.addr.same m.src.addr = true
  received : ∀ f c, t.l.conns[f]? = some c →
    (t.received f).Sublist (t.msgs.filter fun m => c.addr.addr.same m.src.addr) ∧
    (t.received f).map (·.data) = takenOf t.taken f ++ c.recvch ∧
    c.dropRxBytes = UInt64.ofNat (refusedOf t.offers f)
  settled : ∀ i < t.msgs.length, (∃ o ∈ t.offers, o.msg = i) ∨
    (∃ r ∈ t.rejections, r.msg = i ∧ r.waiting = connChanCap) ∨
    (i + 1 = t.msgs.length ∧ t.l.loop ≠ .read)
  prompt : ∃ k t', k ≤ 5 ∧ exec Traced.step (List.replicate k .advance) t = some t' ∧
    t'.l.loop = .read

/-- **Demultiplexing and conservation**, in every run of a listener. -/
theorem demultiplexed (ht : t.Reachable) : Demultiplexed t := by
  obtain ⟨h, ha⟩ := history_of_reachable ht
  refine ⟨List.pairwise_map.2 h.ordered, fun o ho => ⟨ha.fate o ho, ?_⟩, fun f c hc => ?_,
    fun i hi => ?_, advance_to_read 5 t ?_⟩
  · obtain ⟨-, m, hm, hd, hk⟩ := h.offered o ho
    obtain ⟨c, hc, hck⟩ := Option.map_eq_some_iff.1 hk
    exact ⟨m, c, hm, hd.symm, hc, same_of_key (h.conns c (List.mem_of_getElem? hc))
      (h.msgs m (List.mem_of_getElem? hm)) hck⟩
  · obtain ⟨hsub, hdata⟩ := received_of h ha hc
    exact ⟨hsub, hdata, (ha.account f c hc).dropped⟩
  · by_cases hlt : i < t.handled
    · rcases h.handled i hlt with ho | ⟨r, hr, hri⟩
      · exact .inl ho
      · exact .inr (.inl ⟨r, hr, hri, h.full r hr⟩)
    · -- the message in the hands of the loop
      refine .inr (.inr ?_)
      unfold Traced.handled at hlt
      split at hlt
      · omega
      · rename_i hbusy
        exact ⟨by omega, fun hread => hbusy hread⟩
  · unfold Loop.rank
    split <;> omega

end

/-- The peer 10.0.0.2:4000. -/
def peerB : Peer := ⟨.tcp [10, 0, 0, 2] 4000, ⟨0x0a000002, 4000⟩, by decide⟩

/-- Two peers send by turns: each has its own `FakeConn`, and the application takes from the
first. -/
theorem demultiplexed_two :
    ∃ t, exec Traced.step [.recv [1] peerA, .advance, .advance, .advance, .advance, .advance,
        .recv [9] peerB, .advance, .advance, .advance, .advance, .advance,
        .recv [2, 3] peerA, .advance, .advance, .accept, .accept, .take 0] (Traced.new 0) = some t ∧
      t.offers.map (fun o => (o.msg, o.conn)) = [(0, 0), (1, 1), (2, 0)] ∧
      takenOf t.taken 0 = [[1]] ∧ Demultiplexed t := by
  have hrun : (exec Traced.step [.recv [1] peerA, .advance, .advance, .advance, .advance, .advance,
      .recv [9] peerB, .advance, .advance, .advance, .advance, .advance,
      .recv [2, 3] peerA, .advance, .advance, .accept, .accept, .take 0] (Traced.new 0)).map
        (fun t => (t.offers.map (fun o => (o.msg, o.conn)), takenOf t.taken 0)) =
      some ([(0, 0), (1, 1), (2, 0)], [[1]]) := by decide +kernel
  obtain ⟨t, ht, hrun⟩ := Option.map_eq_some_iff.1 hrun
  obtain ⟨hoff, htak⟩ := Prod.mk.inj hrun
  exact ⟨t, ht, hoff, htak, demultiplexed (Reach.exec (fun _ _ _ h => h) (.init ⟨0, rfl⟩) ht)⟩

end Faketcp
