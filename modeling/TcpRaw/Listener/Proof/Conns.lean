import TcpRaw.Listener.Proof.Registry

/-!
# What a step does to the `FakeConn`s

`connsStep` says it once for all events: a step appends the new `FakeConn` of the accept loop's
message, pushes to one, takes from one, marks one closed, or leaves all as they are. Addresses and
keys stay (`ConnsStep.addrs`, `key_step`).
-/

namespace Faketcp

open GoRt Common Trans

theorem map_modify_of {α β : Type} {l : List α} {i : Nat} {f : α → α} {g : α → β}
    (h : ∀ a, l[i]? = some a → g (f a) = g a) : (l.modify i f).map g = l.map g := by
  refine List.ext_getElem? fun j => ?_
  rw [List.getElem?_map, List.getElem?_map, List.getElem?_modify]
  by_cases hj : i = j
  · subst hj
    cases ha : l[i]? with
    | none => rfl
    | some a => simp [h a ha]
  · simp [hj]

theorem map_set_of {α β : Type} {l : List α} {i : Nat} {a b : α} {g : α → β} (ha : l[i]? = some a)
    (h : g b = g a) : (l.set i b).map g = l.map g := by
  refine List.ext_getElem? fun j => ?_
  rw [List.getElem?_map, List.getElem?_map]
  by_cases hj : i = j
  · subst hj
    rw [List.getElem?_set_self (List.getElem?_eq_some_iff.1 ha).1, ha, Option.map_some,
      Option.map_some, h]
  · rw [List.getElem?_set_ne hj]

/-- The ways in which a step changes the `FakeConn`s. -/
inductive ConnsStep (l : Listener) : Event → List FakeConn → Prop
  | keep {e : Event} (hpush : e = .advance → ∀ data f, l.loop ≠ .push data f)
      (htake : ∀ f, e ≠ .take f) : ConnsStep l e l.conns
  | create {data : Bytes} {src : Peer} (h : l.loop = .create data src) :
      ConnsStep l .advance (l.conns ++ [newFakeConn src])
  | push {data : Bytes} {f : Nat} (h : l.loop = .push data f) :
      ConnsStep l .advance (l.conns.modify f (·.push l.now data))
  | take (f : Nat) :
      ConnsStep l (.take f) (l.conns.modify f fun c => { c with recvch := c.recvch.tail })
  | close {e : Event} {f : Nat} {c : FakeConn} (h : l.conns[f]? = some c) (hadv : e ≠ .advance)
      (htake : ∀ f, e ≠ .take f) : ConnsStep l e (l.conns.set f { c with closed := true })

section
variable {l l' : Listener} {e : Event}

theorem connsStep_advance (hs : AdvanceStep l l') : ConnsStep l .advance l'.conns := by
  cases hs with
  | create hloop => exact .create hloop
  | push hloop => exact .push hloop
  | found hloop => exact .keep (by simp [hloop]) (by simp)
  | absent hloop => exact .keep (by simp [hloop]) (by simp)
  | send hloop => exact .keep (by simp [hloop]) (by simp)
  | full hloop => exact .keep (by simp [hloop]) (by simp)
  | insert hloop => exact .keep (by simp [hloop]) (by simp)

theorem connsStep (hs : l.step e = some l') : ConnsStep l e l'.conns := by
  cases listenerStep hs with
  | advance ha => exact connsStep_advance ha
  | @take f => exact .take f
  | close _ hc =>
    cases hc with
    | already => exact .keep (by simp) (by simp)
    | marks hc => exact .close hc (by simp) (by simp)
  | closeTarget _ hc =>
    cases hc with
    | already => exact .keep (by simp) (by simp)
    | marks hc => exact .close hc (by simp) (by simp)
  | _ => exact .keep (by simp) (by simp)

/-- The addresses of the `FakeConn`s stay; a new one has the address of the message. -/
theorem ConnsStep.addrs {conns : List FakeConn} (h : ConnsStep l e conns) :
    conns.map (·.addr) = l.conns.map (·.addr) ∨ ∃ data src, e = .advance ∧
      l.loop = .create data src ∧ conns.map (·.addr) = l.conns.map (·.addr) ++ [src] := by
  cases h with
  | keep => exact .inl rfl
  | @create data src hloop =>
    refine .inr ⟨data, src, rfl, hloop, ?_⟩
    rw [List.map_append]
    rfl
  | @push data f hloop =>
    refine .inl (map_modify_of fun c _ => ?_)
    unfold FakeConn.push
    split <;> rfl
  | take f => exact .inl (map_modify_of fun c _ => rfl)
  | @close e f c hc hadv ht => exact .inl (map_set_of hc rfl)

theorem key_eq_addrs (l : Listener) (f : Nat) :
    l.key f = ((l.conns.map (·.addr))[f]?).map Peer.key := by
  rw [Listener.key, List.getElem?_map, Option.map_map]
  rfl

/-- The key of a `FakeConn` stays. -/
theorem key_step (hs : l.step e = some l') {f : Nat} {k : AddrKey}
    (hk : l.key f = some k) : l'.key f = some k := by
  rw [key_eq_addrs] at hk ⊢
  rcases (connsStep hs).addrs with he | ⟨data, src, -, -, he⟩
  · rw [he, hk]
  · obtain ⟨a, ha, rfl⟩ := Option.map_eq_some_iff.1 hk
    rw [he, List.getElem?_append_left (List.getElem?_eq_some_iff.1 ha).1, ha]
    rfl

end

end Faketcp
