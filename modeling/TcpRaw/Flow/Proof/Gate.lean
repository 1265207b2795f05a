import TcpRaw.Flow.Server

/-!
# The handshake gate

A captured segment is delivered only if its source's entry is bound to a kernel connection. An entry
is bound by the accept loop alone, to a connection of its own key (`Gate.bound`), so a delivered
message's source had a connection recorded before.

After a removal of a key, its next entry is a new one. Until a connection from the key is accepted,
no accept holds that entry, and it stays unbound (`Clean`): segments that start after the removal
find nothing else. An accept that is still under way when the flow is removed binds itself to the
entry that is gone.
-/

namespace Tcpraw

open GoRt Trans

/-! ## Histories -/

/-- The key was removed, and no connection from it was accepted since. -/
def Gated (k : AddrKey) : List LogEntry → Prop
  | [] => False
  | .removed keys :: log => k ∈ keys ∨ Gated k log
  | .accepted k' _ :: log => k' ≠ k ∧ Gated k log
  | _ :: log => Gated k log

/-- The segment started while its source was gated, and no connection was accepted since. -/
def Late (id : Nat) (k : AddrKey) : List LogEntry → Prop
  | [] => False
  | .started id' k' :: log => id' = id ∧ k' = k ∧ Gated k log ∨ Late id k log
  | .accepted k' _ :: log => k' ≠ k ∧ Late id k log
  | _ :: log => Late id k log

/-- A connection from the key was accepted and recorded. -/
def Shaken (k : AddrKey) (log : List LogEntry) : Prop :=
  ∃ n, .accepted k n ∈ log ∧ .recorded k n ∈ log

/-- What the history says about each message that was put on `chMessage` or read. -/
def LogOk : List LogEntry → Prop
  | [] => True
  | .pushed id m :: log =>
    LogOk log ∧ .started id m.addr ∈ log ∧ Shaken m.addr log ∧ ¬ Late id m.addr log
  | .read m :: log => LogOk log ∧ ∃ id, .pushed id m ∈ log
  | _ :: log => LogOk log

section
variable {k : AddrKey} {id : Nat} {log : List LogEntry}

theorem started_of_late : ∀ {log : List LogEntry}, Late id k log → .started id k ∈ log
  | .started id' k' :: log, h => by
    rcases h with ⟨rfl, rfl, -⟩ | h
    · exact List.mem_cons_self
    · exact List.mem_cons_of_mem _ (started_of_late h)
  | .accepted _ _ :: _, h => List.mem_cons_of_mem _ (started_of_late h.2)
  | .recorded _ _ :: _, h => List.mem_cons_of_mem _ (started_of_late h)
  | .pushed _ _ :: _, h => List.mem_cons_of_mem _ (started_of_late h)
  | .read _ :: _, h => List.mem_cons_of_mem _ (started_of_late h)
  | .removed _ :: _, h => List.mem_cons_of_mem _ (started_of_late h)

theorem gated_append {keys : List AddrKey} {pre : List LogEntry} (hk : k ∈ keys) :
    ∀ {mid : List LogEntry}, (∀ n, .accepted k n ∉ mid) →
      Gated k (mid ++ .removed keys :: pre) := by
  intro mid
  induction mid with
  | nil => exact fun _ => .inl hk
  | cons x mid ih =>
    intro hno
    have ih := ih fun n hn => hno n (List.mem_cons_of_mem _ hn)
    cases x with
    | removed keys' => exact .inr ih
    | accepted k' n => exact ⟨fun he => hno n (by rw [he]; exact List.mem_cons_self), ih⟩
    | _ => exact ih

theorem late_append {pre : List LogEntry} (hg : Gated k pre) :
    ∀ {mid : List LogEntry}, (∀ n, .accepted k n ∉ mid) →
      Late id k (mid ++ .started id k :: pre) := by
  intro mid
  induction mid with
  | nil => exact fun _ => .inl ⟨rfl, rfl, hg⟩
  | cons x mid ih =>
    intro hno
    have ih := ih fun n hn => hno n (List.mem_cons_of_mem _ hn)
    cases x with
    | started id' k' => exact .inr ih
    | accepted k' n => exact ⟨fun he => hno n (by rw [he]; exact List.mem_cons_self), ih⟩
    | _ => exact ih

theorem LogOk.append : ∀ {post log : List LogEntry}, LogOk (post ++ log) → LogOk log
  | [], _, h => h
  | x :: post, log, h => by
    have hpost : LogOk (post ++ log) := by
      cases x with
      | pushed id m => exact h.1
      | read m => exact h.1
      | _ => exact h
    exact LogOk.append hpost

theorem Shaken.cons (x : LogEntry) (h : Shaken k log) : Shaken k (x :: log) := by
  obtain ⟨n, ha, hr⟩ := h
  exact ⟨n, List.mem_cons_of_mem _ ha, List.mem_cons_of_mem _ hr⟩

end

/-! ## The invariant -/

/-- The entry is not bound, and no accept under way will bind it. -/
structure Clean (flows : List (AddrKey × TcpFlow)) (accepts : List Accept) (e : Nat) : Prop where
  unbound : ∀ k (f : TcpFlow), flows[e]? = some (k, f) → f.conn = none
  free : ∀ a ∈ accepts, a.entry ≠ e

/-- The invariant of a listening `tcpConn` (module doc). -/
structure Gate (s : Server) : Prop where
  entry : s.conn.Owned
  capture : ∀ c ∈ s.captures, s.conn.Owns c.entry c.key ∧ .started c.id c.key ∈ s.log
  accept : ∀ a ∈ s.accepts, s.conn.Owns a.entry a.key ∧ .accepted a.key a.conn ∈ s.log
  bound : ∀ (e : Nat) k (f : TcpFlow) n, s.conn.flows[e]? = some (k, f) → f.conn = some n →
    .accepted k n ∈ s.log ∧ .recorded k n ∈ s.log
  updated : ∀ c ∈ s.captures, c.stage = .updated false → Shaken c.key s.log
  channel : ∀ m ∈ s.conn.chMessage, ∃ id, .pushed id m ∈ s.log
  fresh : ∀ id k, .started id k ∈ s.log → id < s.nextId
  gated : ∀ k e, Gated k s.log → s.conn.table.lookup k = some e →
    Clean s.conn.flows s.accepts e
  late : ∀ c ∈ s.captures, Late c.id c.key s.log →
    (c.stage = .fetched → Clean s.conn.flows s.accepts c.entry) ∧ c.stage ≠ .updated false
  log : LogOk s.log

section
variable {s : Server}

/-- Segments finish, messages come and go; entries and accepts stay as they are. -/
theorem Gate.finish (h : Gate s) {captures : List Capture} {chMessage : List Message} {die : Bool}
    {log : List LogEntry} (now : Time) (hcap : ∀ c ∈ captures, c ∈ s.captures)
    (hmem : ∀ x ∈ s.log, x ∈ log) (hstart : ∀ id k, .started id k ∈ log → .started id k ∈ s.log)
    (hgated : ∀ k, Gated k log → Gated k s.log) (hlate : ∀ id k, Late id k log → Late id k s.log)
    (hchan : ∀ m ∈ chMessage, ∃ id, .pushed id m ∈ log) (hlog : LogOk log) :
    Gate { s with conn := { s.conn with chMessage, die }, now, captures, log } where
  entry := h.entry
  capture c hc := ⟨(h.capture c (hcap c hc)).1, hmem _ (h.capture c (hcap c hc)).2⟩
  accept a ha := ⟨(h.accept a ha).1, hmem _ (h.accept a ha).2⟩
  bound e k f n hf hn := (h.bound e k f n hf hn).imp (hmem _) (hmem _)
  updated c hc hst := by
    obtain ⟨n, ha, hr⟩ := h.updated c (hcap c hc) hst
    exact ⟨n, hmem _ ha, hmem _ hr⟩
  channel := hchan
  fresh id k hs := h.fresh id k (hstart id k hs)
  gated k e hg he := h.gated k e (hgated k hg) he
  late c hc hl := h.late c (hcap c hc) (hlate _ _ hl)
  log := hlog

/-- A segment that saw its entry bound is put on `chMessage`: it is not late. -/
theorem Gate.push (h : Gate s) {i : Nat} {c : Capture} (hc : s.captures[i]? = some c)
    (hst : c.stage = .updated false) :
    Gate { s with
      conn := { s.conn with chMessage := s.conn.chMessage ++ [c.message] }
      captures := s.captures.eraseIdx i
      log := .pushed c.id c.message :: s.log } := by
  have hmem := List.mem_of_getElem? hc
  have hlate : ¬ Late c.id c.key s.log := fun hl => (h.late c hmem hl).2 hst
  refine h.finish s.now (fun _ => List.mem_of_mem_eraseIdx) (fun _ => List.mem_cons_of_mem _)
    (fun id k hs => (List.mem_cons.1 hs).resolve_left (by simp)) (fun _ => id) (fun _ _ => id)
    (fun m hm => ?_) ⟨h.log, (h.capture c hmem).2, h.updated c hmem hst, hlate⟩
  rcases List.mem_append.1 hm with hm | hm
  · exact (h.channel m hm).imp fun _ => List.mem_cons_of_mem _
  · cases List.mem_singleton.1 hm
    exact ⟨c.id, List.mem_cons_self⟩

theorem Gate.read (h : Gate s) {m : Message} {chMessage : List Message}
    (hch : s.conn.chMessage = m :: chMessage) :
    Gate { s with conn := { s.conn with chMessage }, log := .read m :: s.log } := by
  refine h.finish s.now (fun _ => id) (fun _ => List.mem_cons_of_mem _)
    (fun id k hs => (List.mem_cons.1 hs).resolve_left (by simp)) (fun _ => id) (fun _ _ => id)
    (fun m' hm' => ?_) ⟨h.log, h.channel m (hch ▸ List.mem_cons_self)⟩
  exact (h.channel m' (hch ▸ List.mem_cons_of_mem _ hm')).imp fun _ => List.mem_cons_of_mem _

/-! ## Fetching an entry -/

/-- The critical section of `lockflow`. -/
def Server.fetch (s : Server) (key : AddrKey) : Server :=
  { s with conn := (s.conn.lockflow key s.now).2 }

theorem Clean.fetch {e : Nat} {key : AddrKey} (h : Clean s.conn.flows s.accepts e) :
    Clean (s.fetch key).conn.flows s.accepts e where
  unbound k f hf := by
    rcases TcpConn.flow_of_lockflow hf with hf | ⟨-, hf⟩
    · exact h.unbound k f hf
    · exact hf
  free := h.free

/-- A new entry is clean: it is unbound, and the accepts under way hold older ones. -/
theorem Gate.clean_fresh (h : Gate s) {e : Nat} {key : AddrKey} (he : s.conn.flows[e]? = none) :
    Clean (s.fetch key).conn.flows s.accepts e where
  unbound k f hf := by
    rcases TcpConn.flow_of_lockflow hf with hf | ⟨-, hf⟩
    · rw [he] at hf
      cases hf
    · exact hf
  free a ha hae := by
    obtain ⟨⟨f, hf⟩, -⟩ := h.accept a ha
    rw [hae, he] at hf
    cases hf

theorem Gate.fetch (h : Gate s) (key : AddrKey) : Gate (s.fetch key) where
  entry := h.entry.lockflow key s.now
  capture c hc := (h.capture c hc).imp_left TcpConn.Owns.lockflow
  accept a ha := (h.accept a ha).imp_left TcpConn.Owns.lockflow
  bound e k f n hf hn := by
    rcases TcpConn.flow_of_lockflow hf with hf | ⟨-, hf⟩
    · exact h.bound e k f n hf hn
    · rw [hf] at hn
      cases hn
  updated := h.updated
  channel m hm := h.channel m ((s.conn.lockflow_cases key s.now).2.2 ▸ hm)
  fresh := h.fresh
  gated k e hg he := by
    rcases TcpConn.lookup_or_fresh he with he | ⟨he, -⟩
    · exact (h.gated k e hg he).fetch
    · exact h.clean_fresh he
  late c hc hl := (h.late c hc hl).imp_left fun hcl hst => (hcl hst).fetch
  log := h.log

theorem Gate.start (h : Gate s) {c : Capture} (hid : c.id = s.nextId) (hst : c.stage = .fetched)
    (he : s.conn.table.lookup c.key = some c.entry) :
    Gate { s with
      captures := s.captures ++ [c]
      nextId := s.nextId + 1
      log := .started c.id c.key :: s.log } where
  entry := h.entry
  capture c' hc' := by
    rcases List.mem_append.1 hc' with hc' | hc'
    · exact (h.capture c' hc').imp_right (List.mem_cons_of_mem _)
    · cases List.mem_singleton.1 hc'
      exact ⟨h.entry _ _ he, List.mem_cons_self⟩
  accept a ha := (h.accept a ha).imp_right (List.mem_cons_of_mem _)
  bound e k f n hf hn :=
    (h.bound e k f n hf hn).imp (List.mem_cons_of_mem _) (List.mem_cons_of_mem _)
  updated c' hc' hst' := by
    rcases List.mem_append.1 hc' with hc' | hc'
    · exact (h.updated c' hc' hst').cons _
    · cases List.mem_singleton.1 hc'
      rw [hst] at hst'
      cases hst'
  channel m hm := (h.channel m hm).imp fun _ => List.mem_cons_of_mem _
  fresh id k hs := by
    rcases List.mem_cons.1 hs with hs | hs
    · cases hs
      exact hid ▸ Nat.lt_succ_self _
    · exact Nat.lt_succ_of_lt (h.fresh id k hs)
  gated := h.gated
  late c' hc' hl := by
    rcases List.mem_append.1 hc' with hc' | hc'
    · -- an older segment: its id is not the new one
      have hlt := h.fresh _ _ (h.capture c' hc').2
      rcases hl with ⟨hid', -, -⟩ | hl
      · omega
      · exact h.late c' hc' hl
    · cases List.mem_singleton.1 hc'
      refine ⟨fun _ => ?_, fun hst' => by rw [hst] at hst'; cases hst'⟩
      rcases hl with ⟨-, -, hg⟩ | hl
      · exact h.gated _ _ hg he
      · have hlt := h.fresh _ _ (started_of_late hl)
        omega
  log := h.log

/-- A connection is accepted: it holds the entry of its peer, which ends the gate of the peer. -/
theorem Gate.join (h : Gate s) {a : Accept} (he : s.conn.table.lookup a.key = some a.entry) :
    Gate { s with accepts := s.accepts ++ [a], log := .accepted a.key a.conn :: s.log } where
  entry := h.entry
  capture c hc := (h.capture c hc).imp_right (List.mem_cons_of_mem _)
  accept a' ha' := by
    rcases List.mem_append.1 ha' with ha' | ha'
    · exact (h.accept a' ha').imp_right (List.mem_cons_of_mem _)
    · cases List.mem_singleton.1 ha'
      exact ⟨h.entry _ _ he, List.mem_cons_self⟩
  bound e k f n hf hn :=
    (h.bound e k f n hf hn).imp (List.mem_cons_of_mem _) (List.mem_cons_of_mem _)
  updated c hc hst := (h.updated c hc hst).cons _
  channel m hm := (h.channel m hm).imp fun _ => List.mem_cons_of_mem _
  fresh id k hs := by
    rcases List.mem_cons.1 hs with hs | hs
    · cases hs
    · exact h.fresh id k hs
  gated k e hg hk := by
    obtain ⟨hne, hg⟩ := hg
    have hcl := h.gated k e hg hk
    refine ⟨hcl.unbound, fun a' ha' hae => ?_⟩
    rcases List.mem_append.1 ha' with ha' | ha'
    · exact hcl.free a' ha' hae
    · cases List.mem_singleton.1 ha'
      exact hne ((h.entry _ _ he).unique (hae ▸ h.entry _ _ hk))
  late c hc hl := by
    obtain ⟨hne, hl⟩ := hl
    obtain ⟨hcl, hst⟩ := h.late c hc hl
    refine ⟨fun hf => ⟨(hcl hf).unbound, fun a' ha' hae => ?_⟩, hst⟩
    rcases List.mem_append.1 ha' with ha' | ha'
    · exact (hcl hf).free a' ha' hae
    · cases List.mem_singleton.1 ha'
      exact hne ((h.entry _ _ he).unique (hae ▸ (h.capture c hc).1))
  log := h.log

/-! ## Updates and removals -/

theorem flow_of_capture {e i handle : Nat} {tcp : Segment} {now : Time} {k : AddrKey} {f : TcpFlow}
    (h : (s.conn.modifyFlow i fun e => e.capture tcp handle now).flows[e]? = some (k, f)) :
    ∃ f', s.conn.flows[e]? = some (k, f') ∧ f'.conn = f.conn := by
  rw [TcpConn.getElem?_modifyFlow] at h
  split at h
  · obtain ⟨⟨k', f'⟩, hf', hkf⟩ := Option.map_eq_some_iff.1 h
    cases hkf
    exact ⟨f', hf', (TcpFlow.capture_conn ..).symm⟩
  · exact ⟨f, h, rfl⟩

theorem Clean.capture {e i handle : Nat} {tcp : Segment} {now : Time} {accepts : List Accept}
    (h : Clean s.conn.flows accepts e) :
    Clean (s.conn.modifyFlow i fun e => e.capture tcp handle now).flows accepts e where
  unbound k f hf := by
    obtain ⟨f', hf', hfc⟩ := flow_of_capture hf
    exact hfc ▸ h.unbound k f' hf'
  free := h.free

/-- A segment updates the entry that it holds, and sees whether it is bound. -/
theorem Gate.update (h : Gate s) {i : Nat} {c : Capture} (hc : s.captures[i]? = some c)
    (hst : c.stage = .fetched) :
    Gate { s with
      conn := s.conn.modifyFlow c.entry fun e => e.capture c.tcp c.handle s.now
      captures := s.captures.set i { c with stage := .updated (s.conn.orphan c.entry) } } := by
  have hmem := List.mem_of_getElem? hc
  obtain ⟨⟨f₀, hf₀⟩, hstart⟩ := h.capture c hmem
  have hcap : ∀ c' ∈ s.captures.set i { c with stage := .updated (s.conn.orphan c.entry) },
      c' ∈ s.captures ∨ c' = { c with stage := .updated (s.conn.orphan c.entry) } :=
    fun c' hc' => List.mem_or_eq_of_mem_set hc'
  exact {
    entry := h.entry.modifyFlow _ _
    capture := fun c' hc' => by
      rcases hcap c' hc' with hc' | rfl
      · exact (h.capture c' hc').imp_left TcpConn.Owns.modifyFlow
      · exact ⟨TcpConn.Owns.modifyFlow ⟨f₀, hf₀⟩, hstart⟩
    accept := fun a ha => (h.accept a ha).imp_left TcpConn.Owns.modifyFlow
    bound := fun e k f n hf hn => by
      obtain ⟨f', hf', hfc⟩ := flow_of_capture hf
      exact h.bound e k f' n hf' (hfc ▸ hn)
    updated := fun c' hc' hst' => by
      rcases hcap c' hc' with hc' | rfl
      · exact h.updated c' hc' hst'
      · -- the entry is bound, so a connection was recorded in it
        cases hn : f₀.conn with
        | none => simp [TcpConn.orphan, hf₀, hn] at hst'
        | some n => exact ⟨n, h.bound _ _ f₀ n hf₀ hn⟩
    channel := h.channel
    fresh := h.fresh
    gated := fun k e hg he => (h.gated k e hg he).capture
    late := fun c' hc' hl => by
      rcases hcap c' hc' with hc' | rfl
      · exact (h.late c' hc' hl).imp_left fun hcl hf => (hcl hf).capture
      · have hn := ((h.late c hmem hl).1 hst).unbound _ _ hf₀
        simp [TcpConn.orphan, hf₀, hn]
    log := h.log }

theorem Gate.bind (h : Gate s) {i : Nat} {a : Accept} (ha : s.accepts[i]? = some a) :
    Gate { s with
      conn := s.conn.modifyFlow a.entry fun e => { e with conn := some a.conn }
      accepts := s.accepts.eraseIdx i
      log := .recorded a.key a.conn :: s.log } := by
  have hmem := List.mem_of_getElem? ha
  obtain ⟨hown, hacc⟩ := h.accept a hmem
  -- the accept holds the entry, so an entry that is clean is another one
  have hclean : ∀ e, Clean s.conn.flows s.accepts e →
      Clean (s.conn.modifyFlow a.entry fun e => { e with conn := some a.conn }).flows
        (s.accepts.eraseIdx i) e := by
    intro e hcl
    refine ⟨fun k f hf => ?_, fun a' ha' => hcl.free a' (List.mem_of_mem_eraseIdx ha')⟩
    rw [TcpConn.getElem?_modifyFlow, if_neg (hcl.free a hmem).symm] at hf
    exact hcl.unbound k f hf
  exact {
    entry := h.entry.modifyFlow _ _
    capture := fun c hc => (h.capture c hc).imp TcpConn.Owns.modifyFlow (List.mem_cons_of_mem _)
    accept := fun a' ha' => (h.accept a' (List.mem_of_mem_eraseIdx ha')).imp
      TcpConn.Owns.modifyFlow (List.mem_cons_of_mem _)
    bound := fun e k f n hf hn => by
      rw [TcpConn.getElem?_modifyFlow] at hf
      split at hf
      case isTrue he =>
        obtain ⟨⟨k', f'⟩, hf', hkf⟩ := Option.map_eq_some_iff.1 hf
        cases hkf
        cases hn
        rw [he] at hf'
        cases hown.unique ⟨f', hf'⟩
        exact ⟨List.mem_cons_of_mem _ hacc, List.mem_cons_self⟩
      case isFalse =>
        exact (h.bound e k f n hf hn).imp (List.mem_cons_of_mem _) (List.mem_cons_of_mem _)
    updated := fun c hc hst => (h.updated c hc hst).cons _
    channel := fun m hm => (h.channel m hm).imp fun _ => List.mem_cons_of_mem _
    fresh := fun id k hs => h.fresh id k ((List.mem_cons.1 hs).resolve_left (by simp))
    gated := fun k e hg he => hclean e (h.gated k e hg he)
    late := fun c hc hl => (h.late c hc hl).imp_left fun hcl hf => hclean _ (hcl hf)
    log := h.log }

/-- Flows are removed: the keys that are left had no removal of their own in this step. -/
theorem Gate.drop (h : Gate s) {i : Nat} {es : List ((_ : AddrKey) × Nat)}
    (hes : ∀ e ∈ es, e ∈ (s.conn.table.shard i).entries) :
    Gate { s with conn := s.conn.drop i es, log := .removed (es.map (·.1)) :: s.log } := by
  have hlook : ∀ k e, (s.conn.drop i es).table.lookup k = some e →
      k ∉ es.map (·.1) ∧ s.conn.table.lookup k = some e := by
    intro k e he
    rw [TcpConn.lookup_drop hes] at he
    split at he
    · cases he
    · exact ⟨‹_›, he⟩
  exact {
    entry := fun k e he => h.entry k e (hlook k e he).2
    capture := fun c hc => (h.capture c hc).imp_right (List.mem_cons_of_mem _)
    accept := fun a ha => (h.accept a ha).imp_right (List.mem_cons_of_mem _)
    bound := fun e k f n hf hn =>
      (h.bound e k f n hf hn).imp (List.mem_cons_of_mem _) (List.mem_cons_of_mem _)
    updated := fun c hc hst => (h.updated c hc hst).cons _
    channel := fun m hm => (h.channel m hm).imp fun _ => List.mem_cons_of_mem _
    fresh := fun id k hs => h.fresh id k ((List.mem_cons.1 hs).resolve_left (by simp))
    gated := fun k e hg he => by
      obtain ⟨hk, he⟩ := hlook k e he
      exact h.gated k e (hg.resolve_left hk) he
    late := h.late
    log := h.log }

/-! ## Runs -/

theorem gate_new (sharding : Nat) (pos : 0 < sharding) (now : Time) :
    Gate (Server.new sharding pos now) := by
  have hlook : ∀ k, (Server.new sharding pos now).conn.table.lookup k = none :=
    FlowTable.lookup_init sharding pos
  constructor
  case entry | gated => simp [TcpConn.Owned, hlook]
  case bound => simp [Server.new, TcpConn.new]
  case log => trivial
  all_goals simp [Server.new, TcpConn.new]

/-- **The invariant is kept by every step.** -/
theorem gate_step {e : ServerEvent} {s' : Server} (h : Gate s) (hs : s.step e = some s') :
    Gate s' := by
  cases serverStep hs with
  | @tick t =>
    exact h.finish t (fun _ => id) (fun _ => id) (fun _ _ => id) (fun _ => id) (fun _ _ => id)
      h.channel h.log
  | otherPort => exact h
  | capture => exact (h.fetch _).start rfl rfl ((s.conn.lookup_lockflow _ _ _).trans (if_pos rfl))
  | update hc hst => exact h.update hc hst
  | push hc hst => exact h.push hc hst
  | discard =>
    exact h.finish s.now (fun _ => List.mem_of_mem_eraseIdx) (fun _ => id) (fun _ _ => id)
      (fun _ => id) (fun _ _ => id) h.channel h.log
  | @accept key => exact (h.fetch key).join ((s.conn.lookup_lockflow _ _ _).trans (if_pos rfl))
  | bind ha => exact h.bind ha
  | sweep => exact h.drop fun e he => (List.mem_filter.1 he).1
  | close =>
    exact h.finish s.now (fun _ => id) (fun _ => id) (fun _ _ => id) (fun _ => id) (fun _ _ => id)
      h.channel h.log
  | wipe => exact h.drop fun e he => he
  | read hch => exact h.read hch

theorem gate_of_reachable (hs : s.Reachable) : Gate s :=
  hs.invariant (fun _ ⟨sharding, pos, now, hs⟩ => hs ▸ gate_new sharding pos now)
    fun _ _ _ h hs => gate_step h hs

theorem Gate.pushed (h : Gate s) {post pre : List LogEntry} {id : Nat} {m : Message}
    (hlog : s.log = post ++ .pushed id m :: pre) :
    .started id m.addr ∈ pre ∧ Shaken m.addr pre ∧ ¬ Late id m.addr pre := by
  have hpush : LogOk (.pushed id m :: pre) := LogOk.append (hlog ▸ h.log)
  exact hpush.2

theorem Gate.shaken_of_pushed (h : Gate s) {post pre : List LogEntry} {id : Nat} {m : Message}
    (hlog : s.log = post ++ pre) (hm : .pushed id m ∈ pre) : Shaken m.addr pre := by
  obtain ⟨mid, pre', rfl⟩ := List.append_of_mem hm
  rw [← List.append_assoc] at hlog
  obtain ⟨-, ⟨n, ha, hr⟩, -⟩ := h.pushed hlog
  refine ⟨n, ?_, ?_⟩
  · exact List.mem_append_right _ (List.mem_cons_of_mem _ ha)
  · exact List.mem_append_right _ (List.mem_cons_of_mem _ hr)

/-- **Handshake gating.** Along every run of a listening `tcpConn`: a message is put on `chMessage`
only for a segment whose processing started before, and whose source had a connection accepted and
recorded before; so had that of every message that waits there or is read. If flows of the source
were removed before the segment started, then a connection from the source was accepted between the
removal and the delivery. -/
theorem handshake_gating (hs : s.Reachable) :
    (∀ post id m pre, s.log = post ++ .pushed id m :: pre →
      .started id m.addr ∈ pre ∧ Shaken m.addr pre) ∧
    (∀ m ∈ s.conn.chMessage, Shaken m.addr s.log) ∧
    (∀ post m pre, s.log = post ++ .read m :: pre →
      (∃ id, .pushed id m ∈ pre) ∧ Shaken m.addr pre) ∧
    ∀ post id m mid₁ mid₂ keys pre, s.log = post ++ .pushed id m ::
        (mid₁ ++ .started id m.addr :: (mid₂ ++ .removed keys :: pre)) → m.addr ∈ keys →
      ∃ n, .accepted m.addr n ∈ mid₁ ++ mid₂ := by
  have h := gate_of_reachable hs
  refine ⟨fun post id m pre hlog => ?_, fun m hm => ?_, fun post m pre hlog => ?_, ?_⟩
  · obtain ⟨hstart, hsh, -⟩ := h.pushed hlog
    exact ⟨hstart, hsh⟩
  · obtain ⟨id, hid⟩ := h.channel m hm
    exact h.shaken_of_pushed (List.nil_append _).symm hid
  · have hread : LogOk (.read m :: pre) := LogOk.append (hlog ▸ h.log)
    obtain ⟨id, hid⟩ := hread.2
    exact ⟨⟨id, hid⟩, h.shaken_of_pushed (hlog.trans (List.append_cons ..)) hid⟩
  · intro post id m mid₁ mid₂ keys pre hlog hk
    -- otherwise the segment is late: gated when it started, and ever since
    by_contra hno
    simp only [List.mem_append, not_exists, not_or] at hno
    have hg : Gated m.addr (mid₂ ++ .removed keys :: pre) := gated_append hk fun n => (hno n).2
    exact (h.pushed hlog).2.2 (late_append hg fun n => (hno n).1)

end

/-- A peer of a listening `tcpConn` on port 80. -/
def gatePeer : AddrKey := { dip := 0x0a000001, dport := 4000 }

/-- A data segment of the peer. -/
def gateSegment : Segment where
  srcPort := 4000
  dstPort := 80
  SYN := false
  ACK := true
  PSH := true
  seq := 1
  ack := 1
  payload := [42]

/-- The peer connects and sends; its flow expires; a segment is discarded, the peer connects again,
and a second segment is delivered. -/
def gateRun : List ServerEvent :=
  let segment : ServerEvent := .capture 80 0 0x0a000001 gateSegment
  [.accept gatePeer 7, .bind 0, segment, .update 0, .push 0, .read,
    .sweep 0 fun _ => 61 * second, segment, .update 0, .discard 0,
    .accept gatePeer 8, .bind 0, segment, .update 0, .push 0]

/-- The message of that segment. -/
def gateMessage : Message := { bts := [42], addr := gatePeer }

theorem handshake_gating_reconnect :
    ∃ s : Server, s.Reachable ∧ s.conn.chMessage = [gateMessage] ∧
      Shaken gateMessage.addr s.log ∧ ∃ n, .accepted gateMessage.addr n ∈
        [] ++ [.recorded gatePeer 8, .accepted gatePeer 8, LogEntry.started 1 gatePeer] := by
  have hrun : (exec Server.step gateRun (.new 1 Nat.one_pos 0)).map
      (fun s => (s.conn.chMessage, s.log)) =
      some ([gateMessage], [.pushed 2 gateMessage, .started 2 gatePeer, .recorded gatePeer 8,
        .accepted gatePeer 8, .started 1 gatePeer, .removed [gatePeer], .read gateMessage,
        .pushed 0 gateMessage, .started 0 gatePeer, .recorded gatePeer 7,
        .accepted gatePeer 7]) := by
    decide +kernel
  obtain ⟨s, hs, hres⟩ := Option.map_eq_some_iff.1 hrun
  obtain ⟨hch, hlog⟩ := Prod.mk.inj hres
  have hreach : s.Reachable := Reach.exec (fun _ _ _ h => h) (.init ⟨1, Nat.one_pos, 0, rfl⟩) hs
  obtain ⟨-, hwait, -, hgate⟩ := handshake_gating hreach
  have hmem : gateMessage ∈ s.conn.chMessage := by
    rw [hch]
    exact List.mem_cons_self
  refine ⟨s, hreach, hch, hwait _ hmem, ?_⟩
  exact hgate [] 2 gateMessage [] [.recorded gatePeer 8, .accepted gatePeer 8, .started 1 gatePeer]
    [gatePeer] _ hlog List.mem_cons_self

end Tcpraw
