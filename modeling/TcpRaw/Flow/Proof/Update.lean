import TcpRaw.Flow.Proof.Gate
import TcpRaw.Flow.Update

/-!
# No update is lost, but for two races with the cleaner

An entry is out of the table for good once a sweep has removed it: `lockflow` makes a new one. So
the update of a segment is lost if the sweep comes between the segment's `lockflow` and its update,
and so is the record of a connection. An update of a segment sets `ts`, and keeps the entry from the
sweeps of the next minute; the record of a connection does not, and a sweep may remove the entry at
any time after. In the runs whose sweeps do neither every update is kept, and each sweep that does
loses one (`updates_kept`).
-/

namespace Tcpraw

open GoRt Trans

section
variable {t t' : Tracked} {e : ServerEvent}

theorem tracked_cases (hs : t.step e = some t') :
    t.timely e = true ∧ ∃ s', t.s.step e = some s' ∧ t' = t.record s' e := by
  unfold Tracked.step at hs
  split at hs
  · rename_i htime
    obtain ⟨s', hs', rfl⟩ := Option.map_eq_some_iff.1 hs
    exact ⟨htime, s', hs', rfl⟩
  · cases hs

/-! ## Looking up entries -/

theorem lookup_of_sweep {conn : TcpConn} {i e : Nat} {clock : AddrKey → Time} {k : AddrKey}
    (h : (conn.drop i (conn.expired i clock)).table.lookup k = some e) :
    conn.table.lookup k = some e := by
  rw [TcpConn.lookup_sweep] at h
  split at h
  · exact (Option.filter_eq_some_iff.1 h).1
  · exact h

theorem lookup_sweep_of {conn : TcpConn} {i e : Nat} {clock : AddrKey → Time} {k : AddrKey}
    (h : conn.table.lookup k = some e)
    (hfresh : shardOf conn.table.sharding k = i → conn.stale (clock k) e = false) :
    (conn.drop i (conn.expired i clock)).table.lookup k = some e := by
  rw [TcpConn.lookup_sweep]
  split
  · rename_i hi
    rw [h, Option.filter_some, hfresh hi]
    rfl
  · exact h

theorem mem_expired {conn : TcpConn} {i e : Nat} {clock : AddrKey → Time} {k : AddrKey} :
    ⟨k, e⟩ ∈ conn.expired i clock ↔ shardOf conn.table.sharding k = i ∧
      conn.table.lookup k = some e ∧ conn.stale (clock k) e = true := by
  unfold TcpConn.expired
  rw [List.mem_filter, FlowTable.mem_entries, and_assoc]

/-- `lockflow` leaves the entries of the table where they are. -/
theorem lookup_lockflow_of {conn : TcpConn} {key k : AddrKey} {now : Time} {e : Nat}
    (h : conn.table.lookup k = some e) :
    (conn.lockflow key now).2.table.lookup k = some e := by
  rw [TcpConn.lookup_lockflow]
  split
  · rename_i heq
    subst heq
    obtain ⟨⟨hl, -⟩ | ⟨hl, -⟩, -⟩ := conn.lockflow_cases k now
    · rw [← hl, h]
    · rw [h] at hl
      cases hl
  · exact h

/-! ## What a step does -/

/-- The segments and connections in progress after a step: none is new. -/
structure Server.Rest (s s' : Server) : Prop where
  captures : ∀ c ∈ s'.captures, c.stage = .fetched → c ∈ s.captures
  accepts : ∀ a ∈ s'.accepts, a ∈ s.accepts
  now : s.now ≤ s'.now

/-- The ways in which a step changes the entries, the table and what is in progress. -/
inductive TrackedStep (t : Tracked) : ServerEvent → Tracked → Prop
  | quiet {e : ServerEvent} {s' : Server} (htable : s'.conn.table = t.s.conn.table)
      (hflows : s'.conn.flows = t.s.conn.flows) (hdie : s'.conn.die = t.s.conn.die)
      (hrest : t.s.Rest s') : TrackedStep t e { t with s := s' }
  | fetch {e : ServerEvent} {s' : Server} {key : AddrKey}
      (hconn : s'.conn = (t.s.conn.lockflow key t.s.now).2) (hnow : s'.now = t.s.now)
      (hcap : ∀ c ∈ s'.captures, c ∈ t.s.captures ∨
        c.key = key ∧ c.entry = (t.s.conn.lockflow key t.s.now).1)
      (hacc : ∀ a ∈ s'.accepts, a ∈ t.s.accepts ∨
        a.key = key ∧ a.entry = (t.s.conn.lockflow key t.s.now).1) :
      TrackedStep t e { t with s := s' }
  | update {i : Nat} {c : Capture} {s' : Server} (hc : t.s.captures[i]? = some c)
      (hst : c.stage = .fetched)
      (hconn : s'.conn = t.s.conn.modifyFlow c.entry fun f => f.capture c.tcp c.handle t.s.now)
      (hrest : t.s.Rest s') :
      TrackedStep t (.update i) { t with s := s', owed := t.owe ⟨c.key, c.entry, t.s.now⟩ }
  | bind {i : Nat} {a : Accept} {s' : Server} (ha : t.s.accepts[i]? = some a)
      (hconn : s'.conn = t.s.conn.modifyFlow a.entry fun f => { f with conn := some a.conn })
      (hrest : t.s.Rest s') :
      TrackedStep t (.bind i)
        { s := s'
          owed := t.owe ⟨a.key, a.entry, t.s.now⟩
          boundAt := (a.entry, t.s.now) :: t.boundAt }
  | sweep {i : Nat} {clock : AddrKey → Time} {s' : Server}
      (htime : ∀ k ∈ (t.s.conn.table.shard i).keys, t.s.now ≤ clock k)
      (hread : ∀ k ∈ (t.s.conn.table.shard i).keys, clock k ≤ s'.now)
      (hconn : s'.conn = t.s.conn.drop i (t.s.conn.expired i clock))
      (hcap : s'.captures = t.s.captures) (hacc : s'.accepts = t.s.accepts)
      (hnow : t.s.now ≤ s'.now) :
      TrackedStep t (.sweep i clock)
        { t with s := s', owed := t.owed.filter fun u => !t.outlived i clock u }
  | close {s' : Server} (hconn : s'.conn = { t.s.conn with die := true }) :
      TrackedStep t .close { t with s := s', owed := [] }
  | wipe {i : Nat} {s' : Server} (hdie : t.s.conn.die = true) (hdie' : s'.conn.die = true)
      (hflows : s'.conn.flows = t.s.conn.flows) : TrackedStep t (.wipe i) { t with s := s' }

theorem Server.Rest.erase (s : Server) (i : Nat) {conn : TcpConn} {log : List LogEntry} :
    s.Rest { s with conn, captures := s.captures.eraseIdx i, log } :=
  ⟨fun _ hc _ => List.mem_of_mem_eraseIdx hc, fun _ => id, Nat.le_refl _⟩

/-- **What a step can do.** -/
theorem trackedStep (hs : t.step e = some t') : TrackedStep t e t' := by
  obtain ⟨htime, s', hs', rfl⟩ := tracked_cases hs
  cases serverStep hs' with
  | tick hle => exact .quiet rfl rfl rfl ⟨fun _ hc _ => hc, fun _ => id, hle⟩
  | otherPort => exact .quiet rfl rfl rfl ⟨fun _ hc _ => hc, fun _ => id, Nat.le_refl _⟩
  | capture =>
    refine .fetch rfl rfl (fun c hc => ?_) fun a ha => .inl ha
    rcases List.mem_append.1 hc with hc | hc
    · exact .inl hc
    · cases List.mem_singleton.1 hc
      exact .inr ⟨rfl, rfl⟩
  | update hc hst =>
    simp only [Tracked.record, hc]
    refine .update hc hst rfl ⟨fun c' hc' hst' => ?_, fun _ => id, Nat.le_refl _⟩
    -- the segment itself is past its update
    rcases List.mem_or_eq_of_mem_set hc' with hc' | rfl
    · exact hc'
    · cases hst'
  | @push i => exact .quiet rfl rfl rfl (.erase t.s i)
  | @discard i => exact .quiet rfl rfl rfl (.erase t.s i)
  | accept =>
    refine .fetch rfl rfl (fun c hc => .inl hc) fun a ha => ?_
    rcases List.mem_append.1 ha with ha | ha
    · exact .inl ha
    · cases List.mem_singleton.1 ha
      exact .inr ⟨rfl, rfl⟩
  | bind ha =>
    simp only [Tracked.record, ha]
    exact .bind ha rfl ⟨fun _ hc _ => hc, fun _ => List.mem_of_mem_eraseIdx, Nat.le_refl _⟩
  | @sweep i clock =>
    obtain ⟨hnow, hread⟩ := le_foldl_max clock (t.s.conn.table.shard i).keys t.s.now
    exact .sweep (of_decide_eq_true htime) hread rfl rfl rfl hnow
  | close => exact .close rfl
  | wipe hdie => exact .wipe hdie hdie rfl
  | read => exact .quiet rfl rfl rfl ⟨fun _ hc _ => hc, fun _ => id, Nat.le_refl _⟩

/-! ## Every run -/

/-- The invariant of all runs: a connection that was recorded is owed, while its entry is in the
table, for a minute. -/
structure Tracking (t : Tracked) : Prop where
  gate : Gate t.s
  valid : ∀ b ∈ t.boundAt, t.s.conn.flows[b.1]? ≠ none
  bound : t.s.conn.die = false → ∀ b ∈ t.boundAt, ∀ k, t.s.conn.table.lookup k = some b.1 →
    ⟨k, b.1, b.2⟩ ∈ t.owed ∨ b.2 + expire < t.s.now

theorem tracking_new (sharding : Nat) (pos : 0 < sharding) (now : Time) :
    Tracking (Tracked.new sharding pos now) where
  gate := gate_new sharding pos now
  valid _ h := by cases h
  bound _ _ h := by cases h

theorem gate_tracked (h : Gate t.s) (hs : t.step e = some t') : Gate t'.s := by
  obtain ⟨-, s', hs', rfl⟩ := tracked_cases hs
  have hgate := gate_step h hs'
  cases e with
  | sweep i clock =>
    exact hgate.finish _ (fun _ => id) (fun _ => id) (fun _ _ => id) (fun _ => id) (fun _ _ => id)
      hgate.channel hgate.log
  | update i =>
    simp only [Tracked.record]
    split <;> exact hgate
  | bind i =>
    simp only [Tracked.record]
    split <;> exact hgate
  | _ => exact hgate

theorem mem_owe {u v : Update} : u ∈ t.owe v ↔ u ∈ t.owed ∨ t.s.conn.die = false ∧ u = v := by
  unfold Tracked.owe
  cases t.s.conn.die <;> simp [or_comm]

theorem modifyFlow_ne_none {conn : TcpConn} {i j : Nat} {g : TcpFlow → TcpFlow}
    (h : conn.flows[i]? ≠ none) : (conn.modifyFlow j g).flows[i]? ≠ none := by
  rw [TcpConn.getElem?_modifyFlow]
  split
  · simpa using h
  · exact h

theorem lockflow_ne_none {conn : TcpConn} {i : Nat} {key : AddrKey} {now : Time}
    (h : conn.flows[i]? ≠ none) : (conn.lockflow key now).2.flows[i]? ≠ none := by
  obtain ⟨x, hx⟩ := Option.ne_none_iff_exists'.1 h
  rw [TcpConn.lockflow_flow hx]
  exact Option.some_ne_none x

theorem Tracking.valid_step (h : Tracking t) (hs : t.step e = some t') :
    ∀ b ∈ t'.boundAt, t'.s.conn.flows[b.1]? ≠ none := by
  cases trackedStep hs with
  | quiet _ hflows => exact fun b hb => hflows ▸ h.valid b hb
  | fetch hconn => exact fun b hb => hconn ▸ lockflow_ne_none (h.valid b hb)
  | update _ _ hconn => exact fun b hb => hconn ▸ modifyFlow_ne_none (h.valid b hb)
  | bind ha hconn =>
    intro b hb
    dsimp only
    rw [hconn]
    apply modifyFlow_ne_none
    rcases List.mem_cons.1 hb with rfl | hb
    · obtain ⟨⟨flow, hflow⟩, -⟩ := h.gate.accept _ (List.mem_of_getElem? ha)
      rw [hflow]
      exact Option.some_ne_none _
    · exact h.valid b hb
  | sweep _ _ hconn => exact fun b hb => hconn ▸ h.valid b hb
  | close hconn => exact fun b hb => hconn ▸ h.valid b hb
  | wipe _ _ hflows => exact fun b hb => hflows ▸ h.valid b hb

/-- A sweep forgets an update only after the minute is over. -/
theorem Tracking.bound_sweep (h : Tracking t) {i : Nat} {clock : AddrKey → Time} {s' : Server}
    (hread : ∀ k ∈ (t.s.conn.table.shard i).keys, clock k ≤ s'.now)
    (hconn : s'.conn = t.s.conn.drop i (t.s.conn.expired i clock)) (hnow : t.s.now ≤ s'.now) :
    s'.conn.die = false → ∀ b ∈ t.boundAt, ∀ k, s'.conn.table.lookup k = some b.1 →
      ⟨k, b.1, b.2⟩ ∈ t.owed.filter (fun u => !t.outlived i clock u) ∨ b.2 + expire < s'.now := by
  intro hopen b hb k hk
  rw [hconn] at hopen hk
  have hk := lookup_of_sweep hk
  rcases h.bound hopen b hb k hk with hmem | hlt
  · by_cases hout : t.outlived i clock ⟨k, b.1, b.2⟩ = true
    · -- the sweep has read the clock for this key
      obtain ⟨hi, hlt⟩ := of_decide_eq_true hout
      have hkeys : k ∈ (t.s.conn.table.shard i).keys := AList.mem_keys.1
        (AList.mem_keys.2 (List.mem_map_of_mem (FlowTable.mem_entries.2 ⟨hi, hk⟩)))
      exact .inr (Nat.lt_of_lt_of_le hlt (hread k hkeys))
    · refine .inl (List.mem_filter.2 ⟨hmem, ?_⟩)
      simpa using hout
  · exact .inr (Nat.lt_of_lt_of_le hlt hnow)

theorem Tracking.bound_step (h : Tracking t) (hs : t.step e = some t') :
    t'.s.conn.die = false → ∀ b ∈ t'.boundAt, ∀ k, t'.s.conn.table.lookup k = some b.1 →
      ⟨k, b.1, b.2⟩ ∈ t'.owed ∨ b.2 + expire < t'.s.now := by
  cases trackedStep hs with
  | quiet htable hflows hdie hrest =>
    intro hopen b hb k hk
    rw [hdie] at hopen
    rw [htable] at hk
    exact (h.bound hopen b hb k hk).imp_right fun hlt => Nat.lt_of_lt_of_le hlt hrest.now
  | fetch hconn hnow =>
    intro hopen b hb k hk
    rw [hconn, TcpConn.die_lockflow] at hopen
    rw [hconn] at hk
    rw [hnow]
    -- a recorded entry is not a new one
    rcases TcpConn.lookup_or_fresh hk with hk | ⟨hnone, -⟩
    · exact h.bound hopen b hb k hk
    · exact absurd hnone (h.valid b hb)
  | update _ _ hconn hrest =>
    intro hopen b hb k hk
    rw [hconn] at hopen hk
    rcases h.bound hopen b hb k hk with hmem | hlt
    · exact .inl (mem_owe.2 (.inl hmem))
    · exact .inr (Nat.lt_of_lt_of_le hlt hrest.now)
  | @bind i a s' ha hconn hrest =>
    intro hopen b hb k hk
    have htable : s'.conn.table.lookup k = t.s.conn.table.lookup k := by rw [hconn]; rfl
    rw [hconn] at hopen
    rw [htable] at hk
    rcases List.mem_cons.1 hb with rfl | hb
    · -- the entry is that of the connection's key
      have hkey : k = a.key :=
        (h.gate.entry k a.entry hk).unique (h.gate.accept a (List.mem_of_getElem? ha)).1
      exact .inl (mem_owe.2 (.inr ⟨hopen, by rw [hkey]⟩))
    · rcases h.bound hopen b hb k hk with hmem | hlt
      · exact .inl (mem_owe.2 (.inl hmem))
      · exact .inr (Nat.lt_of_lt_of_le hlt hrest.now)
  | sweep _ hread hconn _ _ hnow => exact h.bound_sweep hread hconn hnow
  | close hconn =>
    intro hopen
    rw [hconn] at hopen
    cases hopen
  | wipe _ hdie =>
    intro hopen
    rw [hdie] at hopen
    cases hopen

theorem tracking_step (h : Tracking t) (hs : t.step e = some t') : Tracking t' :=
  ⟨gate_tracked h.gate hs, h.valid_step hs, h.bound_step hs⟩

theorem tracking_of_reachable (h : t.Reachable) : Tracking t := by
  refine Reach.invariant ?_ ?_ h
  · rintro t ⟨sharding, pos, now, rfl⟩
    exact tracking_new sharding pos now
  · exact fun t e t' h hs => tracking_step h hs

/-! ## Careful runs -/

/-- The entry of an update was touched since, or a connection was recorded in it. -/
def Tracked.Touched (t : Tracked) (u : Update) : Prop :=
  (∀ x, t.s.conn.flows[u.entry]? = some x → u.time ≤ x.2.ts) ∨ (u.entry, u.time) ∈ t.boundAt

/-- The invariant of careful runs: before `Close`, what was fetched is in the table. -/
structure Steady (t : Tracked) : Prop where
  kept : t.Kept
  fetched : t.s.conn.die = false → ∀ c ∈ t.s.captures, c.stage = .fetched →
    t.s.conn.table.lookup c.key = some c.entry
  accepted : t.s.conn.die = false → ∀ a ∈ t.s.accepts,
    t.s.conn.table.lookup a.key = some a.entry
  past : ∀ u ∈ t.owed, u.time ≤ t.s.now
  touched : ∀ u ∈ t.owed, t.Touched u
  closed : t.s.conn.die = true → t.owed = []

theorem steady_new (sharding : Nat) (pos : 0 < sharding) (now : Time) :
    Steady (Tracked.new sharding pos now) where
  kept _ h := by cases h
  fetched _ _ h := by cases h
  accepted _ _ h := by cases h
  past _ h := by cases h
  touched _ h := by cases h
  closed _ := rfl

/-- **An update that is owed survives a careful sweep**, as the sweep finds its entry stale only if
the update is more than a minute old. -/
theorem Steady.survives (h : Steady t) {i : Nat} {clock : AddrKey → Time}
    (hc : t.Careful (.sweep i clock)) {u : Update} (hu : u ∈ t.owed)
    (hout : t.outlived i clock u = false) :
    (t.s.conn.drop i (t.s.conn.expired i clock)).table.lookup u.key = some u.entry := by
  apply lookup_sweep_of (h.kept u hu)
  intro hi
  by_contra hstale
  have hstale : t.s.conn.stale (clock u.key) u.entry = true := by simpa using hstale
  have hdie : t.s.conn.die = false := by
    cases hd : t.s.conn.die with
    | false => rfl
    | true =>
      rw [h.closed hd] at hu
      cases hu
  have hlate : u.time + expire < clock u.key := by
    rcases h.touched u hu with hts | hbound
    · unfold TcpConn.stale staleIn at hstale
      split at hstale
      · rename_i k flow hflow
        have hle : u.time ≤ flow.ts := hts _ hflow
        exact Nat.lt_of_le_of_lt (Nat.add_le_add_right hle _) (of_decide_eq_true hstale)
      · cases hstale
    · have hexp := mem_expired.2 ⟨hi, h.kept u hu, hstale⟩
      exact (hc hdie _ hexp).2 _ hbound rfl
  have : t.outlived i clock u = true := decide_eq_true ⟨hi, hlate⟩
  rw [hout] at this
  cases this

theorem held_survives {i : Nat} {clock : AddrKey → Time} (hc : t.Careful (.sweep i clock))
    (hdie : t.s.conn.die = false) {k : AddrKey} {e : Nat}
    (hk : t.s.conn.table.lookup k = some e) (hheld : t.s.Held e) :
    (t.s.conn.drop i (t.s.conn.expired i clock)).table.lookup k = some e := by
  apply lookup_sweep_of hk
  intro hi
  by_contra hstale
  exact (hc hdie _ (mem_expired.2 ⟨hi, hk, by simpa using hstale⟩)).1 hheld

/-- A step that leaves the table as it is: what is owed after it was owed before, or is an update of
the entry at its key. -/
theorem Steady.move (h : Steady t) {s' : Server} {owed' : List Update}
    {boundAt' : List (Nat × Time)} (htable : s'.conn.table = t.s.conn.table)
    (hdie : s'.conn.die = t.s.conn.die) (hrest : t.s.Rest s')
    (howed : ∀ u ∈ owed', u ∈ t.owed ∨ t.s.conn.die = false ∧ u.time = t.s.now ∧
      t.s.conn.table.lookup u.key = some u.entry)
    (htouched : ∀ u ∈ owed', Tracked.Touched ⟨s', owed', boundAt'⟩ u) :
    Steady ⟨s', owed', boundAt'⟩ := by
  refine ⟨fun u hu => ?_, fun hopen c hc hst => ?_, fun hopen a ha => ?_, fun u hu => ?_, htouched,
    fun hclosed => ?_⟩
  · dsimp only
    rw [htable]
    rcases howed u hu with hu | ⟨-, -, hu⟩
    · exact h.kept u hu
    · exact hu
  · dsimp only at hopen ⊢
    rw [hdie] at hopen
    rw [htable]
    exact h.fetched hopen c (hrest.captures c hc hst) hst
  · dsimp only at hopen ⊢
    rw [hdie] at hopen
    rw [htable]
    exact h.accepted hopen a (hrest.accepts a ha)
  · rcases howed u hu with hu | ⟨-, hu, -⟩
    · exact Nat.le_trans (h.past u hu) hrest.now
    · exact hu ▸ hrest.now
  · dsimp only at hclosed
    rw [hdie] at hclosed
    refine List.eq_nil_iff_forall_not_mem.2 fun u hu => ?_
    rcases howed u hu with hu | ⟨hopen, -⟩
    · rw [h.closed hclosed] at hu
      cases hu
    · rw [hclosed] at hopen
      cases hopen

/-- An update of an entry at the present time leaves the older ones touched. -/
theorem touched_capture (h : Steady t) {s' : Server} {owed' : List Update} {j : Nat} {tcp : Segment}
    {handle : Nat}
    (hconn : s'.conn = t.s.conn.modifyFlow j fun f => f.capture tcp handle t.s.now) {u : Update}
    (hu : u ∈ t.owed ∨ u.entry = j ∧ u.time = t.s.now) :
    Tracked.Touched ⟨s', owed', t.boundAt⟩ u := by
  by_cases hj : u.entry = j
  · -- the entry's `ts` is now
    left
    intro x hx
    rw [hconn, TcpConn.getElem?_modifyFlow, if_pos hj] at hx
    obtain ⟨y, -, rfl⟩ := Option.map_eq_some_iff.1 hx
    have hpast : u.time ≤ t.s.now := hu.elim (h.past u) fun hu => Nat.le_of_eq hu.2
    rw [TcpFlow.capture_ts]
    exact hpast
  · refine (h.touched u (hu.resolve_right fun hu => hj hu.1)).imp_left fun hts x hx => ?_
    rw [hconn, TcpConn.getElem?_modifyFlow, if_neg hj] at hx
    exact hts x hx

theorem touched_bind (h : Steady t) {s' : Server} {owed' : List Update} {j : Nat} {n : Nat}
    (hconn : s'.conn = t.s.conn.modifyFlow j fun f => { f with conn := some n }) {u : Update}
    (hu : u ∈ t.owed ∨ u.entry = j ∧ u.time = t.s.now) :
    Tracked.Touched ⟨s', owed', (j, t.s.now) :: t.boundAt⟩ u := by
  rcases hu with hu | ⟨rfl, hu⟩
  · rcases h.touched u hu with hts | hbound
    · left
      intro x hx
      rw [hconn, TcpConn.getElem?_modifyFlow] at hx
      split at hx
      · obtain ⟨y, hy, rfl⟩ := Option.map_eq_some_iff.1 hx
        exact hts y hy
      · exact hts x hx
    · exact .inr (List.mem_cons_of_mem _ hbound)
  · right
    rw [hu]
    exact List.mem_cons_self

theorem Steady.fetch (h : Steady t) {s' : Server} {key : AddrKey}
    (hconn : s'.conn = (t.s.conn.lockflow key t.s.now).2) (hnow : s'.now = t.s.now)
    (hcap : ∀ c ∈ s'.captures, c ∈ t.s.captures ∨
      c.key = key ∧ c.entry = (t.s.conn.lockflow key t.s.now).1)
    (hacc : ∀ a ∈ s'.accepts, a ∈ t.s.accepts ∨
      a.key = key ∧ a.entry = (t.s.conn.lockflow key t.s.now).1) :
    Steady { t with s := s' } := by
  have hself : s'.conn.table.lookup key = some (t.s.conn.lockflow key t.s.now).1 := by
    rw [hconn, TcpConn.lookup_lockflow, if_pos rfl]
  have hkeep : ∀ k e, t.s.conn.table.lookup k = some e → s'.conn.table.lookup k = some e := by
    intro k e hk
    rw [hconn]
    exact lookup_lockflow_of hk
  have hdie : s'.conn.die = t.s.conn.die := by rw [hconn, TcpConn.die_lockflow]
  refine ⟨fun u hu => hkeep _ _ (h.kept u hu), fun hopen c hc hst => ?_, fun hopen a ha => ?_,
    fun u hu => ?_, fun u hu => ?_, fun hclosed => h.closed (hdie ▸ hclosed)⟩
  · rcases hcap c hc with hc | ⟨hkey, hentry⟩
    · exact hkeep _ _ (h.fetched (hdie ▸ hopen) c hc hst)
    · rw [hkey, hentry]
      exact hself
  · rcases hacc a ha with ha | ⟨hkey, hentry⟩
    · exact hkeep _ _ (h.accepted (hdie ▸ hopen) a ha)
    · rw [hkey, hentry]
      exact hself
  · dsimp only
    rw [hnow]
    exact h.past u hu
  · refine (h.touched u hu).imp_left fun hts x hx => ?_
    rw [hconn] at hx
    obtain ⟨⟨-, hf⟩ | ⟨-, -, hf⟩, -⟩ := t.s.conn.lockflow_cases key t.s.now
    · rw [hf] at hx
      exact hts x hx
    · rw [hf, List.getElem?_append] at hx
      split at hx
      · exact hts x hx
      · -- a new entry is as new as can be
        cases List.mem_singleton.1 (List.mem_of_getElem? hx)
        exact h.past u hu

theorem Steady.sweep (h : Steady t) {s' : Server} {i : Nat} {clock : AddrKey → Time}
    (hc : t.Careful (.sweep i clock))
    (hconn : s'.conn = t.s.conn.drop i (t.s.conn.expired i clock))
    (hcap : s'.captures = t.s.captures) (hacc : s'.accepts = t.s.accepts)
    (hnow : t.s.now ≤ s'.now) :
    Steady { t with s := s', owed := t.owed.filter fun u => !t.outlived i clock u } := by
  have hdie : s'.conn.die = t.s.conn.die := by rw [hconn]; rfl
  have hflows : s'.conn.flows = t.s.conn.flows := by rw [hconn]; rfl
  refine ⟨fun u hu => ?_, fun hopen c hmem hst => ?_, fun hopen a ha => ?_, fun u hu => ?_,
    fun u hu => ?_, fun hclosed => ?_⟩
  · obtain ⟨hu, hout⟩ := List.mem_filter.1 hu
    dsimp only
    rw [hconn]
    exact h.survives hc hu (by simpa using hout)
  · dsimp only at hopen hmem ⊢
    rw [hdie] at hopen
    rw [hcap] at hmem
    rw [hconn]
    exact held_survives hc hopen (h.fetched hopen c hmem hst) (.inl ⟨c, hmem, hst, rfl⟩)
  · dsimp only at hopen ha ⊢
    rw [hdie] at hopen
    rw [hacc] at ha
    rw [hconn]
    exact held_survives hc hopen (h.accepted hopen a ha) (.inr ⟨a, ha, rfl⟩)
  · exact Nat.le_trans (h.past u (List.mem_filter.1 hu).1) hnow
  · refine (h.touched u (List.mem_filter.1 hu).1).imp_left fun hts x hx => hts x ?_
    rw [← hflows]
    exact hx
  · dsimp only at hclosed ⊢
    rw [hdie] at hclosed
    rw [h.closed hclosed]
    rfl

theorem steady_closed {s' : Server} (boundAt' : List (Nat × Time)) (hdie : s'.conn.die = true) :
    Steady ⟨s', [], boundAt'⟩ := by
  have hopen : ¬ s'.conn.die = false := by simp [hdie]
  refine ⟨fun u hu => ?_, fun h => absurd h hopen, fun h => absurd h hopen, fun u hu => ?_,
    fun u hu => ?_, fun _ => rfl⟩ <;> cases hu

theorem steady_step (h : Steady t) (hs : t.step e = some t') (hc : t.Careful e) : Steady t' := by
  cases trackedStep hs with
  | quiet htable hflows hdie hrest =>
    refine h.move htable hdie hrest (fun u hu => .inl hu) fun u hu => ?_
    refine (h.touched u hu).imp_left fun hts x hx => hts x ?_
    rw [← hflows]
    exact hx
  | fetch hconn hnow hcap hacc => exact h.fetch hconn hnow hcap hacc
  | @update i c s' hcap hst hconn hrest =>
    have hown : ∀ u ∈ t.owe ⟨c.key, c.entry, t.s.now⟩,
        u ∈ t.owed ∨ t.s.conn.die = false ∧ u = ⟨c.key, c.entry, t.s.now⟩ := fun u => mem_owe.1
    refine h.move (by rw [hconn]; rfl) (by rw [hconn]; rfl) hrest (fun u hu => ?_) fun u hu => ?_
    · refine (hown u hu).imp_right fun hu => ?_
      obtain ⟨hopen, rfl⟩ := hu
      exact ⟨hopen, rfl, h.fetched hopen c (List.mem_of_getElem? hcap) hst⟩
    · refine touched_capture h hconn ((hown u hu).imp_right fun hu => ?_)
      obtain ⟨-, rfl⟩ := hu
      exact ⟨rfl, rfl⟩
  | @bind i a s' ha hconn hrest =>
    have hown : ∀ u ∈ t.owe ⟨a.key, a.entry, t.s.now⟩,
        u ∈ t.owed ∨ t.s.conn.die = false ∧ u = ⟨a.key, a.entry, t.s.now⟩ := fun u => mem_owe.1
    refine h.move (by rw [hconn]; rfl) (by rw [hconn]; rfl) hrest (fun u hu => ?_) fun u hu => ?_
    · refine (hown u hu).imp_right fun hu => ?_
      obtain ⟨hopen, rfl⟩ := hu
      exact ⟨hopen, rfl, h.accepted hopen a (List.mem_of_getElem? ha)⟩
    · refine touched_bind h hconn ((hown u hu).imp_right fun hu => ?_)
      obtain ⟨-, rfl⟩ := hu
      exact ⟨rfl, rfl⟩
  | sweep htime hread hconn hcap hacc hnow => exact h.sweep hc hconn hcap hacc hnow
  | close hconn => exact steady_closed _ (by rw [hconn])
  | wipe hdie hdie' hflows =>
    have hclosed := steady_closed t.boundAt hdie'
    rw [← h.closed hdie] at hclosed
    exact hclosed

theorem steady_of_careful (h : t.CarefullyReachable) : Steady t := by
  refine Reach.invariant ?_ ?_ h
  · rintro t ⟨sharding, pos, now, rfl⟩
    exact steady_new sharding pos now
  · intro t e t' h hs
    unfold Tracked.stepCarefully at hs
    split at hs
    · rename_i hc
      exact steady_step h hs hc
    · cases hs

/-! ## The races -/

theorem sweep_step {i : Nat} {clock : AddrKey → Time} (hs : t.step (.sweep i clock) = some t') :
    (∀ k ∈ (t.s.conn.table.shard i).keys, t.s.now ≤ clock k) ∧
      t'.s.conn = t.s.conn.drop i (t.s.conn.expired i clock) ∧ t'.s.captures = t.s.captures ∧
      t'.s.accepts = t.s.accepts ∧ t'.owed = t.owed.filter fun u => !t.outlived i clock u := by
  obtain ⟨htime, s', hs', rfl⟩ := tracked_cases hs
  cases hs'
  exact ⟨of_decide_eq_true htime, rfl, rfl, rfl, rfl⟩

/-- What the sweep finds expired is out of the table. -/
theorem lookup_expired {conn : TcpConn} {i e : Nat} {clock : AddrKey → Time} {k : AddrKey}
    (h : ⟨k, e⟩ ∈ conn.expired i clock) :
    (conn.drop i (conn.expired i clock)).table.lookup k = none := by
  obtain ⟨hi, hlook, hstale⟩ := mem_expired.1 h
  rw [TcpConn.lookup_sweep, if_pos hi, hlook, Option.filter_some, hstale]
  rfl

theorem lost_of_gone {s' : Server} {u : Update} (hopen : t.s.conn.die = false)
    (htable : s'.conn.table = t.s.conn.table) (hgone : t.s.conn.table.lookup u.key = none)
    (boundAt' : List (Nat × Time)) : ¬ Tracked.Kept ⟨s', t.owe u, boundAt'⟩ := by
  intro hkept
  have hlook : s'.conn.table.lookup u.key = some u.entry := hkept u (mem_owe.2 (.inr ⟨hopen, rfl⟩))
  rw [htable, hgone] at hlook
  cases hlook

theorem update_lost (hopen : t.s.conn.die = false) {c : Capture} (hc : c ∈ t.s.captures)
    (hst : c.stage = .fetched) (hgone : t.s.conn.table.lookup c.key = none) :
    ∃ e' t', t.step e' = some t' ∧ ¬ t'.Kept := by
  obtain ⟨j, hj⟩ := List.getElem?_of_mem hc
  obtain ⟨s', hs', htable⟩ : ∃ s', t.s.step (.update j) = some s' ∧
      s'.conn.table = t.s.conn.table := by
    simp only [Server.step, hj, hst, if_true]
    exact ⟨_, rfl, rfl⟩
  refine ⟨.update j, t.record s' (.update j), ?_, ?_⟩
  · rw [Tracked.step, hs']
    rfl
  · simp only [Tracked.record, hj]
    exact lost_of_gone hopen htable hgone _

theorem bind_lost (hopen : t.s.conn.die = false) {a : Accept} (ha : a ∈ t.s.accepts)
    (hgone : t.s.conn.table.lookup a.key = none) :
    ∃ e' t', t.step e' = some t' ∧ ¬ t'.Kept := by
  obtain ⟨j, hj⟩ := List.getElem?_of_mem ha
  obtain ⟨s', hs', htable⟩ : ∃ s', t.s.step (.bind j) = some s' ∧
      s'.conn.table = t.s.conn.table := by
    simp only [Server.step, hj]
    exact ⟨_, rfl, rfl⟩
  refine ⟨.bind j, t.record s' (.bind j), ?_, ?_⟩
  · rw [Tracked.step, hs']
    rfl
  · simp only [Tracked.record, hj]
    exact lost_of_gone hopen htable hgone _

/-- A sweep that removes a held entry: its update will be lost. -/
theorem race_held (h : Tracking t) {i : Nat} {clock : AddrKey → Time}
    (hs : t.step (.sweep i clock) = some t') (hopen : t.s.conn.die = false) {k : AddrKey} {e : Nat}
    (hexp : ⟨k, e⟩ ∈ t.s.conn.expired i clock) (hheld : t.s.Held e) :
    ∃ e' t'', t'.step e' = some t'' ∧ ¬ t''.Kept := by
  obtain ⟨-, hconn, hcap, hacc, -⟩ := sweep_step hs
  have hopen' : t'.s.conn.die = false := by rw [hconn]; exact hopen
  have hgone : t'.s.conn.table.lookup k = none := by rw [hconn]; exact lookup_expired hexp
  have howns : t.s.conn.Owns e k := h.gate.entry k e (mem_expired.1 hexp).2.1
  rcases hheld with ⟨c, hc, hst, rfl⟩ | ⟨a, ha, rfl⟩
  · have hkey : c.key = k := (h.gate.capture c hc).1.unique howns
    exact update_lost hopen' (hcap ▸ hc) hst (hkey ▸ hgone)
  · have hkey : a.key = k := (h.gate.accept a ha).1.unique howns
    exact bind_lost hopen' (hacc ▸ ha) (hkey ▸ hgone)

/-- A sweep that removes an entry within a minute of the record of a connection: the record is
lost. -/
theorem race_bound (h : Tracking t) {i : Nat} {clock : AddrKey → Time}
    (hs : t.step (.sweep i clock) = some t') (hopen : t.s.conn.die = false) {k : AddrKey} {e : Nat}
    (hexp : ⟨k, e⟩ ∈ t.s.conn.expired i clock) {b : Nat × Time} (hb : b ∈ t.boundAt)
    (hbe : b.1 = e) (hearly : clock k ≤ b.2 + expire) : ¬ t'.Kept := by
  obtain ⟨htime, hconn, -, -, howed⟩ := sweep_step hs
  obtain ⟨hi, hlook, -⟩ := mem_expired.1 hexp
  have hread : t.s.now ≤ clock k :=
    htime k (List.mem_map_of_mem (FlowTable.mem_entries.2 ⟨hi, hlook⟩))
  subst hbe
  rcases h.bound hopen b hb k hlook with hmem | hpast
  · intro hkept
    have hstill : ⟨k, b.1, b.2⟩ ∈ t'.owed := by
      rw [howed]
      refine List.mem_filter.2 ⟨hmem, ?_⟩
      simp only [Tracked.outlived, Nat.not_lt.2 hearly, and_false, decide_false, Bool.not_false]
    have hkeep := hkept _ hstill
    rw [hconn, lookup_expired hexp] at hkeep
    cases hkeep
  · exact absurd hpast (Nat.not_lt.2 (Nat.le_trans hread hearly))

/-- **No update is lost to the cleaner**, in every run whose sweeps remove no entry that is held and
none in which a connection was recorded within the last minute. After any other sweep before
`Close`, an update is lost, or is lost as soon as it is finished. -/
theorem updates_kept (t : Tracked) :
    (t.CarefullyReachable → t.Kept) ∧
      (t.Reachable → ∀ e t', t.step e = some t' → ¬ t.Careful e →
        ¬ t'.Kept ∨ ∃ e' t'', t'.step e' = some t'' ∧ ¬ t''.Kept) := by
  refine ⟨fun h => (steady_of_careful h).kept, fun h e t' hs hc => ?_⟩
  have htrack := tracking_of_reachable h
  unfold Tracked.Careful at hc
  split at hc
  · rename_i i clock
    push Not at hc
    obtain ⟨hopen, x, hx, hc⟩ := hc
    by_cases hheld : t.s.Held x.2
    · exact .inr (race_held htrack hs hopen hx hheld)
    · obtain ⟨b, hb, hbe, hearly⟩ := hc hheld
      exact .inl (race_bound htrack hs hopen hx hb hbe hearly)
  · exact absurd trivial hc

end

/-- A peer connects at the start, and sends a segment after half a minute; a sweep at 61 seconds
leaves the entry where it is. -/
theorem updates_kept_minute : ∃ t, exec Tracked.stepCarefully
      [.accept gatePeer 7, .bind 0, .tick (30 * second), .capture 80 0 0x0a000001 gateSegment,
        .update 0, .sweep 0 fun _ => 61 * second] (.new 1 Nat.one_pos 0) = some t ∧
    t.owed = [⟨gatePeer, 0, 30 * second⟩] ∧ t.s.conn.table.lookup gatePeer = some 0 := by
  have hrun : (exec Tracked.stepCarefully [.accept gatePeer 7, .bind 0, .tick (30 * second),
      .capture 80 0 0x0a000001 gateSegment, .update 0, .sweep 0 fun _ => 61 * second]
      (.new 1 Nat.one_pos 0)).map (·.owed) = some [⟨gatePeer, 0, 30 * second⟩] := by
    decide +kernel
  obtain ⟨t, ht, howed⟩ := Option.map_eq_some_iff.1 hrun
  have hreach : t.CarefullyReachable :=
    Reach.exec (fun _ _ _ h => h) (.init ⟨1, Nat.one_pos, 0, rfl⟩) ht
  refine ⟨t, ht, howed, (updates_kept t).1 hreach ⟨gatePeer, 0, 30 * second⟩ ?_⟩
  rw [howed]
  exact List.mem_cons_self

/-- **Two updates that are lost.** The peer connects at the start and sends after 61 seconds: a
sweep between the segment's `lockflow` and its update removes the entry and closes the connection.
And a second connection of the peer, recorded at 59 seconds, is closed by a sweep at 61 seconds. -/
theorem updates_lost :
    (∃ t, exec Tracked.step [.accept gatePeer 7, .bind 0, .tick (61 * second),
          .capture 80 0 0x0a000001 gateSegment, .sweep 0 fun _ => 61 * second, .update 0]
        (.new 1 Nat.one_pos 0) = some t ∧
      (t.s.conn.table.lookup gatePeer, t.owed, t.s.conn.closed) =
        (none, [⟨gatePeer, 0, 61 * second⟩], [7])) ∧
      ∃ t, exec Tracked.step [.accept gatePeer 7, .bind 0, .tick (59 * second),
          .accept gatePeer 8, .bind 0, .sweep 0 fun _ => 61 * second]
        (.new 1 Nat.one_pos 0) = some t ∧
      (t.s.conn.table.lookup gatePeer, t.owed, t.s.conn.closed) =
        (none, [⟨gatePeer, 0, 59 * second⟩], [8]) := by
  refine ⟨?_, ?_⟩
  · exact Option.map_eq_some_iff.1 (by decide +kernel)
  · exact Option.map_eq_some_iff.1 (by decide +kernel)

end Tcpraw
