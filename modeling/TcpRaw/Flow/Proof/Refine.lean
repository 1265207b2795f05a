import TcpRaw.Flow.Flat

/-!
# The sharded flow table refines one map

`Refines conn flat`: the shards of `conn`, looked up by key, are the map of `flat`, the entries are
the same, and so is the set of closed kernel connections. Each operation keeps it and returns the
same (`Refines.op`), for any number of shards; a mask that is not one less than a power of two
leaves shards unused, which no lookup notices. `run_refines` is the result for whole runs.

A tick of the cleaner and the end of `Close` go through all shards: `dropShards_spec` says what
dropping entries shard by shard leaves, and `FlatConn.drop` leaves the same of one map.
-/

namespace Tcpraw

open GoRt

section
variable {conn : TcpConn} {flat : FlatConn}

/-- A kernel connection of an entry that the table has and `p` chooses. -/
def Chosen (lookup : AddrKey → Option Nat) (flows : List (AddrKey × TcpFlow))
    (p : AddrKey → Nat → Bool) (c : Nat) : Prop :=
  ∃ k e, lookup k = some e ∧ p k e = true ∧ (flows[e]?).bind (·.2.conn) = some c

theorem mem_connsOf_filter {flows : List (AddrKey × TcpFlow)} {es : List ((_ : AddrKey) × Nat)}
    {p : AddrKey → Nat → Bool} {c : Nat} :
    c ∈ connsOf flows (es.filter fun e => p e.1 e.2) ↔
      ∃ k e, ⟨k, e⟩ ∈ es ∧ p k e = true ∧ (flows[e]?).bind (·.2.conn) = some c := by
  rw [connsOf, List.mem_filterMap]
  constructor
  · rintro ⟨⟨k, e⟩, he, hc⟩
    obtain ⟨he, hp⟩ := List.mem_filter.1 he
    exact ⟨k, e, he, hp, hc⟩
  · rintro ⟨k, e, he, hp, hc⟩
    exact ⟨⟨k, e⟩, List.mem_filter.2 ⟨he, hp⟩, hc⟩

/-! ## Dropping entries -/

/-- What `dropShards p is` leaves of `conn`. -/
structure Dropped (p : AddrKey → Nat → Bool) (is : List Nat) (conn conn' : TcpConn) : Prop where
  flows : conn'.flows = conn.flows
  die : conn'.die = conn.die
  sharding : conn'.table.sharding = conn.table.sharding
  lookup : ∀ k, conn'.table.lookup k =
    if shardOf conn.table.sharding k ∈ is then (conn.table.lookup k).filter fun e => !p k e
    else conn.table.lookup k
  closed : ∀ c, c ∈ conn'.closed ↔ c ∈ conn.closed ∨
    ∃ k e, shardOf conn.table.sharding k ∈ is ∧ conn.table.lookup k = some e ∧ p k e = true ∧
      (conn.flows[e]?).bind (·.2.conn) = some c

theorem dropShard_spec (p : AddrKey → Nat → Bool) (i : Nat) (conn : TcpConn) :
    Dropped p [i] conn
      (conn.drop i ((conn.table.shard i).entries.filter fun e => p e.1 e.2)) where
  flows := rfl
  die := rfl
  sharding := rfl
  lookup k := by
    simp only [List.mem_singleton]
    exact conn.lookup_drop_filter i p k
  closed c := by
    simp only [List.mem_singleton]
    rw [TcpConn.drop, List.mem_append]
    apply or_congr_right
    rw [← connsOf, mem_connsOf_filter]
    simp only [FlowTable.mem_entries, and_assoc]

theorem Dropped.trans {p : AddrKey → Nat → Bool} {i : Nat} {is : List Nat}
    {conn₁ conn₂ conn₃ : TcpConn} (h : Dropped p [i] conn₁ conn₂) (h' : Dropped p is conn₂ conn₃) :
    Dropped p (i :: is) conn₁ conn₃ where
  flows := h'.flows.trans h.flows
  die := h'.die.trans h.die
  sharding := h'.sharding.trans h.sharding
  lookup k := by
    rw [h'.lookup, h.lookup, h.sharding]
    by_cases hi : shardOf conn₁.table.sharding k = i
    · simp [hi, Option.filter_filter]
    · simp [hi]
  closed c := by
    rw [h'.closed, h.closed, h.sharding, h.flows, or_assoc]
    apply or_congr_right
    constructor
    · rintro (⟨k, e, hi, hl, hp, hc⟩ | ⟨k, e, hi, hl, hp, hc⟩)
      · exact ⟨k, e, List.mem_cons.2 (.inl (List.mem_singleton.1 hi)), hl, hp, hc⟩
      · rw [h.lookup] at hl
        split at hl
        · exact ⟨k, e, List.mem_cons_of_mem _ hi, (Option.filter_eq_some_iff.1 hl).1, hp, hc⟩
        · exact ⟨k, e, List.mem_cons_of_mem _ hi, hl, hp, hc⟩
    · rintro ⟨k, e, hi, hl, hp, hc⟩
      rcases List.mem_cons.1 hi with hi | hi
      · exact .inl ⟨k, e, List.mem_singleton.2 hi, hl, hp, hc⟩
      by_cases hfirst : shardOf conn₁.table.sharding k = i
      · exact .inl ⟨k, e, List.mem_singleton.2 hfirst, hl, hp, hc⟩
      · refine .inr ⟨k, e, hi, ?_, hp, hc⟩
        rw [h.lookup, if_neg (by rwa [List.mem_singleton]), hl]

/-- **Dropping entries shard by shard.** -/
theorem dropShards_spec (p : List (AddrKey × TcpFlow) → AddrKey → Nat → Bool) :
    ∀ (is : List Nat) (conn : TcpConn), Dropped (p conn.flows) is conn (conn.dropShards p is)
  | [], conn => ⟨rfl, rfl, rfl, fun k => by simp [TcpConn.dropShards], fun c => by
      simp [TcpConn.dropShards]⟩
  | i :: is, conn => by
    rw [TcpConn.dropShards, List.foldl_cons, ← TcpConn.dropShards]
    -- the choice is by the entries, which no sweep changes
    have hrest := dropShards_spec p is
      (conn.drop i ((conn.table.shard i).entries.filter fun e => p conn.flows e.1 e.2))
    exact (dropShard_spec (p conn.flows) i conn).trans hrest

theorem FlatConn.lookup_drop (flat : FlatConn) (p : AddrKey → Nat → Bool) (k : AddrKey) :
    (flat.drop p).table.lookup k = (flat.table.lookup k).filter fun e => !p k e := by
  rw [FlatConn.drop, GoMap.lookup_eraseAll]
  have hmem : k ∈ (flat.table.entries.filter fun e => p e.1 e.2).map (·.1) ↔
      ∃ e, flat.table.lookup k = some e ∧ p k e = true := by
    constructor
    · intro hk
      obtain ⟨⟨k', e⟩, he, rfl⟩ := List.mem_map.1 hk
      obtain ⟨he, hp⟩ := List.mem_filter.1 he
      exact ⟨e, AList.mem_lookup_iff.2 he, hp⟩
    · rintro ⟨e, he, hp⟩
      exact List.mem_map.2 ⟨⟨k, e⟩, List.mem_filter.2 ⟨AList.mem_lookup_iff.1 he, hp⟩, rfl⟩
  cases hl : flat.table.lookup k with
  | none => simp
  | some e => cases hp : p k e <;> simp [hmem, hl, hp, Option.filter_some]

theorem FlatConn.closed_drop (flat : FlatConn) (p : AddrKey → Nat → Bool) (c : Nat) :
    c ∈ (flat.drop p).closed ↔ c ∈ flat.closed ∨ Chosen flat.table.lookup flat.flows p c := by
  rw [FlatConn.drop, List.mem_append]
  apply or_congr_right
  rw [mem_connsOf_filter, Chosen]
  simp only [← AList.mem_lookup_iff, Option.mem_def]

/-! ## The refinement -/

/-- The shards, looked up by key, are the one map. -/
structure Refines (conn : TcpConn) (flat : FlatConn) : Prop where
  lookup : ∀ k, conn.table.lookup k = flat.table.lookup k
  flows : conn.flows = flat.flows
  die : conn.die = flat.die
  closed : ∀ c, c ∈ conn.closed ↔ c ∈ flat.closed

theorem Refines.drop (h : Refines conn flat)
    (p : List (AddrKey × TcpFlow) → AddrKey → Nat → Bool) :
    Refines (conn.dropShards p (List.range conn.table.sharding)) (flat.drop (p flat.flows)) := by
  have hd := dropShards_spec p (List.range conn.table.sharding) conn
  have hall : ∀ k, shardOf conn.table.sharding k ∈ List.range conn.table.sharding :=
    fun k => List.mem_range.2 (shardOf_lt conn.table.pos k)
  refine ⟨fun k => ?_, hd.flows.trans h.flows, hd.die.trans h.die, fun c => ?_⟩
  · rw [hd.lookup, if_pos (hall k), FlatConn.lookup_drop, h.lookup, h.flows]
  · rw [hd.closed, FlatConn.closed_drop, h.closed, Chosen]
    simp only [hall, true_and, h.lookup, h.flows]

theorem Refines.lockflow (h : Refines conn flat) (key : AddrKey) (now : Time) :
    (conn.lockflow key now).1 = (flat.lockflow key now).1 ∧
      Refines (conn.lockflow key now).2 (flat.lockflow key now).2 := by
  unfold TcpConn.lockflow FlatConn.lockflow
  rw [← h.lookup key]
  cases hl : conn.table.lookup key with
  | some e =>
    refine ⟨rfl, fun k => ?_, h.flows, h.die, h.closed⟩
    show (conn.table.store key e).lookup k = _
    rw [FlowTable.lookup_store]
    split
    · rename_i hk
      rw [← h.lookup, hk, hl]
    · exact h.lookup k
  | none =>
    refine ⟨congrArg List.length h.flows, fun k => ?_, ?_, h.die, h.closed⟩
    · show (conn.table.store key _).lookup k = (flat.table.insert key _).lookup k
      rw [FlowTable.lookup_store, GoMap.lookup_insert_of, h.flows, h.lookup]
    · show conn.flows ++ _ = flat.flows ++ _
      rw [h.flows]

theorem Refines.close (h : Refines conn flat) (tcpconn : Option Nat) :
    Refines (conn.closeFlows tcpconn) (flat.close tcpconn) := by
  unfold TcpConn.closeFlows FlatConn.close
  rw [← h.die]
  cases hdie : conn.die with
  | true => exact h
  | false =>
    cases tcpconn with
    | some c =>
      refine ⟨h.lookup, h.flows, rfl, fun c' => ?_⟩
      show c' ∈ conn.closed ++ [c] ↔ c' ∈ flat.closed ++ [c]
      rw [List.mem_append, List.mem_append, h.closed]
    | none =>
      have hdead : Refines { conn with die := true } { flat with die := true } :=
        ⟨h.lookup, h.flows, rfl, h.closed⟩
      exact hdead.drop fun _ _ _ => true

theorem Refines.call {ρ : Type} (h : Refines conn flat) (f : Callback ρ) (e : Option Nat) :
    (f.call conn.flows e).1 = (f.call flat.flows e).1 ∧
      Refines { conn with flows := (f.call conn.flows e).2 }
        { flat with flows := (f.call flat.flows e).2 } := by
  rw [h.flows]
  exact ⟨rfl, h.lookup, rfl, h.die, h.closed⟩

/-- **One operation.** -/
theorem Refines.op {ρ : Type} (h : Refines conn flat) (tcpconn : Option Nat) (op : FlowOp ρ) :
    (conn.op tcpconn op).1 = (flat.op tcpconn op).1 ∧
      Refines (conn.op tcpconn op).2 (flat.op tcpconn op).2 := by
  cases op with
  | lockflow key now f =>
    obtain ⟨he, hlock⟩ := h.lockflow key now
    obtain ⟨hr, hcall⟩ := hlock.call f (some (conn.lockflow key now).1)
    unfold TcpConn.op FlatConn.op
    dsimp only
    rw [← he]
    exact ⟨by rw [hr], hcall⟩
  | getflow key f =>
    obtain ⟨hr, hcall⟩ := h.call f (conn.table.lookup key)
    unfold TcpConn.op FlatConn.op
    dsimp only
    rw [← h.lookup]
    exact ⟨by rw [hr], hcall⟩
  | tick clock => exact ⟨rfl, h.drop fun flows k e => staleIn flows (clock k) e⟩
  | close => exact ⟨rfl, h.close tcpconn⟩

theorem refines_new (sharding : Nat) (pos : 0 < sharding) :
    Refines (.new sharding pos) .new where
  lookup k := FlowTable.lookup_init sharding pos k
  flows := rfl
  die := rfl
  closed _ := Iff.rfl

/-! ## Stored pairs and shard indices -/

theorem TcpConn.stores_iff {key : AddrKey} {flow : TcpFlow} :
    conn.Stores key flow ↔
      ∃ e k, conn.table.lookup key = some e ∧ conn.flows[e]? = some (k, flow) := by
  constructor
  · rintro ⟨i, m, e, k, hm, he, hf⟩
    have hshard : conn.table.shard i = m := by
      rw [FlowTable.shard, hm]
      rfl
    exact ⟨e, k, (FlowTable.mem_entries.1 (hshard ▸ he)).2, hf⟩
  · rintro ⟨e, k, he, hf⟩
    have hlt : shardOf conn.table.sharding key < conn.table.flowTables.length := by
      rw [conn.table.length_eq]
      exact shardOf_lt conn.table.pos key
    refine ⟨_, _, e, k, List.getElem?_eq_getElem hlt, ?_, hf⟩
    have hentry := FlowTable.mem_entries.2 ⟨rfl, he⟩
    rwa [FlowTable.shard, List.getElem?_eq_getElem hlt] at hentry

theorem FlatConn.stores_iff {key : AddrKey} {flow : TcpFlow} :
    flat.Stores key flow ↔
      ∃ e k, flat.table.lookup key = some e ∧ flat.flows[e]? = some (k, flow) := by
  unfold FlatConn.Stores
  simp only [← AList.mem_lookup_iff, Option.mem_def]

theorem Refines.stores (h : Refines conn flat) (key : AddrKey) (flow : TcpFlow) :
    conn.Stores key flow ↔ flat.Stores key flow := by
  rw [TcpConn.stores_iff, FlatConn.stores_iff, h.lookup, h.flows]

theorem sharding_op {ρ : Type} (tcpconn : Option Nat) (conn : TcpConn) (op : FlowOp ρ) :
    (conn.op tcpconn op).2.table.sharding = conn.table.sharding := by
  cases op with
  | lockflow key now f =>
    show (conn.lockflow key now).2.table.sharding = _
    unfold TcpConn.lockflow
    split <;> rfl
  | getflow key f => rfl
  | tick clock =>
    exact (dropShards_spec (fun flows k e => staleIn flows (clock k) e) _ conn).sharding
  | close =>
    show (conn.closeFlows tcpconn).table.sharding = _
    unfold TcpConn.closeFlows
    split
    · rfl
    · split
      · rfl
      · exact (dropShards_spec (fun _ _ _ => true) _ { conn with die := true }).sharding

end

/-- **The sharded table refines one map.** For every number of shards and all operations, with any
keys, callbacks and clock readings, on a dialed or a listening `tcpConn`: the results are those of
one map, the stored pairs and the closed kernel connections are the same sets, every shard index is
in range, and a key is in the map of its own shard only. -/
theorem run_refines {ρ : Type} (sharding : Nat) (pos : 0 < sharding) (tcpconn : Option Nat)
    (ops : List (FlowOp ρ)) :
    let run := Trans.outputs (TcpConn.op tcpconn) ops (.new sharding pos)
    let flat := Trans.outputs (FlatConn.op tcpconn) ops .new
    run.1 = flat.1 ∧
      (∀ key flow, run.2.Stores key flow ↔ flat.2.Stores key flow) ∧
      (∀ c, c ∈ run.2.closed ↔ c ∈ flat.2.closed) ∧
      (∀ key, shardOf sharding key < run.2.table.flowTables.length) ∧
      ∀ i m key, run.2.table.flowTables[i]? = some m → key ∈ m → i = shardOf sharding key := by
  intro run flat
  have hsim : ∀ (conn : TcpConn) (flat : FlatConn) (op : FlowOp ρ),
      Refines conn flat ∧ conn.table.sharding = sharding →
        (conn.op tcpconn op).1 = (flat.op tcpconn op).1 ∧
          Refines (conn.op tcpconn op).2 (flat.op tcpconn op).2 ∧
          (conn.op tcpconn op).2.table.sharding = sharding := by
    rintro conn flat op ⟨h, hs⟩
    exact ⟨(h.op tcpconn op).1, (h.op tcpconn op).2, (sharding_op tcpconn conn op).trans hs⟩
  obtain ⟨hres, href, hs⟩ := Trans.outputs_simulates
    (R := fun conn flat => Refines conn flat ∧ conn.table.sharding = sharding) hsim ops
    ⟨refines_new sharding pos, rfl⟩
  change run.2.table.sharding = sharding at hs
  refine ⟨hres, href.stores, href.closed, fun key => ?_, fun i m key hm hkey => ?_⟩
  · rw [run.2.table.length_eq, hs]
    exact shardOf_lt pos key
  · rw [← hs]
    exact (run.2.table.placed i m key hm hkey).symm

/-- Three shards, one of which the mask leaves unused: a flow that is made and bound, and that
`Close` closes, is closed with one map as well. -/
theorem run_refines_three :
    let ops : List (FlowOp Unit) :=
      [.lockflow ⟨7, 80⟩ 0 ⟨(), fun flow => ((), { flow with conn := some 5 })⟩, .close]
    (5 ∈ (Trans.outputs (TcpConn.op none) ops (.new 3 (Nat.succ_pos 2))).2.closed) ∧
      5 ∈ (Trans.outputs (FlatConn.op none) ops .new).2.closed := by
  intro ops
  have hclosed := (run_refines 3 (Nat.succ_pos 2) none ops).2.2.1 5
  have hrun : 5 ∈ (Trans.outputs (TcpConn.op none) ops (.new 3 (Nat.succ_pos 2))).2.closed := by
    decide +kernel
  exact ⟨hrun, hclosed.1 hrun⟩

end Tcpraw
