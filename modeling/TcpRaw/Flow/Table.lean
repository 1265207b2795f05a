import TcpRaw.Flow.Flow
import TcpRaw.Lib.GoMap

/-!
# The sharded flow table (`tcp_linux.go`, `lockflow`, `getflow`, `cleaner`)

The flow entries of a `tcpConn` are in maps, one per shard, keyed by the peer's address and port. A
`FlowTable` holds pointers to entries; that each key is stored in its own shard only, and that every
shard index is in range, are part of the type. Entries are shared by pointer: a goroutine that
fetched an entry may update it after the table has lost it.
-/

namespace Tcpraw

open GoRt

/-- `addrKey`: the IPv4 address and the port of a peer. -/
structure AddrKey where
  dip : UInt32
  dport : UInt16
  deriving DecidableEq, Repr

/-- `HashNumber` -/
def AddrKey.hashNumber (key : AddrKey) : Nat :=
  let ip := key.dip
  let ip := ip ^^^ (ip >>> 20)
  let ip := ip ^^^ (ip >>> 14)
  let ip := ip ^^^ (ip >>> 9)
  ip.toNat + key.dport.toNat

/-- The shard of a key. -/
def shardOf (sharding : Nat) (key : AddrKey) : Nat := key.hashNumber &&& (sharding - 1)

theorem shardOf_lt {sharding : Nat} (h : 0 < sharding) (key : AddrKey) :
    shardOf sharding key < sharding := by
  have : shardOf sharding key ≤ sharding - 1 := Nat.and_le_right
  omega

/-- The maps of a `tcpConn`, from keys to pointers to entries. -/
structure FlowTable where
  sharding : Nat
  flowTables : List (GoMap AddrKey Nat)
  pos : 0 < sharding
  length_eq : flowTables.length = sharding
  placed : ∀ i m k, flowTables[i]? = some m → k ∈ m → shardOf sharding k = i

/-- `initFlowTable` -/
def FlowTable.init (sharding : Nat) (pos : 0 < sharding) : FlowTable where
  sharding := sharding
  flowTables := List.replicate sharding ∅
  pos := pos
  length_eq := List.length_replicate
  placed i m k hm hk := by
    rw [List.getElem?_replicate] at hm
    split at hm
    · cases hm
      exact absurd hk (AList.notMem_empty k)
    · cases hm

/-- The map of a shard. -/
def FlowTable.shard (t : FlowTable) (i : Nat) : GoMap AddrKey Nat := (t.flowTables[i]?).getD ∅

/-- The pointer stored for a key: `getflow`. -/
def FlowTable.lookup (t : FlowTable) (key : AddrKey) : Option Nat :=
  (t.shard (shardOf t.sharding key)).lookup key

/-- Change the map of one shard to one whose keys are all of that shard. -/
def FlowTable.update (t : FlowTable) (i : Nat) (g : GoMap AddrKey Nat → GoMap AddrKey Nat)
    (hg : ∀ m k, k ∈ g m → k ∈ m ∨ shardOf t.sharding k = i) : FlowTable where
  sharding := t.sharding
  flowTables := t.flowTables.modify i g
  pos := t.pos
  length_eq := by rw [List.length_modify]; exact t.length_eq
  placed j m k hm hk := by
    rw [List.getElem?_modify] at hm
    obtain ⟨m', hm', rfl⟩ := Option.map_eq_some_iff.1 hm
    by_cases hij : i = j
    · subst hij
      simp only [if_true] at hk
      rcases hg m' k hk with hk | hk
      · exact t.placed i m' k hm' hk
      · exact hk
    · simp only [hij, if_false] at hk
      exact t.placed j m' k hm' hk

/-- Store a pointer for a key. -/
def FlowTable.store (t : FlowTable) (key : AddrKey) (ptr : Nat) : FlowTable :=
  t.update (shardOf t.sharding key) (fun m => m.insert key ptr) fun m k hk => by
    rcases (AList.mem_insert m).1 hk with rfl | hk
    · exact .inr rfl
    · exact .inl hk

/-- Delete keys from the map of a shard. -/
def FlowTable.erase (t : FlowTable) (i : Nat) (ks : List AddrKey) : FlowTable :=
  t.update i (fun m => GoMap.eraseAll m ks) fun _ _ hk => .inl (GoMap.mem_eraseAll.1 hk).1

theorem FlowTable.lookup_init (sharding : Nat) (pos : 0 < sharding) (key : AddrKey) :
    (FlowTable.init sharding pos).lookup key = none := by
  unfold FlowTable.lookup FlowTable.shard FlowTable.init
  rw [List.getElem?_replicate]
  split <;> rfl

theorem FlowTable.shard_update (t : FlowTable) {i : Nat} (hi : i < t.sharding)
    {g : GoMap AddrKey Nat → GoMap AddrKey Nat}
    (hg : ∀ m k, k ∈ g m → k ∈ m ∨ shardOf t.sharding k = i) (j : Nat) :
    (t.update i g hg).shard j = if i = j then g (t.shard j) else t.shard j := by
  unfold FlowTable.shard FlowTable.update
  dsimp only
  rw [List.getElem?_modify]
  by_cases hij : i = j
  · subst hij
    rw [List.getElem?_eq_getElem (by rw [t.length_eq]; exact hi)]
    simp
  · simp [hij]

theorem FlowTable.lookup_store (t : FlowTable) (key : AddrKey) (ptr : Nat) (k : AddrKey) :
    (t.store key ptr).lookup k = if k = key then some ptr else t.lookup k := by
  show ((t.store key ptr).shard (shardOf t.sharding k)).lookup k = _
  rw [FlowTable.store, FlowTable.shard_update t (shardOf_lt t.pos key)]
  by_cases hs : shardOf t.sharding key = shardOf t.sharding k
  · rw [if_pos hs, GoMap.lookup_insert_of]
    rfl
  · have hne : k ≠ key := fun h => hs (by rw [h])
    rw [if_neg hs, if_neg hne]
    rfl

theorem FlowTable.mem_shard {t : FlowTable} {i : Nat} {k : AddrKey} (h : k ∈ t.shard i) :
    shardOf t.sharding k = i := by
  unfold FlowTable.shard at h
  cases hm : t.flowTables[i]? with
  | none =>
    rw [hm] at h
    exact absurd h (AList.notMem_empty k)
  | some m =>
    rw [hm] at h
    exact t.placed i m k hm h

theorem FlowTable.mem_entries {t : FlowTable} {i : Nat} {k : AddrKey} {e : Nat} :
    ⟨k, e⟩ ∈ (t.shard i).entries ↔ shardOf t.sharding k = i ∧ t.lookup k = some e := by
  constructor
  · intro h
    have hi := FlowTable.mem_shard (AList.mem_keys.2 (List.mem_map_of_mem h))
    refine ⟨hi, ?_⟩
    rw [FlowTable.lookup, hi]
    exact AList.mem_lookup_iff.2 h
  · rintro ⟨rfl, h⟩
    exact AList.mem_lookup_iff.1 h

/-- Deleting keys that a shard holds deletes them from the table. -/
theorem FlowTable.lookup_erase (t : FlowTable) {i : Nat} {ks : List AddrKey}
    (hks : ∀ k ∈ ks, k ∈ t.shard i) (k : AddrKey) :
    (t.erase i ks).lookup k = if k ∈ ks then none else t.lookup k := by
  show ((t.erase i ks).shard (shardOf t.sharding k)).lookup k = _
  by_cases hk : k ∈ ks
  · have hi := FlowTable.mem_shard (hks k hk)
    rw [FlowTable.erase, FlowTable.shard_update t (hi ▸ shardOf_lt t.pos k), if_pos hi.symm,
      GoMap.lookup_eraseAll, if_pos hk, if_pos hk]
  · rw [if_neg hk]
    by_cases hi : i < t.sharding
    · rw [FlowTable.erase, FlowTable.shard_update t hi]
      split
      · rw [GoMap.lookup_eraseAll, if_neg hk]
        rfl
      · rfl
    · -- a shard index out of range: nothing changes
      unfold FlowTable.lookup FlowTable.shard FlowTable.erase FlowTable.update
      dsimp only
      rw [List.modify_eq_self (by rw [t.length_eq]; omega)]

end Tcpraw
