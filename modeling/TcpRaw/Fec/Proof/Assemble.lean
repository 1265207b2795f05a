import TcpRaw.Fec.Decoder

/-!
# The shard assembly loop

`assemble` runs over a window of the receive queue. The packets it takes are `blockRun`: those
before the first packet past the block's end that pass the block's tests. `Asm N n ts a` relates
the loop's variables to the packets `ts` taken so far: the shards are theirs, the flags say which
shards are there, the counters count them and `maxlen` is the length of the longest one.

`assemble_ok`: the loop stays within the queue and ends in `Asm` of the window's `blockRun`, with
`first` the index of the first packet taken.
-/

namespace Faketcp

open GoRt Erasure

/-- The packets of a window that the assembly loop takes. -/
def blockRun (n seqid : UInt32) (w : List FecPacket) : List FecPacket :=
  (w.takeWhile fun q => ¬ PastBlock n seqid q.seqid).filter fun q => InBlock n seqid q.seqid

/-- The number of packets of a window before the first one of the block. -/
def skipped (n seqid : UInt32) (w : List FecPacket) : Nat :=
  (w.takeWhile fun q => ¬ InBlock n seqid q.seqid).length

theorem mem_blockRun {n seqid : UInt32} {w : List FecPacket} {q : FecPacket}
    (h : q ∈ blockRun n seqid w) : q ∈ w ∧ InBlock n seqid q.seqid := by
  obtain ⟨hw, hb⟩ := List.mem_filter.1 h
  exact ⟨(List.takeWhile_sublist _).mem hw, by simpa using hb⟩

theorem length_blockRun_le (n seqid : UInt32) (w : List FecPacket) :
    (blockRun n seqid w).length ≤ w.length :=
  Nat.le_trans (List.length_filter_le _ _) (List.takeWhile_sublist _).length_le

theorem blockRun_cons_past {n seqid : UInt32} {q : FecPacket} (w : List FecPacket)
    (hq : PastBlock n seqid q.seqid) : blockRun n seqid (q :: w) = [] := by
  simp [blockRun, hq]

theorem blockRun_cons_mem {n seqid : UInt32} {q : FecPacket} (w : List FecPacket)
    (hq : InBlock n seqid q.seqid) : blockRun n seqid (q :: w) = q :: blockRun n seqid w := by
  simp [blockRun, hq, hq.1]

theorem blockRun_cons_before {n seqid : UInt32} {q : FecPacket} (w : List FecPacket)
    (hp : ¬ PastBlock n seqid q.seqid) (hq : ¬ InBlock n seqid q.seqid) :
    blockRun n seqid (q :: w) = blockRun n seqid w := by
  simp [blockRun, hp, hq]

theorem skipped_cons_mem {n seqid : UInt32} {q : FecPacket} (w : List FecPacket)
    (hq : InBlock n seqid q.seqid) : skipped n seqid (q :: w) = 0 := by
  simp [skipped, hq]

theorem skipped_cons_of_not {n seqid : UInt32} {q : FecPacket} (w : List FecPacket)
    (hq : ¬ InBlock n seqid q.seqid) : skipped n seqid (q :: w) = skipped n seqid w + 1 := by
  simp [skipped, hq]

/-- The block's packets start after the skipped ones. -/
theorem skipped_add_length_le {n seqid : UInt32} :
    ∀ {w : List FecPacket}, blockRun n seqid w ≠ [] →
      skipped n seqid w + (blockRun n seqid w).length ≤ w.length
  | [], h => absurd rfl h
  | q :: w, h => by
    by_cases hp : PastBlock n seqid q.seqid
    · exact absurd (blockRun_cons_past w hp) h
    by_cases hq : InBlock n seqid q.seqid
    · have := length_blockRun_le n seqid w
      rw [blockRun_cons_mem w hq, skipped_cons_mem w hq, List.length_cons, List.length_cons]
      omega
    · rw [blockRun_cons_before w hp hq] at h ⊢
      have := skipped_add_length_le h
      rw [skipped_cons_of_not w hq, List.length_cons]
      omega

/-- The loop's variables after taking the packets `ts` of blocks of `N` shards. -/
structure Asm (N : Nat) (n : UInt32) (ts : List FecPacket) (a : Assembly) : Prop where
  shards_length : a.shards.length = N
  flags_length : a.shardsflag.length = N
  numshard : a.numshard = ts.length
  numDataShard : a.numDataShard = ts.countP (·.flag = typeData)
  of_shard : ∀ (k : Nat) (s : Slice UInt8), a.shards[k]? = some (some s) →
    ∃ q ∈ ts, (q.seqid % n).toNat = k ∧ q.data = s
  shard_of : ∀ q ∈ ts, ∃ s, a.shards[(q.seqid % n).toNat]? = some (some s)
  flag : ∀ k < N, a.shardsflag[k]? = some (a.shards[k]?.join.isSome)
  le_maxlen : ∀ q ∈ ts, q.data.len ≤ a.maxlen
  maxlen : a.maxlen = 0 ∨ ∃ q ∈ ts, q.data.len = a.maxlen

theorem asm_init (N : Nat) (n : UInt32) : Asm N n [] (Assembly.init N) where
  shards_length := by simp [Assembly.init]
  flags_length := by simp [Assembly.init]
  numshard := rfl
  numDataShard := rfl
  of_shard k s h := by simp [Assembly.init, List.getElem?_replicate] at h
  shard_of q h := by simp at h
  flag k h := by simp [Assembly.init, h]
  le_maxlen q h := by simp at h
  maxlen := .inl rfl

/-- Taking one more packet. -/
theorem asm_add {N : Nat} {n : UInt32} {ts : List FecPacket} {a : Assembly} (h : Asm N n ts a)
    (hn : n.toNat = N) (h0 : 0 < N) (i : Nat) (q : FecPacket) :
    ∃ a', a.add n i q = .ok a' ∧ Asm N n (ts ++ [q]) a' ∧
      a'.first = if ts = [] then i else a.first := by
  have hk : (q.seqid % n).toNat < N := by
    rw [UInt32.toNat_mod, hn]; exact Nat.mod_lt _ h0
  unfold Assembly.add
  dsimp only
  rw [setIndex_ok (by rw [h.shards_length]; exact hk), ok_bind,
    setIndex_ok (by rw [h.flags_length]; exact hk), ok_bind]
  refine ⟨_, rfl, ?_, ?_⟩
  · constructor
    case shards_length => simpa using h.shards_length
    case flags_length => simpa using h.flags_length
    case numshard => simp [h.numshard]
    case numDataShard =>
      simp only [h.numDataShard, List.countP_append, List.countP_cons, List.countP_nil]
      split <;> simp_all
    case of_shard =>
      intro k s hs
      rw [List.getElem?_set] at hs
      split at hs
      · rename_i he
        rw [if_pos (by rw [h.shards_length]; exact hk)] at hs
        exact ⟨q, by simp, he, by simpa using hs⟩
      · obtain ⟨q', hq', hk', hd⟩ := h.of_shard k s hs
        exact ⟨q', by simp [hq'], hk', hd⟩
    case shard_of =>
      intro q' hq'
      rw [List.getElem?_set]
      split
      · exact ⟨q.data, by rw [if_pos (by rw [h.shards_length]; exact hk)]⟩
      · rename_i hne
        rcases List.mem_append.1 hq' with hq' | hq'
        · exact h.shard_of q' hq'
        · rw [List.mem_singleton.1 hq'] at hne
          exact absurd rfl hne
    case flag =>
      intro k hk'
      rw [List.getElem?_set, List.getElem?_set]
      split
      · rw [if_pos (by rw [h.flags_length]; exact hk), if_pos (by rw [h.shards_length]; exact hk)]
        rfl
      · exact h.flag k hk'
    case le_maxlen =>
      intro q' hq'
      rcases List.mem_append.1 hq' with hq' | hq'
      · have := h.le_maxlen q' hq'
        simp only; split <;> omega
      · rw [List.mem_singleton.1 hq']
        simp only; split <;> omega
    case maxlen =>
      simp only
      split
      · exact .inr ⟨q, by simp, rfl⟩
      · rcases h.maxlen with hm | ⟨q', hq', hm⟩
        · exact .inl hm
        · exact .inr ⟨q', by simp [hq'], hm⟩
  · simp only [h.numshard]
    cases ts <;> simp

/-- **The assembly loop**: it takes the `blockRun` of its window, and `first` is the index of the
first packet taken. -/
theorem assemble_ok {N : Nat} {n : UInt32} (hn : n.toNat = N) (h0 : 0 < N) (seqid : UInt32)
    (rx : List FecPacket) : ∀ (count i : Nat) (ts : List FecPacket) (a : Assembly),
    i + count ≤ rx.length → Asm N n ts a →
    ∃ a', assemble n seqid rx count i a = .ok a' ∧
      Asm N n (ts ++ blockRun n seqid ((rx.drop i).take count)) a' ∧
      a'.first = if ts = [] ∧ blockRun n seqid ((rx.drop i).take count) ≠ [] then
        i + skipped n seqid ((rx.drop i).take count) else a.first
  | 0, i, ts, a, _, ha => ⟨a, rfl, by simpa [blockRun] using ha, by simp [blockRun]⟩
  | count + 1, i, ts, a, hi, ha => by
    have hlt : i < rx.length := by omega
    have hw : (rx.drop i).take (count + 1) = rx[i] :: (rx.drop (i + 1)).take count := by
      rw [List.drop_eq_getElem_cons hlt, List.take_succ_cons]
    rw [hw]
    generalize hq : rx[i] = q
    unfold assemble
    rw [index_ok hlt, ok_bind, hq]
    by_cases hp : PastBlock n seqid q.seqid
    · -- past the block: the loop ends
      rw [if_pos hp, blockRun_cons_past _ hp]
      exact ⟨a, rfl, by simpa using ha, by simp⟩
    · rw [if_neg hp]
      by_cases hb : 0 ≤ itimediff q.seqid (shardBegin n seqid)
      · obtain ⟨a1, ha1, hasm, hf1⟩ := asm_add ha hn h0 i q
        obtain ⟨a2, ha2, hasm2, hf2⟩ :=
          assemble_ok hn h0 seqid rx count (i + 1) (ts ++ [q]) a1 (by omega) hasm
        rw [if_pos hb, ha1, ok_bind, blockRun_cons_mem _ ⟨hp, hb⟩]
        refine ⟨a2, ha2, by simpa using hasm2, ?_⟩
        rw [hf2, if_neg (by simp), hf1, skipped_cons_mem _ ⟨hp, hb⟩]
        simp
      · obtain ⟨a2, ha2, hasm2, hf2⟩ :=
          assemble_ok hn h0 seqid rx count (i + 1) ts a (by omega) ha
        have hq' : ¬ InBlock n seqid q.seqid := fun h => hb h.2
        rw [if_neg hb, blockRun_cons_before _ hp hq', skipped_cons_of_not _ hq']
        refine ⟨a2, ha2, hasm2, ?_⟩
        rw [hf2]
        split <;> omega

end Faketcp
