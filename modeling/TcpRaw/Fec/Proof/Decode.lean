import TcpRaw.Fec.Stream
import TcpRaw.Fec.Proof.Assemble

/-!
# One call of `FecDecoder.decode`

`decode_cases` says what a call does, on any packet: it drops a packet whose sequence id it meets
in the queue, or it inserts the packet where the scan stops (`ScanAt`), gathers the packets of the
block in the window (`Gathered`), and leaves what `FecDecoder.outcome` says: the recovered shards
and the queue without the block's packets, once the block is complete or recoverable. No index or
slice expression is out of range (`Sane`: the sizes of the constructor, queue buffers of capacity
`mtuLimit`), whatever the sequence ids and flags are.
-/

namespace Faketcp

open GoRt Erasure

/-- What the constructor sets up and every call keeps. -/
structure FecDecoder.Sane (dec : FecDecoder) : Prop where
  dataShards_pos : 0 < dec.dataShards
  shardSize_eq : dec.shardSize = dec.dataShards + dec.parityShards
  shardSize_lt : dec.shardSize < 2 ^ 31
  zeros : dec.zeros = List.replicate mtuLimit 0
  cap : ∀ q ∈ dec.rx, q.data.cap = mtuLimit

theorem FecDecoder.Sane.toNat_shardSize {dec : FecDecoder} (h : dec.Sane) :
    (UInt32.ofNat dec.shardSize).toNat = dec.shardSize := by
  have := h.shardSize_lt
  rw [UInt32.toNat_ofNat']
  omega

theorem FecDecoder.Sane.shardSize_pos {dec : FecDecoder} (h : dec.Sane) : 0 < dec.shardSize := by
  have := h.shardSize_eq
  have := h.dataShards_pos
  omega

/-! ## Insertion -/

/-- The insertion scan for `s` stops at `i`: no packet from there on is `s` or before it, and `s`
is after the one just before `i`. -/
structure ScanAt (rx : List FecPacket) (s : UInt32) (i : Nat) : Prop where
  le : i ≤ rx.length
  after : ∀ (m : Nat) (q : FecPacket), i ≤ m → rx[m]? = some q →
    s ≠ q.seqid ∧ ¬ 0 < itimediff s q.seqid
  before : ∀ (m : Nat) (q : FecPacket), i = m + 1 → rx[m]? = some q →
    s ≠ q.seqid ∧ 0 < itimediff s q.seqid

theorem insertionIndex_ok (rx : List FecPacket) (s : UInt32) :
    ∀ (i : Nat), i ≤ rx.length →
      (∀ (m : Nat) (q : FecPacket), i ≤ m → rx[m]? = some q →
        s ≠ q.seqid ∧ ¬ 0 < itimediff s q.seqid) →
      (insertionIndex rx s i = .ok none ∧ ∃ q ∈ rx, q.seqid = s) ∨
        ∃ j, insertionIndex rx s i = .ok (some j) ∧ ScanAt rx s j
  | 0, hi, hafter =>
    .inr ⟨0, rfl, ⟨hi, hafter, fun m _ hm => absurd hm (Nat.succ_ne_zero m).symm⟩⟩
  | i + 1, hi, hafter => by
    have hlt : i < rx.length := by omega
    unfold insertionIndex
    rw [index_ok hlt, ok_bind]
    by_cases he : s = rx[i].seqid
    · rw [if_pos he]
      exact .inl ⟨rfl, rx[i], List.getElem_mem hlt, he.symm⟩
    rw [if_neg he]
    by_cases hd : 0 < itimediff s rx[i].seqid
    · rw [if_pos hd]
      refine .inr ⟨i + 1, rfl, hi, hafter, fun m q hm hq => ?_⟩
      obtain rfl : i = m := by omega
      rw [List.getElem?_eq_getElem hlt, Option.some.injEq] at hq
      subst hq
      exact ⟨he, hd⟩
    · rw [if_neg hd]
      refine insertionIndex_ok rx s i (by omega) fun m q hm hq => ?_
      rcases Nat.lt_or_ge i m with hlt' | hge
      · exact hafter m q hlt' hq
      · obtain rfl : i = m := by omega
        rw [List.getElem?_eq_getElem hlt, Option.some.injEq] at hq
        subst hq
        exact ⟨he, hd⟩

/-- The whole scan: a packet with this id is there, or the scan stops. -/
theorem insertionIndex_cases (rx : List FecPacket) (s : UInt32) :
    (insertionIndex rx s rx.length = .ok none ∧ ∃ q ∈ rx, q.seqid = s) ∨
      ∃ i, insertionIndex rx s rx.length = .ok (some i) ∧ ScanAt rx s i :=
  insertionIndex_ok rx s rx.length (Nat.le_refl _) fun m q hm hq => by
    rw [List.getElem?_eq_none hm] at hq
    cases hq

/-- The queue with `pkt` inserted at `i`. -/
def insertAt (rx : List FecPacket) (i : Nat) (pkt : FecPacket) : List FecPacket :=
  rx.take i ++ pkt :: rx.drop i

theorem insertRx_ok {rx : List FecPacket} {i : Nat} (h : i ≤ rx.length) (pkt : FecPacket) :
    insertRx rx i pkt = .ok (insertAt rx i pkt) := by
  rw [insertRx, sliceFrom_ok h]
  rfl

@[simp] theorem length_insertAt {rx : List FecPacket} {i : Nat} (h : i ≤ rx.length)
    (pkt : FecPacket) : (insertAt rx i pkt).length = rx.length + 1 := by
  simp only [insertAt, List.length_append, List.length_take, List.length_cons, List.length_drop]
  omega

theorem mem_insertAt {rx : List FecPacket} {i : Nat} {pkt q : FecPacket} :
    q ∈ insertAt rx i pkt ↔ q = pkt ∨ q ∈ rx := by
  have : q ∈ rx ↔ q ∈ rx.take i ∨ q ∈ rx.drop i := by
    rw [← List.mem_append, List.take_append_drop]
  rw [insertAt, List.mem_append, List.mem_cons, this]
  exact or_left_comm

/-! ## Freeing -/

/-- The queue without its `n` packets from `first` on. -/
def cut (first n : Nat) (q : List FecPacket) : List FecPacket :=
  q.take first ++ q.drop (first + n)

theorem touch_ok {q : List FecPacket} : ∀ {is : List Nat}, (∀ i ∈ is, i < q.length) →
    touch q is = .ok ()
  | [], _ => rfl
  | i :: is, h => by
    rw [touch, index_ok (h i (by simp)), ok_bind, touch_ok fun j hj => h j (by simp [hj])]

theorem freeRange_ok {first n : Nat} {q : List FecPacket} (h : first + n ≤ q.length) :
    freeRange first n q = .ok (cut first n q) := by
  have hlen : (overwrite q first (q.drop (first + n))).length = q.length :=
    length_overwrite (by rw [List.length_drop]; omega)
  unfold freeRange
  rw [touch_ok fun i hi => by rw [List.mem_range'_1] at hi; omega, ok_bind, sliceFrom_ok h, ok_bind]
  dsimp only
  rw [touch_ok fun i hi => by
      obtain ⟨k, hk, rfl⟩ := List.mem_map.1 hi
      rw [List.mem_range] at hk
      omega,
    ok_bind, sliceRange_ok (Nat.zero_le _) (Nat.sub_le _ _), hlen, List.drop_zero,
    Slice.take_overwrite_end (by omega) (by rw [List.length_drop]; omega)]
  rfl

theorem cut_sublist (first n : Nat) (q : List FecPacket) : (cut first n q).Sublist q := by
  have h : (q.take first ++ q.drop first).Sublist q := by rw [List.take_append_drop]
  refine List.Sublist.trans (List.Sublist.append (List.Sublist.refl _) ?_) h
  exact List.drop_sublist_drop_left q (Nat.le_add_right _ _)

/-! ## Padding and collecting -/

/-- The shards as the codec sees them: those there, padded to `maxlen`. -/
def Assembly.padded (a : Assembly) : List (Option Bytes) :=
  a.shards.map (Option.map fun s => padTo a.maxlen s.data)

theorem padShards_ok {maxlen : Nat} (hm : maxlen ≤ mtuLimit) :
    ∀ (shards : List (Option (Slice UInt8))),
      (∀ s, some s ∈ shards → s.len ≤ maxlen ∧ s.cap = mtuLimit) →
      ∃ out, padShards (List.replicate mtuLimit 0) maxlen shards = .ok out ∧
        out.map (Option.map Slice.data) =
          shards.map (Option.map fun s => padTo maxlen s.data)
  | [], _ => ⟨[], rfl, rfl⟩
  | none :: shards, h => by
    obtain ⟨out, ho, hd⟩ := padShards_ok hm shards fun s hs => h s (by simp [hs])
    refine ⟨none :: out, ?_, by simp [hd]⟩
    rw [padShards, padShard, pure_eq_ok, ok_bind, ho]
    rfl
  | some s :: shards, h => by
    obtain ⟨out, ho, hd⟩ := padShards_ok hm shards fun s hs => h s (by simp [hs])
    obtain ⟨hl, hc⟩ := h s (by simp)
    obtain ⟨t, ht, htd, -, -⟩ :=
      Slice.data_pad (k := mtuLimit) (0 : UInt8) hl (by omega) (by omega)
    refine ⟨some t :: out, ?_, by simp [hd, htd, padTo]⟩
    rw [padShards, padShard, ht, ok_bind, ho]
    rfl

/-- The shards of the first `d` positions whose flag is not set. -/
def missing (shardsflag : List Bool) (out : List (Option Bytes)) (ks : List Nat) : List Bytes :=
  ks.filterMap fun k =>
    if shardsflag[k]?.getD false then none else some (out[k]?.join.getD [])

theorem collectMissing_ok {shardsflag : List Bool} {out : List (Option Bytes)} :
    ∀ {ks : List Nat}, (∀ k ∈ ks, k < shardsflag.length) →
      collectMissing shardsflag out ks = .ok (missing shardsflag out ks)
  | [], _ => rfl
  | k :: ks, h => by
    have hk : k < shardsflag.length := h k (by simp)
    rw [collectMissing, index_ok hk, ok_bind, collectMissing_ok fun j hj => h j (by simp [hj]),
      ok_bind]
    simp only [missing, List.filterMap_cons, List.getElem?_eq_getElem hk, Option.getD_some]
    cases shardsflag[k] <;> rfl

/-- The data shards that the codec recovers from the gathered ones. -/
def FecDecoder.recovered (dec : FecDecoder) (a : Assembly) : List Bytes :=
  match dec.codec.reconstructData a.padded with
  | some out => missing a.shardsflag out (List.range dec.dataShards)
  | none => []

theorem padded_ok {dec : FecDecoder} (hs : dec.Sane) {n : UInt32} {ts : List FecPacket}
    {a : Assembly} (ha : Asm dec.shardSize n ts a) (hcap : ∀ q ∈ ts, q.data.cap = mtuLimit) :
    ∃ out, padShards dec.zeros a.maxlen a.shards = .ok out ∧
      out.map (Option.map Slice.data) = a.padded := by
  have hm : a.maxlen ≤ mtuLimit := by
    rcases ha.maxlen with h | ⟨q, hq, h⟩
    · omega
    · rw [← h, ← hcap q hq]; exact q.data.len_le_cap
  rw [hs.zeros]
  exact padShards_ok hm a.shards fun s hs => by
    obtain ⟨k, hk⟩ := List.mem_iff_getElem?.1 hs
    obtain ⟨q, hq, -, rfl⟩ := ha.of_shard k s hk
    exact ⟨ha.le_maxlen q hq, hcap q hq⟩

theorem recoverShards_ok {dec : FecDecoder} (hs : dec.Sane) {n : UInt32} {ts : List FecPacket}
    {a : Assembly} (ha : Asm dec.shardSize n ts a) (hcap : ∀ q ∈ ts, q.data.cap = mtuLimit) :
    dec.recoverShards a = .ok (dec.recovered a) := by
  obtain ⟨out, ho, hd⟩ := padded_ok hs ha hcap
  have hlen : out.length = dec.shardSize := by
    have := congrArg List.length hd
    rwa [List.length_map, Assembly.padded, List.length_map, ha.shards_length] at this
  have hsize := hs.shardSize_eq
  unfold FecDecoder.recoverShards FecDecoder.recovered
  rw [ho, ok_bind, hd]
  cases dec.codec.reconstructData a.padded with
  | none => rfl
  | some res =>
    dsimp only
    rw [sliceRange_ok (Nat.zero_le _) (by omega), ok_bind]
    exact collectMissing_ok fun k hk => by
      rw [List.mem_range] at hk
      rw [ha.flags_length]
      omega

/-! ## Reconstruction -/

/-- The window of the queue `rx` that the assembly loop looks at after `seqid` was inserted at
`i`. -/
def FecDecoder.window (dec : FecDecoder) (seqid : UInt32) (i : Nat) (rx : List FecPacket) :
    List FecPacket :=
  let sb := searchBegin (UInt32.ofNat dec.shardSize) seqid i
  (rx.drop sb).take (searchEnd dec.shardSize sb rx.length + 1 - sb)

/-- `a` holds the packets `ts` of the block of `seqid` in the window of `rx`. -/
structure Gathered (dec : FecDecoder) (seqid : UInt32) (i : Nat) (rx ts : List FecPacket)
    (a : Assembly) : Prop where
  ts_eq : ts = blockRun (UInt32.ofNat dec.shardSize) seqid (dec.window seqid i rx)
  asm : Asm dec.shardSize (UInt32.ofNat dec.shardSize) ts a
  first : ts ≠ [] → a.first = searchBegin (UInt32.ofNat dec.shardSize) seqid i
    + skipped (UInt32.ofNat dec.shardSize) seqid (dec.window seqid i rx)
  range : a.first + a.numshard ≤ rx.length

/-- What a call leaves once the shards `a` of the block are gathered from `rx`. -/
def FecDecoder.outcome (dec : FecDecoder) (a : Assembly) (rx : List FecPacket) :
    List Bytes × List FecPacket :=
  if a.numDataShard = dec.dataShards then ([], cut a.first a.numshard rx)
  else if dec.dataShards ≤ a.numshard then (dec.recovered a, cut a.first a.numshard rx)
  else ([], rx)

theorem numDataShard_le {N : Nat} {n : UInt32} {ts : List FecPacket} {a : Assembly}
    (h : Asm N n ts a) : a.numDataShard ≤ ts.length := by
  rw [h.numDataShard]
  exact List.countP_le_length

theorem Gathered.mem {dec : FecDecoder} {seqid : UInt32} {i : Nat} {rx ts : List FecPacket}
    {a : Assembly} (h : Gathered dec seqid i rx ts a) {q : FecPacket} (hq : q ∈ ts) :
    q ∈ rx ∧ InBlock (UInt32.ofNat dec.shardSize) seqid q.seqid := by
  rw [h.ts_eq] at hq
  obtain ⟨hw, hb⟩ := mem_blockRun hq
  exact ⟨((List.take_sublist _ _).trans (List.drop_sublist _ _)).mem hw, hb⟩

theorem Gathered.sublist {dec : FecDecoder} {seqid : UInt32} {i : Nat} {rx ts : List FecPacket}
    {a : Assembly} (h : Gathered dec seqid i rx ts a) : ts.Sublist rx := by
  rw [h.ts_eq]
  exact List.filter_sublist.trans ((List.takeWhile_sublist _).trans
    ((List.take_sublist _ _).trans (List.drop_sublist _ _)))

/-- What the outcome leaves of the queue: a block with enough packets is freed, whatever their
flags. -/
theorem outcome_snd {dec : FecDecoder} {seqid : UInt32} {i : Nat} {rx ts : List FecPacket}
    {a : Assembly} (hG : Gathered dec seqid i rx ts a) :
    (dec.outcome a rx).2 = if dec.dataShards ≤ ts.length then cut a.first ts.length rx else rx := by
  have hle := numDataShard_le hG.asm
  unfold FecDecoder.outcome
  rw [hG.asm.numshard]
  by_cases h : dec.dataShards ≤ ts.length
  · rw [if_pos h, if_pos h]
    split <;> rfl
  · rw [if_neg h, if_neg (by omega), if_neg h]

theorem outcome_sublist (dec : FecDecoder) (a : Assembly) (rx : List FecPacket) :
    (dec.outcome a rx).2.Sublist rx := by
  unfold FecDecoder.outcome
  split
  · exact cut_sublist _ _ _
  · split
    · exact cut_sublist _ _ _
    · exact List.Sublist.refl _

/-- The window starts before the inserted packet, and its size is what the code computes. -/
theorem window_bounds {dec : FecDecoder} (h0 : 0 < dec.shardSize) (seqid : UInt32) {i : Nat}
    {rx : List FecPacket} (hi : i < rx.length) :
    let sb := searchBegin (UInt32.ofNat dec.shardSize) seqid i
    sb ≤ i ∧ sb + (searchEnd dec.shardSize sb rx.length + 1 - sb) =
      min (sb + dec.shardSize) rx.length := by
  unfold searchBegin searchEnd
  refine ⟨Nat.sub_le _ _, ?_⟩
  split <;> omega

theorem length_window {dec : FecDecoder} (h0 : 0 < dec.shardSize) (seqid : UInt32) {i : Nat}
    {rx : List FecPacket} (hi : i < rx.length) :
    (dec.window seqid i rx).length = searchEnd dec.shardSize
      (searchBegin (UInt32.ofNat dec.shardSize) seqid i) rx.length + 1
      - searchBegin (UInt32.ofNat dec.shardSize) seqid i := by
  have hb := (window_bounds h0 seqid hi).2
  rw [FecDecoder.window, List.length_take, List.length_drop]
  omega

/-- **Gathering the block of an inserted packet**: its packets in the window, if the window is long
enough for a block. -/
theorem gather_ok {dec : FecDecoder} (h0 : 0 < dec.shardSize)
    (hn : (UInt32.ofNat dec.shardSize).toNat = dec.shardSize) (seqid : UInt32) {i : Nat}
    {rx : List FecPacket} (hi : i < rx.length) :
    ∃ ts a, Gathered dec seqid i rx ts a ∧
      (dec.gather seqid i rx = .ok (some a) ∨
        dec.gather seqid i rx = .ok none ∧ ts.length < dec.dataShards) := by
  have hb := (window_bounds h0 seqid hi).2
  have hw := length_window h0 seqid hi
  obtain ⟨a, ha, hasm, hfirst⟩ :=
    assemble_ok hn h0 seqid rx _
      (searchBegin (UInt32.ofNat dec.shardSize) seqid i) [] (Assembly.init dec.shardSize)
      (by rw [hb]; exact Nat.min_le_right _ _) (asm_init _ _)
  rw [List.nil_append] at hasm
  have hwin : (rx.drop (searchBegin (UInt32.ofNat dec.shardSize) seqid i)).take
      (searchEnd dec.shardSize (searchBegin (UInt32.ofNat dec.shardSize) seqid i) rx.length + 1
        - searchBegin (UInt32.ofNat dec.shardSize) seqid i) = dec.window seqid i rx := rfl
  rw [hwin] at hasm hfirst
  have hrange : a.first + a.numshard ≤ rx.length := by
    rw [hasm.numshard, hfirst]
    split
    · rename_i hne
      have := skipped_add_length_le hne.2
      omega
    · rename_i hne
      rw [not_and_not_right.1 hne rfl, List.length_nil]
      exact Nat.zero_le _
  refine ⟨_, a, ⟨rfl, hasm, fun hne => by rw [hfirst, if_pos ⟨rfl, hne⟩], hrange⟩, ?_⟩
  unfold FecDecoder.gather
  dsimp only
  by_cases hsz : dec.dataShards ≤ searchEnd dec.shardSize
      (searchBegin (UInt32.ofNat dec.shardSize) seqid i) rx.length + 1
      - searchBegin (UInt32.ofNat dec.shardSize) seqid i
  · rw [if_pos hsz, ha]
    exact .inl rfl
  · have hle := length_blockRun_le (UInt32.ofNat dec.shardSize) seqid (dec.window seqid i rx)
    rw [if_neg hsz]
    exact .inr ⟨rfl, by omega⟩

/-- **The reconstruction after an insertion**: what the gathered shards say is freed, and the codec
is asked for the lost data shards of a block that is not complete but recoverable. -/
theorem reconstruct_eq {dec : FecDecoder} (h0 : 0 < dec.shardSize)
    (hn : (UInt32.ofNat dec.shardSize).toNat = dec.shardSize) (seqid : UInt32) {i : Nat}
    {rx : List FecPacket} (hi : i < rx.length) :
    ∃ ts a, Gathered dec seqid i rx ts a ∧
      dec.reconstruct seqid i rx =
        (if a.numDataShard ≠ dec.dataShards ∧ dec.dataShards ≤ a.numshard then dec.recoverShards a
          else pure []) >>= fun recovered => pure (recovered, (dec.outcome a rx).2) := by
  obtain ⟨ts, a, hG, hg⟩ := gather_ok h0 hn seqid hi
  refine ⟨ts, a, hG, ?_⟩
  have hle := numDataShard_le hG.asm
  have hns := hG.asm.numshard
  unfold FecDecoder.reconstruct FecDecoder.outcome
  rcases hg with hg | ⟨hg, hlt⟩
  · rw [hg, ok_bind]
    dsimp only
    by_cases h1 : a.numDataShard = dec.dataShards
    · simp only [h1, if_true, freeRange_ok hG.range, ne_eq, not_true_eq_false, false_and, if_false]
      rfl
    by_cases h2 : dec.dataShards ≤ a.numshard
    · simp only [h1, h2, if_true, if_false, freeRange_ok hG.range, ne_eq, not_false_eq_true,
        and_self]
      rfl
    · simp only [h1, h2, if_false, and_false]
      rfl
  · rw [hg, ok_bind, if_neg (by omega), if_neg (by omega), if_neg (by omega)]
    rfl

theorem reconstruct_ok {dec : FecDecoder} (hs : dec.Sane) (seqid : UInt32) {i : Nat}
    {rx : List FecPacket} (hi : i < rx.length) (hcap : ∀ q ∈ rx, q.data.cap = mtuLimit) :
    ∃ ts a, Gathered dec seqid i rx ts a ∧
      dec.reconstruct seqid i rx = .ok (dec.outcome a rx) := by
  obtain ⟨ts, a, hG, hr⟩ := reconstruct_eq hs.shardSize_pos hs.toNat_shardSize seqid hi
  refine ⟨ts, a, hG, ?_⟩
  rw [hr, recoverShards_ok hs hG.asm fun q hq => hcap q (hG.mem hq).1]
  unfold FecDecoder.outcome
  by_cases h1 : a.numDataShard = dec.dataShards
  · simp [h1]
  · by_cases h2 : dec.dataShards ≤ a.numshard <;> simp [h1, h2]

/-! ## The whole call -/

/-- The queue within its limit. -/
def FecDecoder.limited (dec : FecDecoder) (rx : List FecPacket) : List FecPacket :=
  if dec.rxlimit < rx.length then rx.tail else rx

theorem limited_sublist (dec : FecDecoder) (rx : List FecPacket) :
    (dec.limited rx).Sublist rx := by
  unfold FecDecoder.limited
  split
  · exact List.tail_sublist _
  · exact List.Sublist.refl _

theorem keepLimit_ok (dec : FecDecoder) (rx : List FecPacket) :
    dec.keepLimit rx = .ok (dec.limited rx) := by
  unfold FecDecoder.keepLimit FecDecoder.limited
  split
  · rw [index_ok (by omega), ok_bind, freeRange_ok (by omega), cut, List.take_zero,
      List.nil_append, List.drop_one]
  · rfl

/-- The queue after a call that gathered `a` from `rx`. -/
def FecDecoder.after (dec : FecDecoder) (a : Assembly) (rx : List FecPacket) : FecDecoder :=
  { dec with rx := dec.limited (dec.outcome a rx).2 }

/-- A packet that is in the queue is dropped, and another one is inserted. -/
theorem decode_eq (dec : FecDecoder) (pkt : FecPacket) :
    ((∃ q ∈ dec.rx, q.seqid = pkt.seqid) ∧ dec.decode pkt = .ok ([], dec)) ∨
      ∃ i, ScanAt dec.rx pkt.seqid i ∧ i < (insertAt dec.rx i pkt).length ∧
        dec.decode pkt = dec.reconstruct pkt.seqid i (insertAt dec.rx i pkt) >>= fun r =>
          pure (r.1, { dec with rx := dec.limited r.2 }) := by
  unfold FecDecoder.decode
  rcases insertionIndex_cases dec.rx pkt.seqid with ⟨hi, hq⟩ | ⟨i, hi, hsc⟩
  · rw [hi]
    exact .inl ⟨hq, rfl⟩
  · refine .inr ⟨i, hsc, ?_, ?_⟩
    · rw [length_insertAt hsc.le]
      exact Nat.lt_succ_of_le hsc.le
    · rw [hi, ok_bind]
      dsimp only
      rw [insertRx_ok hsc.le, ok_bind]
      simp only [keepLimit_ok, ok_bind]

/-- **One call of `decode`.** -/
theorem decode_cases {dec : FecDecoder} (hs : dec.Sane) {pkt : FecPacket}
    (hp : pkt.data.cap = mtuLimit) :
    ((∃ q ∈ dec.rx, q.seqid = pkt.seqid) ∧ dec.decode pkt = .ok ([], dec)) ∨
      ∃ i ts a, ScanAt dec.rx pkt.seqid i ∧
        Gathered dec pkt.seqid i (insertAt dec.rx i pkt) ts a ∧
        dec.decode pkt = .ok ((dec.outcome a (insertAt dec.rx i pkt)).1,
          dec.after a (insertAt dec.rx i pkt)) := by
  rcases decode_eq dec pkt with hdup | ⟨i, hsc, hi, hdec⟩
  · exact .inl hdup
  · obtain ⟨ts, a, hG, hr⟩ := reconstruct_ok hs pkt.seqid hi fun q hq => by
      rcases mem_insertAt.1 hq with rfl | hq
      · exact hp
      · exact hs.cap q hq
    refine .inr ⟨i, ts, a, hsc, hG, ?_⟩
    rw [hdec, hr]
    rfl

/-- **The queue after a call that returns**, whatever the buffers of the packets are. -/
theorem decode_queue {dec : FecDecoder} (h0 : 0 < dec.shardSize)
    (hn : (UInt32.ofNat dec.shardSize).toNat = dec.shardSize) {pkt : FecPacket} {out : List Bytes}
    {dec' : FecDecoder} (h : dec.decode pkt = .ok (out, dec')) :
    ((∃ q ∈ dec.rx, q.seqid = pkt.seqid) ∧ dec' = dec) ∨
      ∃ i ts a, ScanAt dec.rx pkt.seqid i ∧ Gathered dec pkt.seqid i (insertAt dec.rx i pkt) ts a ∧
        dec' = dec.after a (insertAt dec.rx i pkt) := by
  rcases decode_eq dec pkt with ⟨hq, hdec⟩ | ⟨i, hsc, hi, hdec⟩
  · rw [hdec] at h
    cases h
    exact .inl ⟨hq, rfl⟩
  · obtain ⟨ts, a, hG, hr⟩ := reconstruct_eq h0 hn pkt.seqid hi
    rw [hdec, hr] at h
    obtain ⟨r, hr, h⟩ := bind_ok h
    obtain ⟨recovered, -, hr⟩ := bind_ok hr
    cases hr
    cases h
    exact .inr ⟨i, ts, a, hsc, hG, rfl⟩

/-- **What a call passes to the codec**: the gathered shards of the block, padded. -/
theorem reconstructArg_cases {dec : FecDecoder} (hs : dec.Sane) {pkt : FecPacket}
    (hp : pkt.data.cap = mtuLimit) {shards : List (Option Bytes)}
    (h : dec.reconstructArg pkt = .ok (some shards)) :
    ∃ i ts a, ScanAt dec.rx pkt.seqid i ∧
      Gathered dec pkt.seqid i (insertAt dec.rx i pkt) ts a ∧ shards = a.padded := by
  unfold FecDecoder.reconstructArg at h
  rcases insertionIndex_cases dec.rx pkt.seqid with ⟨hi, -⟩ | ⟨i, hi, hsc⟩
  · rw [hi] at h
    cases h
  have hlen := length_insertAt hsc.le pkt
  obtain ⟨ts, a, hG, hg⟩ := gather_ok hs.shardSize_pos hs.toNat_shardSize pkt.seqid
    (show i < (insertAt dec.rx i pkt).length by have := hsc.le; omega)
  refine ⟨i, ts, a, hsc, hG, ?_⟩
  rw [hi, ok_bind] at h
  dsimp only at h
  rw [insertRx_ok hsc.le, ok_bind] at h
  rcases hg with hg | ⟨hg, -⟩
  · rw [hg, ok_bind] at h
    dsimp only at h
    split at h
    · cases h
    split at h
    · obtain ⟨out, ho, h⟩ := bind_ok h
      obtain ⟨out', ho', hd⟩ := padded_ok hs hG.asm fun q hq => by
        rcases mem_insertAt.1 (hG.mem hq).1 with rfl | hq
        · exact hp
        · exact hs.cap q hq
      rw [ho'] at ho
      cases ho
      cases h
      exact hd
    · cases h
  · rw [hg] at h
    cases h

/-- The packets in the queue after a call were there or are the new one. -/
theorem mem_after {dec : FecDecoder} {i : Nat} {pkt q : FecPacket} {a : Assembly}
    (h : q ∈ (dec.after a (insertAt dec.rx i pkt)).rx) : q = pkt ∨ q ∈ dec.rx :=
  mem_insertAt.1 ((outcome_sublist dec a _).mem ((limited_sublist dec _).mem h))

theorem Sane.after {dec : FecDecoder} (hs : dec.Sane) {i : Nat} {pkt : FecPacket}
    (hp : pkt.data.cap = mtuLimit) (a : Assembly) : (dec.after a (insertAt dec.rx i pkt)).Sane :=
  { hs with
    cap := fun q hq => by
      rcases mem_after hq with rfl | hq
      · exact hp
      · exact hs.cap q hq }

end Faketcp
