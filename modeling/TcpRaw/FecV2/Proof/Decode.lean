import Mathlib.Data.List.Induction
import Mathlib.Data.List.Nodup
import TcpRaw.Fec.Proof.Decode
import TcpRaw.FecV2.Decoder

/-!
# One call of the auto-tuning decoder

`Stored s q` reads the packet `q` off the bytes that a heap keeps, `Holds h ts` says that the heap
has exactly the packets `ts`, with distinct sequence ids. Taking them out fills the working set as
the shard assembly of the other decoder does (`popAll_ok`, over its `Asm`), and `completeShard_ok`
is what the caller gets.

`receive_ok` lists what a call in sync does (`Received`): it drops a packet of an earlier block or
one that the heap has, or it adds the packet to the heap of its block and empties the heap once it
has enough. The block ids of two or more shards are below `2 ^ 31`, so `itimediff` compares them as
numbers (`toInt_shardId`).
-/

namespace Fecv2

open GoRt Erasure
open Faketcp (itimediff packet padTo Asm asm_init asm_add Assembly collectMissing missing
  collectMissing_ok)

/-! ## Packets -/

/-- A stored packet: its bytes are the header and the shard of `q`. -/
structure Stored (s : FecPacket) (q : Faketcp.FecPacket) : Prop where
  bytes : s.data = packet q.seqid q.flag q.data.data
  cap : s.cap = mtuLimit
  shard : data s = .ok q.data

theorem seqid_packet {s : FecPacket} {sn : UInt32} {fl : UInt16} {shard : Bytes}
    (h : s.data = packet sn fl shard) : seqid s = .ok sn := by
  rw [seqid, h, packet, List.append_assoc, leUint32_append]

theorem flag_packet {s : FecPacket} {sn : UInt32} {fl : UInt16} {shard : Bytes}
    (h : s.data = packet sn fl shard) : flag s = .ok fl := by
  have h4 : (packet sn fl shard).drop 4 = leBytes16 fl ++ shard := by
    rw [packet, List.append_assoc, List.drop_left' (length_leBytes32 _)]
  have hlen : 4 ≤ (packet sn fl shard).length := by
    simp [packet]
  rw [flag, h, sliceFrom_ok hlen, ok_bind, h4, leUint16_append]

theorem length_packet (sn : UInt32) (fl : UInt16) (shard : Bytes) :
    (packet sn fl shard).length = shard.length + 6 := by
  simp [packet]
  omega

theorem exists_leBytes32 (b0 b1 b2 b3 : UInt8) : ∃ v, leBytes32 v = [b0, b1, b2, b3] := by
  have h0 := b0.toNat_lt
  have h1 := b1.toNat_lt
  have h2 := b2.toNat_lt
  have h3 := b3.toNat_lt
  refine ⟨UInt32.ofNat (b0.toNat + 2 ^ 8 * b1.toNat + 2 ^ 16 * b2.toNat + 2 ^ 24 * b3.toNat), ?_⟩
  simp only [leBytes32, UInt32.toNat_ofNat', List.cons.injEq, and_true]
  refine ⟨?_, ?_, ?_, ?_⟩ <;>
  · apply UInt8.toNat_inj.1
    rw [UInt8.toNat_ofNat']
    omega

theorem exists_leBytes16 (b0 b1 : UInt8) : ∃ v, leBytes16 v = [b0, b1] := by
  have h0 := b0.toNat_lt
  have h1 := b1.toNat_lt
  refine ⟨UInt16.ofNat (b0.toNat + 2 ^ 8 * b1.toNat), ?_⟩
  simp only [leBytes16, UInt16.toNat_ofNat', List.cons.injEq, and_true]
  refine ⟨?_, ?_⟩ <;>
  · apply UInt8.toNat_inj.1
    rw [UInt8.toNat_ofNat']
    omega

theorem exists_packet {x : Bytes} (h : 6 ≤ x.length) :
    ∃ sn fl shard, x = packet sn fl shard := by
  obtain ⟨b0, b1, b2, b3, b4, b5, shard, rfl⟩ :
      ∃ b0 b1 b2 b3 b4 b5 shard, x = b0 :: b1 :: b2 :: b3 :: b4 :: b5 :: shard := by
    rcases x with _ | ⟨b0, _ | ⟨b1, _ | ⟨b2, _ | ⟨b3, _ | ⟨b4, _ | ⟨b5, shard⟩⟩⟩⟩⟩⟩
    all_goals first
      | exact ⟨_, _, _, _, _, _, _, rfl⟩
      | (simp only [List.length_cons, List.length_nil] at h; omega)
  obtain ⟨sn, hsn⟩ := exists_leBytes32 b0 b1 b2 b3
  obtain ⟨fl, hfl⟩ := exists_leBytes16 b4 b5
  refine ⟨sn, fl, shard, ?_⟩
  rw [packet, hsn, hfl]
  rfl

/-- A packet of legal length, copied into a pool buffer. -/
theorem copy_ok (buf : PoolBuf) {pkt : FecPacket} {sn : UInt32} {fl : UInt16} {shard : Bytes}
    (h : pkt.data = packet sn fl shard) (hlen : shard.length + 6 ≤ mtuLimit) :
    ∃ s t, ((Slice.ofList buf.arr).upto pkt.len >>= fun t => t.copyRange 0 pkt.len pkt.data) =
      .ok s ∧ Stored s ⟨sn, fl, t⟩ ∧ t.data = shard ∧ t.cap + 6 = mtuLimit := by
  have hpl : pkt.data.length = shard.length + 6 := by rw [h, length_packet]
  have hcap : (Slice.ofList buf.arr).cap = mtuLimit := buf.size
  have hfit : pkt.data.length ≤ (Slice.ofList buf.arr).cap := by
    rw [hcap, hpl]
    exact hlen
  obtain ⟨s, hs, hsd, hsc, hsl⟩ := Slice.data_fill hfit
  rw [Slice.length_data] at hs hsl
  rw [Slice.length_data] at hpl
  have hrange : 6 ≤ s.len ∧ s.len ≤ s.arr.length := ⟨by omega, s.le_cap⟩
  have hdata : data s = .ok ⟨s.arr.drop 6, s.len - 6, by rw [List.length_drop]; omega⟩ :=
    dif_pos hrange
  refine ⟨s, _, hs, ⟨?_, hsc.trans hcap, hdata⟩, ?_, ?_⟩
  · have hd : (s.arr.drop 6).take (s.len - 6) = s.data.drop 6 := List.drop_take.symm
    show s.data = packet sn fl ((s.arr.drop 6).take (s.len - 6))
    rw [hd, hsd, h]
    congr 1
  · show (s.arr.drop 6).take (s.len - 6) = shard
    rw [← List.drop_take]
    show s.data.drop 6 = shard
    rw [hsd, h]
    exact List.drop_left' (by simp)
  · have hc : s.cap = mtuLimit := hsc.trans hcap
    show (s.arr.drop 6).length + 6 = mtuLimit
    rw [List.length_drop, ← hc]
    show s.cap - 6 + 6 = s.cap
    have := s.len_le_cap
    omega

/-! ## Heaps -/

/-- The heap holds the packets `ts`, in the order they came. -/
structure Holds (h : ShardHeap) (ts : List Faketcp.FecPacket) : Prop where
  elements : List.Forall₂ Stored h.elements ts
  cap : ∀ q ∈ ts, q.data.cap + 6 = mtuLimit
  marks : ∀ sn, h.has sn = true ↔ ∃ q ∈ ts, q.seqid = sn
  distinct : (ts.map (·.seqid)).Nodup

theorem holds_new : Holds newShardHeap [] where
  elements := .nil
  cap := by simp
  marks sn := by simp [ShardHeap.has, newShardHeap]
  distinct := List.nodup_nil

section
variable {h : ShardHeap} {ts : List Faketcp.FecPacket} {q : Faketcp.FecPacket}

theorem Holds.len (hh : Holds h ts) : h.len = ts.length := hh.elements.length_eq

theorem stored_unique : Relator.RightUnique Stored := by
  intro s q q' h h'
  have hsn := seqid_packet h.bytes
  have hfl := flag_packet h.bytes
  have hd := h.shard
  rw [seqid_packet h'.bytes] at hsn
  rw [flag_packet h'.bytes] at hfl
  rw [h'.shard] at hd
  cases q
  cases q'
  simp only [Except.ok.injEq] at hsn hfl hd
  rw [hsn, hfl, hd]

theorem Holds.unique {us : List Faketcp.FecPacket} (hts : Holds h ts) (hus : Holds h us) :
    ts = us :=
  List.right_unique_forall₂' stored_unique hts.elements hus.elements

theorem push_ok (hh : Holds h ts) {s : FecPacket} (hs : Stored s q)
    (hcap : q.data.cap + 6 = mtuLimit) (hnew : h.has q.seqid = false) :
    ∃ h', h.push s = .ok h' ∧ Holds h' (ts ++ [q]) := by
  refine ⟨_, by rw [ShardHeap.push, seqid_packet hs.bytes, ok_bind]; rfl, ?_, ?_, ?_, ?_⟩
  · exact List.rel_append hh.elements (.cons hs .nil)
  · intro q' hq'
    rcases List.mem_append.1 hq' with hq' | hq'
    · exact hh.cap q' hq'
    · rw [List.mem_singleton.1 hq']
      exact hcap
  · intro sn
    have := hh.marks sn
    simp only [ShardHeap.has, GoMap.lookup_insert_of] at this ⊢
    by_cases he : sn = q.seqid
    · simp [he]
    · rw [if_neg he, this]
      simp [Ne.symm he]
  · rw [List.map_append, List.map_singleton, List.nodup_append]
    refine ⟨hh.distinct, List.nodup_singleton _, fun a ha b hb hab => ?_⟩
    rw [List.mem_singleton.1 hb] at hab
    obtain ⟨q', hq', rfl⟩ := List.mem_map.1 ha
    have hmark := (hh.marks q.seqid).2 ⟨q', hq', hab⟩
    rw [hnew] at hmark
    cases hmark

theorem pop_ok (hh : Holds h (ts ++ [q])) :
    ∃ s h', h.pop = .ok (s, h') ∧ Stored s q ∧ Holds h' ts := by
  have hlen : h.len - 1 = ts.length := by
    rw [hh.len, List.length_append, List.length_singleton, Nat.add_sub_cancel]
  obtain ⟨s, hs, hdrop⟩ : ∃ s, Stored s q ∧ h.elements.drop ts.length = [s] := by
    have hlast := List.forall₂_drop_append _ _ _ hh.elements
    generalize h.elements.drop ts.length = ys at *
    cases hlast with
    | cons hs hnil =>
      cases hnil
      exact ⟨_, hs, rfl⟩
  have hidx : index h.elements (h.len - 1) = .ok s := by
    rw [index_eq_ok, hlen, ← Nat.add_zero ts.length, ← List.getElem?_drop, hdrop]
    rfl
  have hpop : h.pop = .ok (s, ⟨h.elements.take (h.len - 1), h.marks.erase q.seqid⟩) := by
    rw [ShardHeap.pop, hidx, ok_bind, seqid_packet hs.bytes, ok_bind]
    rfl
  have hd := hh.distinct
  rw [List.map_append, List.map_singleton, List.nodup_append] at hd
  refine ⟨s, _, hpop, hs, ?_, fun q' hq' => hh.cap q' (by simp [hq']), fun sn => ?_, hd.1⟩
  · rw [hlen]
    exact List.forall₂_take_append _ _ _ hh.elements
  · have := hh.marks sn
    simp only [ShardHeap.has, GoMap.lookup_erase_of] at this ⊢
    by_cases hsn : sn = q.seqid
    · subst hsn
      simp only [if_pos, Option.isSome_none, Bool.false_eq_true, false_iff]
      rintro ⟨q', hq', he'⟩
      exact hd.2.2 _ (List.mem_map_of_mem hq') _ (by simp) he'
    · rw [if_neg hsn, this]
      simp [Ne.symm hsn]

end

/-! ## The working set -/

/-- The working set as the assembly of `k` packets by the other decoder. -/
def WorkingSet.toAssembly (w : WorkingSet) (k : Nat) : Assembly where
  shards := w.shards
  shardsflag := w.shardsflag
  numshard := k
  numDataShard := w.numDataShard
  first := 0
  maxlen := w.maxlen

/-- The working set holds the packets `ts` of blocks of `N` shards. -/
def Filled (N : Nat) (n : UInt32) (ts : List Faketcp.FecPacket) (w : WorkingSet) : Prop :=
  Asm N n ts (w.toAssembly ts.length)

theorem filled_zero (N : Nat) (n : UInt32) : Filled N n [] (WorkingSet.zero N) := asm_init N n

section
variable {N : Nat} {n : UInt32} {ts us : List Faketcp.FecPacket} {q : Faketcp.FecPacket}
  {w : WorkingSet}

theorem put_ok (hn : n.toNat = N) (h0 : 0 < N) (hw : Filled N n ts w) {s : FecPacket}
    (hs : Stored s q) : ∃ w', w.put n s = .ok w' ∧ Filled N n (ts ++ [q]) w' := by
  have hk : (q.seqid % n).toNat < N := by
    rw [UInt32.toNat_mod, hn]
    exact Nat.mod_lt _ h0
  have hks : (q.seqid % n).toNat < w.shards.length := Nat.lt_of_lt_of_eq hk hw.shards_length.symm
  have hkf : (q.seqid % n).toNat < w.shardsflag.length := Nat.lt_of_lt_of_eq hk hw.flags_length.symm
  obtain ⟨a, ha, hasm, -⟩ := asm_add hw hn h0 0 q
  simp only [Assembly.add, WorkingSet.toAssembly] at ha
  rw [setIndex_ok hks, ok_bind, setIndex_ok hkf, ok_bind] at ha
  obtain rfl := Except.ok.inj ha
  unfold WorkingSet.put
  rw [seqid_packet hs.bytes, ok_bind, hs.shard, ok_bind,
    setIndex_ok hks, ok_bind, setIndex_ok hkf, ok_bind, flag_packet hs.bytes, ok_bind]
  refine ⟨_, rfl, ?_⟩
  exact
    { shards_length := hasm.shards_length, flags_length := hasm.flags_length, numshard := rfl
      numDataShard := hasm.numDataShard, of_shard := hasm.of_shard, shard_of := hasm.shard_of
      flag := hasm.flag, le_maxlen := hasm.le_maxlen, maxlen := hasm.maxlen }

/-- **Emptying a heap** puts its packets into the working set, the last one first. -/
theorem popAll_ok (hn : n.toNat = N) (h0 : 0 < N) {h : ShardHeap} (hh : Holds h ts)
    (hw : Filled N n us w) : ∃ h' w', popAll n ts.length h w = .ok (h', w') ∧ Holds h' [] ∧
      Filled N n (us ++ ts.reverse) w' := by
  induction ts using List.reverseRecOn generalizing h us w with
  | nil => exact ⟨h, w, rfl, hh, by simpa using hw⟩
  | append_singleton ts q ih =>
    obtain ⟨s, h1, hpop, hs, hh1⟩ := pop_ok hh
    obtain ⟨w1, hput, hw1⟩ := put_ok hn h0 hw hs
    obtain ⟨h2, w2, hall, hh2, hw2⟩ := ih hh1 hw1
    refine ⟨h2, w2, ?_, hh2, ?_⟩
    · rw [List.length_append, List.length_singleton, popAll, hpop, ok_bind]
      dsimp only
      rw [hput, ok_bind, hall]
    · rwa [List.reverse_append, List.reverse_singleton, List.singleton_append,
        ← List.append_cons] at *

end

/-! ## Recovery -/

/-- The shards of the working set as the codec library sees them. -/
def WorkingSet.codecArg (w : WorkingSet) : List (Option Bytes) :=
  w.shards.map fun o => if w.maxlen = 0 then none else o.map fun s => padTo w.maxlen s.data

/-- What a call returns for the working set of a block with enough packets. -/
def FecDecoder.outcome (dec : FecDecoder) (w : WorkingSet) : List Bytes :=
  if w.numDataShard = dec.dataShards then []
  else ((dec.codec.reconstructData w.codecArg).map fun out =>
    missing w.shardsflag out (List.range dec.dataShards)).getD []

theorem extendShard_ok {maxlen : Nat} {s : Slice UInt8} (hl : s.len ≤ maxlen)
    (hm : maxlen ≤ s.cap) :
    ∃ t, extendShard maxlen s = .ok t ∧ t.data = padTo maxlen s.data ∧ t.len = maxlen := by
  obtain ⟨t, ht, htd, -, htl⟩ := Slice.data_pad (0 : UInt8) hl hm (Nat.le_refl _)
  refine ⟨t, ht, ?_, htl⟩
  rw [htd, padTo, Slice.length_data]

theorem equalize_ok {d maxlen : Nat} (hm : maxlen + 6 ≤ mtuLimit) :
    ∀ (shards : List (Option (Slice UInt8))) (k : Nat),
      (∀ s, some s ∈ shards → s.len ≤ maxlen ∧ s.cap + 6 = mtuLimit) →
      ∃ out, equalize d maxlen k shards = .ok out ∧ out.length = shards.length ∧
        out.map codecShard =
          shards.map fun o => if maxlen = 0 then none else o.map fun s => padTo maxlen s.data
  | [], _, _ => ⟨[], rfl, rfl, rfl⟩
  | none :: shards, k, h => by
    obtain ⟨out, ho, hl, hc⟩ := equalize_ok hm shards (k + 1) fun s hs => h s (by simp [hs])
    refine ⟨(if k < d then some emptyShard else none) :: out, ?_, by simp [hl], ?_⟩
    · rw [equalize, ho, ok_bind]
      rfl
    · rw [List.map_cons, List.map_cons, hc]
      congr 1
      split <;> simp [codecShard, emptyShard]
  | some s :: shards, k, h => by
    obtain ⟨out, ho, hl, hc⟩ := equalize_ok hm shards (k + 1) fun s hs => h s (by simp [hs])
    obtain ⟨hlen, hcap⟩ := h s (by simp)
    obtain ⟨t, ht, htd, htl⟩ := extendShard_ok hlen (show maxlen ≤ s.cap by omega)
    refine ⟨some t :: out, ?_, by simp [hl], ?_⟩
    · rw [equalize, ht, ok_bind, ho, ok_bind]
      rfl
    · rw [List.map_cons, List.map_cons, hc]
      congr 1
      simp [codecShard, htl, htd]

section
variable {dec : FecDecoder} {ts : List Faketcp.FecPacket} {w : WorkingSet} {n : UInt32}

/-- The shards in a working set are those of its packets, in buffers of the pool. -/
theorem Filled.shard (hw : Filled dec.shardSize n ts w) (hcap : ∀ q ∈ ts, q.data.cap + 6 = mtuLimit)
    {s : Slice UInt8} (hs : some s ∈ w.shards) : s.len ≤ w.maxlen ∧ s.cap + 6 = mtuLimit := by
  obtain ⟨k, hk⟩ := List.mem_iff_getElem?.1 hs
  obtain ⟨q, hq, -, rfl⟩ := hw.of_shard k s hk
  exact ⟨hw.le_maxlen q hq, hcap q hq⟩

theorem Filled.maxlen_le (hw : Filled dec.shardSize n ts w)
    (hcap : ∀ q ∈ ts, q.data.cap + 6 = mtuLimit) : w.maxlen + 6 ≤ mtuLimit := by
  rcases hw.maxlen with h | ⟨q, hq, h⟩
  · have hz : w.maxlen = 0 := h
    rw [hz]
    decide
  · have hlen : q.data.len = w.maxlen := h
    rw [← hlen, ← hcap q hq]
    exact Nat.add_le_add_right q.data.len_le_cap 6

/-- **Recovery from a working set**: what the codec gives back of the missing data shards. -/
theorem recoverShards_ok (hsize : dec.shardSize = dec.dataShards + dec.parityShards)
    (hw : Filled dec.shardSize n ts w) (hcap : ∀ q ∈ ts, q.data.cap + 6 = mtuLimit)
    (hloss : w.numDataShard ≠ dec.dataShards) (snmp : Snmp) :
    ∃ snmp', dec.recoverShards w snmp = .ok (dec.outcome w, snmp') ∧
      snmp'.fecRecovered = snmp.fecRecovered + UInt64.ofNat (dec.outcome w).length := by
  obtain ⟨out, ho, hl, hc⟩ :=
    equalize_ok (d := dec.dataShards) (hw.maxlen_le hcap) w.shards 0 fun s hs => hw.shard hcap hs
  have hshards : w.shards.length = dec.shardSize := hw.shards_length
  have hflags : w.shardsflag.length = dec.shardSize := hw.flags_length
  unfold FecDecoder.recoverShards FecDecoder.outcome
  rw [if_neg hloss, ho, ok_bind, hc, WorkingSet.codecArg]
  cases dec.codec.reconstructData _ with
  | none => exact ⟨_, rfl, by simp⟩
  | some res =>
    dsimp only
    rw [sliceRange_ok (Nat.zero_le _) (by omega), ok_bind, collectMissing_ok fun k hk => by
      rw [List.mem_range] at hk
      omega, ok_bind]
    exact ⟨_, rfl, rfl⟩

/-- **A block with enough packets**: its heap is emptied. -/
theorem completeShard_ok (h0 : 0 < dec.shardSize)
    (hsize : dec.shardSize = dec.dataShards + dec.parityShards)
    (hn : (UInt32.ofNat dec.shardSize).toNat = dec.shardSize)
    (hcache : dec.cacheSize = dec.shardSize) {h : ShardHeap} (hh : Holds h ts) (snmp : Snmp) :
    ∃ h' w snmp', dec.completeShard h snmp = .ok (dec.outcome w, h', snmp') ∧ Holds h' [] ∧
      Filled dec.shardSize (UInt32.ofNat dec.shardSize) ts.reverse w ∧
      snmp'.fecRecovered = snmp.fecRecovered + UInt64.ofNat (dec.outcome w).length := by
  obtain ⟨h', w, hall, hh', hw⟩ := popAll_ok hn h0 hh (filled_zero _ _)
  rw [List.nil_append] at hw
  unfold FecDecoder.completeShard
  rw [hh.len, hcache, hall, ok_bind]
  dsimp only
  by_cases hfull : w.numDataShard = dec.dataShards
  · rw [if_pos hfull]
    have hout : dec.outcome w = [] := if_pos hfull
    exact ⟨h', w, _, by rw [hout]; rfl, hh', hw, by rw [hout]; simp⟩
  · rw [if_neg hfull]
    obtain ⟨snmp', hr, hcount⟩ := recoverShards_ok hsize hw
      (fun q hq => hh.cap q (List.mem_reverse.1 hq)) hfull snmp
    rw [hr, ok_bind]
    exact ⟨h', w, snmp', rfl, hh', hw, hcount⟩

end

/-! ## Block ids -/

/-- The sizes of a decoder's blocks, as its constructor and the tuner set them. -/
structure FecDecoder.Sized (dec : FecDecoder) : Prop where
  data_pos : 0 < dec.dataShards
  parity_pos : 0 < dec.parityShards
  size_eq : dec.shardSize = dec.dataShards + dec.parityShards
  size_le : dec.shardSize ≤ 65536

section
variable {dec : FecDecoder}

theorem FecDecoder.Sized.toNat_size (h : dec.Sized) :
    (UInt32.ofNat dec.shardSize).toNat = dec.shardSize :=
  UInt32.toNat_ofNat_of_lt' (Nat.lt_of_le_of_lt h.size_le (by decide))

theorem FecDecoder.Sized.two_le (h : dec.Sized) : 2 ≤ dec.shardSize := by
  have := h.data_pos
  have := h.parity_pos
  have := h.size_eq
  omega

theorem FecDecoder.Sized.toNat_shardId (h : dec.Sized) (sn : UInt32) :
    (dec.getShardId sn).toNat = sn.toNat / dec.shardSize := by
  rw [FecDecoder.getShardId, UInt32.toNat_div, h.toNat_size]

/-- The id of a block of two or more shards is in the lower half. -/
theorem FecDecoder.Sized.shardId_lt (h : dec.Sized) (sn : UInt32) :
    (dec.getShardId sn).toNat < 2 ^ 31 := by
  have hsn := sn.toNat_lt
  have htwo := h.two_le
  rw [h.toNat_shardId, Nat.div_lt_iff_lt_mul (by omega)]
  omega

theorem toInt_shardId {a b : UInt32} (ha : a.toNat < 2 ^ 31) (hb : b.toNat < 2 ^ 31) :
    (itimediff a b).toInt = (a.toNat : Int) - b.toNat := by
  rw [Faketcp.toInt_itimediff, UInt32.toNat_sub]
  split <;> omega

theorem itimediff_neg_iff {a b : UInt32} (ha : a.toNat < 2 ^ 31) (hb : b.toNat < 2 ^ 31) :
    itimediff a b < 0 ↔ a.toNat < b.toNat := by
  rw [Int32.lt_iff_toInt_lt, toInt_shardId ha hb, Int32.toInt_zero]
  omega

theorem itimediff_pos_iff {a b : UInt32} (ha : a.toNat < 2 ^ 31) (hb : b.toNat < 2 ^ 31) :
    itimediff a b > 0 ↔ b.toNat < a.toNat := by
  rw [gt_iff_lt, Int32.lt_iff_toInt_lt, toInt_shardId ha hb, Int32.toInt_zero]
  omega

theorem tooOld_iff (hmin : dec.minShardId.toNat < 2 ^ 31) {id : UInt32} (hid : id.toNat < 2 ^ 31) :
    dec.tooOld id = true ↔ id.toNat + 3 < dec.minShardId.toNat := by
  have h3 : maxShardSets.toInt = 3 := by decide
  rw [FecDecoder.tooOld, decide_eq_true_iff, gt_iff_lt, Int32.lt_iff_toInt_lt,
    toInt_shardId hmin hid, h3]
  omega

/-- **Flushing** keeps the blocks that are at most `maxShardSets` behind. -/
theorem lookup_flushShards (hmin : dec.minShardId.toNat < 2 ^ 31)
    (hkeys : ∀ id ∈ dec.shardSet, id.toNat < 2 ^ 31) (snmp : Snmp) (id : UInt32) :
    (dec.flushShards snmp).1.shardSet.lookup id =
      if id.toNat + 3 < dec.minShardId.toNat then none else dec.shardSet.lookup id := by
  show (GoMap.eraseAll dec.shardSet (dec.shardSet.keys.filter dec.tooOld)).lookup id = _
  rw [GoMap.lookup_eraseAll]
  by_cases hmem : id ∈ dec.shardSet
  · have hiff : id ∈ dec.shardSet.keys.filter dec.tooOld ↔
        id.toNat + 3 < dec.minShardId.toNat := by
      rw [List.mem_filter, ← tooOld_iff hmin (hkeys id hmem)]
      exact and_iff_right hmem
    by_cases hold : id.toNat + 3 < dec.minShardId.toNat
    · rw [if_pos (hiff.2 hold), if_pos hold]
    · rw [if_neg (fun h => hold (hiff.1 h)), if_neg hold]
  · rw [AList.lookup_eq_none.2 hmem]
    split <;> split <;> rfl

end

/-! ## A packet in sync -/

/-- The decoder has the packets `ts` of block `id`. -/
def FecDecoder.Holding (dec : FecDecoder) (id : UInt32) (ts : List Faketcp.FecPacket) : Prop :=
  Holds ((dec.shardSet.lookup id).getD newShardHeap) ts

/-- The decoder `dec'` after `dec` took a packet of block `id`, of which it then has `ts`. -/
def Moved (dec : FecDecoder) (id : UInt32) (ts : List Faketcp.FecPacket) (dec' : FecDecoder) :
    Prop :=
  ∃ h shardSet, dec' = { dec with shardSet, minShardId := id } ∧ Holds h ts ∧
    ∀ id', shardSet.lookup id' =
      if id'.toNat + 3 < id.toNat then none
      else if id' = id then some h else dec.shardSet.lookup id'

/-- **What a call does with the packet `sn`, `fl`, `shard` in sync**: the shards it returns, and the
decoder after it. -/
inductive Received (dec : FecDecoder) (sn : UInt32) (fl : UInt16) (shard : Bytes) :
    List Bytes → FecDecoder → Prop
  /-- A packet of a later block was there before. -/
  | late : (dec.getShardId sn).toNat < dec.minShardId.toNat → Received dec sn fl shard [] dec
  | duplicate {ts : List Faketcp.FecPacket} : dec.Holding (dec.getShardId sn) ts →
      dec.minShardId.toNat ≤ (dec.getShardId sn).toNat → (∃ q ∈ ts, q.seqid = sn) →
      Received dec sn fl shard [] dec
  | stored {ts : List Faketcp.FecPacket} {t : Slice UInt8} {dec' : FecDecoder} :
      dec.Holding (dec.getShardId sn) ts → dec.minShardId.toNat ≤ (dec.getShardId sn).toNat →
      (∀ q ∈ ts, q.seqid ≠ sn) → t.data = shard → ts.length + 1 < dec.dataShards →
      Moved dec (dec.getShardId sn) (ts ++ [⟨sn, fl, t⟩]) dec' → Received dec sn fl shard [] dec'
  /-- The packet is the last one that its block needs. -/
  | complete {ts : List Faketcp.FecPacket} {t : Slice UInt8} {dec' : FecDecoder} {w : WorkingSet} :
      dec.Holding (dec.getShardId sn) ts → dec.minShardId.toNat ≤ (dec.getShardId sn).toNat →
      (∀ q ∈ ts, q.seqid ≠ sn) → t.data = shard → dec.dataShards ≤ ts.length + 1 →
      Filled dec.shardSize (UInt32.ofNat dec.shardSize)
        (ts ++ [(⟨sn, fl, t⟩ : Faketcp.FecPacket)]).reverse w →
      Moved dec (dec.getShardId sn) [] dec' → Received dec sn fl shard (dec.outcome w) dec'

section
variable {dec : FecDecoder} {id sn : UInt32} {fl : UInt16} {shard : Bytes} {pkt : FecPacket}

/-- The heap put back, `minShardId` raised and the old blocks flushed. -/
theorem moved_ok (hmin : dec.minShardId.toNat ≤ id.toNat) (hid : id.toNat < 2 ^ 31)
    (hkeys : ∀ id' ∈ dec.shardSet, id'.toNat < 2 ^ 31) {h : ShardHeap} {ts : List Faketcp.FecPacket}
    (hh : Holds h ts) (snmp : Snmp) :
    ∃ dec' snmp', (
        let s := FecDecoder.raiseMin { dec with shardSet := dec.shardSet.insert id h } id snmp
        s.1.flushShards s.2) = (dec', snmp') ∧ Moved dec id ts dec' ∧
      snmp'.fecRecovered = snmp.fecRecovered := by
  -- in either case the minimum is now the packet's block
  obtain ⟨snmp1, hraise, hcount⟩ : ∃ snmp1,
      FecDecoder.raiseMin { dec with shardSet := dec.shardSet.insert id h } id snmp =
        ({ dec with shardSet := dec.shardSet.insert id h, minShardId := id }, snmp1) ∧
      snmp1.fecRecovered = snmp.fecRecovered := by
    unfold FecDecoder.raiseMin
    by_cases hgt : dec.minShardId.toNat < id.toNat
    · rw [if_pos ((itimediff_pos_iff hid (by show dec.minShardId.toNat < _; omega)).2 hgt)]
      exact ⟨_, rfl, rfl⟩
    · have he : dec.minShardId = id := UInt32.toNat_inj.1 (by omega)
      rw [if_neg fun hp =>
        hgt ((itimediff_pos_iff hid (by show dec.minShardId.toNat < _; omega)).1 hp)]
      exact ⟨snmp, by rw [← he], rfl⟩
  rw [hraise]
  refine ⟨_, _, rfl, ⟨h, _, rfl, hh, fun id' => ?_⟩, hcount⟩
  have hlook := @lookup_flushShards
    { dec with shardSet := dec.shardSet.insert id h, minShardId := id } hid
    (fun id' hid' => by
      rcases (AList.mem_insert _).1 hid' with rfl | hid'
      · exact hid
      · exact hkeys id' hid') snmp1 id'
  refine hlook.trans ?_
  dsimp only
  rw [GoMap.lookup_insert_of]

/-- **A packet that is new to its block.** -/
theorem insertPacket_ok (hs : dec.Sized) (hcache : dec.cacheSize = dec.shardSize)
    (hmin : dec.minShardId.toNat ≤ (dec.getShardId sn).toNat)
    (hkeys : ∀ id ∈ dec.shardSet, id.toNat < 2 ^ 31) (hpkt : pkt.data = packet sn fl shard)
    (hlen : shard.length + 6 ≤ mtuLimit) {ts : List Faketcp.FecPacket}
    (hts : dec.Holding (dec.getShardId sn) ts) (hnew : ∀ q ∈ ts, q.seqid ≠ sn) (snmp : Snmp)
    (buf : PoolBuf) :
    ∃ out dec' snmp', dec.insertPacket (dec.getShardId sn)
        ((dec.shardSet.lookup (dec.getShardId sn)).getD newShardHeap) snmp pkt buf =
          .ok (out, dec', snmp') ∧ Received dec sn fl shard out dec' ∧
      snmp'.fecRecovered = snmp.fecRecovered + UInt64.ofNat out.length := by
  obtain ⟨s, t, hcopy, hstored, htd, htc⟩ := copy_ok buf hpkt hlen
  obtain ⟨h, hpush, hh⟩ := push_ok hts hstored htc (by
    rw [Bool.eq_false_iff]
    intro hhas
    obtain ⟨q, hq, he⟩ := (hts.marks _).1 hhas
    exact hnew q hq he)
  have hhl : h.len = ts.length + 1 := by rw [hh.len, List.length_append, List.length_singleton]
  have hid := hs.shardId_lt sn
  unfold FecDecoder.insertPacket
  rw [hcopy, ok_bind, hpush, ok_bind, hhl]
  by_cases hfull : ts.length + 1 ≥ dec.dataShards
  · obtain ⟨h', w, snmp1, hcomp, hh', hw, hcount⟩ := completeShard_ok (by have := hs.two_le; omega)
      hs.size_eq hs.toNat_size hcache hh snmp
    obtain ⟨dec', snmp', hmove, hmoved, hcount'⟩ := moved_ok hmin hid hkeys hh' snmp1
    rw [if_pos hfull, hcomp, ok_bind]
    exact ⟨dec.outcome w, dec', snmp', congrArg (fun r => Except.ok (dec.outcome w, r)) hmove,
      .complete hts hmin hnew htd hfull hw hmoved, hcount'.trans hcount⟩
  · obtain ⟨dec', snmp', hmove, hmoved, hcount'⟩ := moved_ok hmin hid hkeys hh snmp
    rw [if_neg hfull, pure_eq_ok, ok_bind]
    exact ⟨[], dec', snmp', congrArg (fun r => Except.ok ([], r)) hmove,
      .stored hts hmin hnew htd (by omega) hmoved, by simpa using hcount'⟩

/-- **A packet in sync**: the call does one of the four, and does not panic. -/
theorem receive_ok (hs : dec.Sized) (hcache : dec.cacheSize = dec.shardSize)
    (hmin : dec.minShardId.toNat < 2 ^ 31) (hkeys : ∀ id ∈ dec.shardSet, id.toNat < 2 ^ 31)
    (hpkt : pkt.data = packet sn fl shard) (hlen : shard.length + 6 ≤ mtuLimit)
    {ts : List Faketcp.FecPacket} (hts : dec.Holding (dec.getShardId sn) ts) (snmp : Snmp)
    (buf : PoolBuf) :
    ∃ out dec' snmp', dec.receive fl sn snmp pkt buf = .ok (out, dec', snmp') ∧
      Received dec sn fl shard out dec' ∧
      snmp'.fecRecovered = snmp.fecRecovered + UInt64.ofNat out.length := by
  have hid := hs.shardId_lt sn
  unfold FecDecoder.receive
  dsimp only
  by_cases hlate : (dec.getShardId sn).toNat < dec.minShardId.toNat
  · rw [if_pos ((itimediff_neg_iff hid hmin).2 hlate)]
    exact ⟨[], dec, snmp, rfl, .late hlate, by simp⟩
  rw [if_neg fun h => hlate ((itimediff_neg_iff hid hmin).1 h)]
  have hge : dec.minShardId.toNat ≤ (dec.getShardId sn).toNat := Nat.le_of_not_lt hlate
  by_cases hdup : ((dec.shardSet.lookup (dec.getShardId sn)).getD newShardHeap).has sn = true
  · rw [if_pos hdup]
    refine ⟨[], dec, _, rfl, .duplicate hts hge ((hts.marks sn).1 hdup), ?_⟩
    split <;> simp
  · rw [if_neg hdup]
    have hnew : ∀ q ∈ ts, q.seqid ≠ sn := fun q hq he => hdup ((hts.marks sn).2 ⟨q, hq, he⟩)
    -- the counters that are written before the packet is inserted do not count recovered shards
    suffices h : ∀ snmp1 : Snmp, snmp1.fecRecovered = snmp.fecRecovered →
        ∃ out dec' snmp', dec.insertPacket (dec.getShardId sn)
            ((dec.shardSet.lookup (dec.getShardId sn)).getD newShardHeap) snmp1 pkt buf =
              .ok (out, dec', snmp') ∧ Received dec sn fl shard out dec' ∧
          snmp'.fecRecovered = snmp.fecRecovered + UInt64.ofNat out.length from
      h _ (by split <;> split <;> rfl)
    intro snmp1 h1
    rw [← h1]
    exact insertPacket_ok hs hcache hge hkeys hpkt hlen hts hnew snmp1 buf

end

end Fecv2
