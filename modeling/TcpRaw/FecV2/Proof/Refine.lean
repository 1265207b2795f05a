import TcpRaw.Fec.Proof.Block
import TcpRaw.FecV2.Proof.Safe
import TcpRaw.FecV2.Stream
import TcpRaw.Lib.Collector
import TcpRaw.Lib.Keyed

/-!
# The decoder collects blocks

On the packets of a sender with the same parameters the decoder is a collector of the latest block
(`Lib/Collector.lean`): `Follows` relates the two, `follows_step` is one packet. Of the shard sets
only the one of the latest block ever matters, so that the three older ones that `flushShards`
spares are never used again. The shards that a call returns are the padded data shards of the
packets that the collector gives out (`outcome_eq`).

`decoder_collects` is the run: no packet is out of sync, and what the calls return is what the
collector gives out.
-/

namespace Fecv2

open GoRt Erasure Collector
open Faketcp (blockShard blockOf packet flagOf padTo blockLen sized paddedData FromBlock missing
  blockShard_length codeword_shard length_of_blockShard length_paddedData size_paddedData
  length_blockOf_le mem_blockOf)

/-! ## The shards of a complete block -/

section
variable {codec : Codec UInt8} {d p B : Nat} {blk : List Bytes} {n : UInt32}
  {ts : List Faketcp.FecPacket} {w : WorkingSet}

/-- The sequence ids of packets. -/
def seqs (ts : List Faketcp.FecPacket) : List Nat := ts.map fun q => q.seqid.toNat

/-- The packets `ts` are of block `B`, whose payloads are `blk`. -/
structure FromB (codec : Codec UInt8) (d p B : Nat) (blk : List Bytes)
    (ts : List Faketcp.FecPacket) : Prop where
  block : ∀ q ∈ ts, q.seqid.toNat / (d + p) = B
  shard : ∀ q ∈ ts, FromBlock codec d p blk q
  nodup : (seqs ts).Nodup

theorem FromB.nodup_positions (h : FromB codec d p B blk ts) :
    (ts.map fun q => q.seqid.toNat % (d + p)).Nodup := by
  have hpos : (ts.map fun q => q.seqid.toNat % (d + p)) = (seqs ts).map (· % (d + p)) := by
    simp [seqs]
  rw [hpos]
  refine List.Nodup.map_on (fun a ha b hb hab => ?_) h.nodup
  obtain ⟨q, hq, rfl⟩ := List.mem_map.1 ha
  obtain ⟨q', hq', rfl⟩ := List.mem_map.1 hb
  rw [← Nat.div_add_mod q.seqid.toNat (d + p), ← Nat.div_add_mod q'.seqid.toNat (d + p),
    h.block q hq, h.block q' hq', hab]

/-- A data position of the block is there if the packet with its number is. -/
theorem FromB.position_iff (h : FromB codec d p B blk ts) {j : Nat} (hj : j < d + p) :
    (∃ q ∈ ts, q.seqid.toNat % (d + p) = j) ↔ B * (d + p) + j ∈ seqs ts := by
  simp only [seqs, List.mem_map]
  refine exists_congr fun q => and_congr_right fun hq => ?_
  have hdm := Nat.div_add_mod q.seqid.toNat (d + p)
  rw [h.block q hq, Nat.mul_comm] at hdm
  constructor
  · rintro rfl
    exact hdm.symm
  · intro he
    omega

section
variable (hw : Filled (d + p) n ts w) (hn : n.toNat = d + p)
include hw hn

theorem Filled.flag_iff {k : Nat} (hk : k < d + p) :
    w.shardsflag[k]?.getD false = true ↔ ∃ q ∈ ts, q.seqid.toNat % (d + p) = k := by
  have hflag := hw.flag k hk
  have hshard := hw.of_shard k
  simp only [WorkingSet.toAssembly] at hflag hshard
  rw [hflag, Option.getD_some]
  constructor
  · intro h
    obtain ⟨s, hs⟩ := Option.isSome_iff_exists.1 h
    obtain ⟨q, hq, hqk, -⟩ := hshard s (Option.join_eq_some_iff.1 hs)
    rw [UInt32.toNat_mod, hn] at hqk
    exact ⟨q, hq, hqk⟩
  · rintro ⟨q, hq, rfl⟩
    obtain ⟨s, hs⟩ := hw.shard_of q hq
    simp only [WorkingSet.toAssembly] at hs
    rw [UInt32.toNat_mod, hn] at hs
    rw [hs]
    rfl

theorem Filled.shard_at {q : Faketcp.FecPacket} (hq : q ∈ ts) :
    ∃ s, w.shards[q.seqid.toNat % (d + p)]? = some (some s) := by
  obtain ⟨s, hs⟩ := hw.shard_of q hq
  rw [UInt32.toNat_mod, hn] at hs
  exact ⟨s, hs⟩

/-- A shard that the codec sees is the one of the block at its position, padded. -/
theorem Filled.codec_shard (h : FromB codec d p B blk ts) {k : Nat} {s : Bytes}
    (hs : w.codecArg[k]? = some (some s)) :
    ∃ t, s = padTo w.maxlen t ∧ t.length ≤ w.maxlen ∧ blockShard codec d blk k = some t := by
  rw [WorkingSet.codecArg, List.getElem?_map] at hs
  obtain ⟨o, ho, hos⟩ := Option.map_eq_some_iff.1 hs
  split at hos
  · cases hos
  · obtain ⟨t, rfl, rfl⟩ := Option.map_eq_some_iff.1 hos
    obtain ⟨q, hq, hk, rfl⟩ := hw.of_shard k t ho
    rw [UInt32.toNat_mod, hn] at hk
    refine ⟨q.data.data, rfl, ?_, hk ▸ (h.shard q hq).shard⟩
    rw [Slice.length_data]
    exact hw.le_maxlen q hq

theorem Filled.present (h : FromB codec d p B blk ts) (hmax : w.maxlen ≠ 0) :
    ts.length ≤ present w.codecArg := by
  have hcount := Keyed.length_le_countP (p := Option.isSome) (l := w.codecArg) h.nodup_positions
    fun j hj => by
      obtain ⟨q, hq, rfl⟩ := List.mem_map.1 hj
      obtain ⟨s, hs⟩ := hw.shard_at hn hq
      refine ⟨some (padTo w.maxlen s.data), ?_, rfl⟩
      rw [WorkingSet.codecArg, List.getElem?_map, hs, Option.map_some, if_neg hmax]
      rfl
  rwa [List.length_map] at hcount

omit hn in
theorem Filled.maxlen_eq (hlaw : codec.Lawful d p) (h0 : 0 < d) (h : FromB codec d p B blk ts)
    {j : Nat} {t : Bytes} (hj : d ≤ j) (hle : t.length ≤ w.maxlen)
    (ht : blockShard codec d blk j = some t) : w.maxlen = blockLen blk := by
  have hfull := (blockShard_length hlaw h0 ht).2.2 hj
  rcases hw.maxlen with hz | ⟨q, hq, he⟩
  · have hz' : w.maxlen = 0 := hz
    omega
  · have he' : q.data.len = w.maxlen := he
    have := (blockShard_length hlaw h0 (h.shard q hq).shard).2.1
    rw [Slice.length_data] at this
    omega

/-- **The shards that the codec sees are a part of the block's codeword**, if a parity shard is
there. -/
theorem Filled.part (hlaw : codec.Lawful d p) (h0 : 0 < d) (hblk : blk.length ≤ d)
    (h : FromB codec d p B blk ts) {j : Nat} {s : Bytes} (hj : d ≤ j)
    (hs : w.codecArg[j]? = some (some s)) :
    ∃ parity, codec.Codeword d p (blockLen blk) (paddedData blk) parity ∧ 0 < blockLen blk ∧
      blk.length = d ∧ Part (paddedData blk ++ parity) w.codecArg := by
  obtain ⟨t, -, hle, ht⟩ := hw.codec_shard hn h hs
  obtain ⟨h2, -, hfull⟩ := blockShard_length hlaw h0 ht
  have hlen := length_of_blockShard hblk ht (by omega)
  have hmax := hw.maxlen_eq hlaw h0 h hj hle ht
  have hpos : 0 < blockLen blk := by
    rw [← hfull hj]
    omega
  obtain ⟨parity, hcw⟩ := hlaw.encode_ok ((length_paddedData blk).trans hlen) hpos
    fun s hs => size_paddedData hs
  refine ⟨parity, hcw, hpos, hlen, ?_, fun k s hk => ?_⟩
  · rw [hcw.length, WorkingSet.codecArg, List.length_map]
    exact hw.shards_length
  · obtain ⟨t, rfl, -, ht⟩ := hw.codec_shard hn h hk
    rw [hmax]
    exact codeword_shard hlaw h0 hlen hcw ht

end

/-- The data shards of a block that are not there, as a call returns them. -/
def lostShards (d B n : Nat) (blk : List Bytes) (ks : List Nat) : List Bytes :=
  ((List.range d).filter fun j => B * n + j ∉ ks).map fun j =>
    padTo (blockLen blk) (sized (blk.getD j []))

theorem lostShards_eq_nil {n : Nat} {ks : List Nat} (h : ∀ j < d, B * n + j ∈ ks) :
    lostShards d B n blk ks = [] := by
  simp only [lostShards, List.map_eq_nil_iff, List.filter_eq_nil_iff, List.mem_range]
  intro j hj
  simpa using h j hj

theorem FromB.all_data (h : FromB codec d p B blk ts) (hp : 0 < p)
    (hd : ts.countP (·.flag = Faketcp.typeData) = d) : ∀ j < d, B * (d + p) + j ∈ seqs ts := by
  -- the data packets have distinct positions below `d`
  have hsub : ((ts.filter (·.flag = Faketcp.typeData)).map fun q => q.seqid.toNat % (d + p)) ⊆
      List.range d := by
    intro j hj
    obtain ⟨q, hq, rfl⟩ := List.mem_map.1 hj
    obtain ⟨hq, hfl⟩ := List.mem_filter.1 hq
    rw [List.mem_range]
    by_contra hge
    have := (h.shard q hq).flag
    rw [flagOf, if_neg hge] at this
    rw [decide_eq_true_iff, this] at hfl
    exact absurd hfl (by decide)
  have hnodup :
      ((ts.filter (·.flag = Faketcp.typeData)).map fun q => q.seqid.toNat % (d + p)).Nodup :=
    List.Nodup.sublist (List.Sublist.map _ List.filter_sublist) h.nodup_positions
  have hperm := (List.subperm_of_subset hnodup hsub).perm_of_length_le (by
    rw [List.length_range, List.length_map, ← List.countP_eq_length_filter, hd])
  intro j hj
  rw [← h.position_iff (by omega)]
  obtain ⟨q, hq, he⟩ := List.mem_map.1 (hperm.mem_iff.2 (List.mem_range.2 hj))
  exact ⟨q, (List.mem_filter.1 hq).1, he⟩

/-- **A complete block**: the call returns its data shards that are not there. -/
theorem outcome_eq (hlaw : codec.Lawful d p) (h0 : 0 < d) (hp : 0 < p) {dec : FecDecoder}
    (hdata : dec.dataShards = d) (hcodec : dec.codec = codec) (hblk : blk.length ≤ d)
    (hw : Filled (d + p) n ts w) (hn : n.toNat = d + p) (h : FromB codec d p B blk ts)
    (hlen : d ≤ ts.length) : dec.outcome w = lostShards d B (d + p) blk (seqs ts) := by
  have hflag : ∀ j < d, w.shardsflag[j]?.getD false = true ↔ B * (d + p) + j ∈ seqs ts := by
    intro j hj
    rw [hw.flag_iff hn (by omega), h.position_iff (by omega)]
  unfold FecDecoder.outcome
  rw [hdata, hcodec]
  by_cases hfull : w.numDataShard = d
  · rw [if_pos hfull, lostShards_eq_nil (h.all_data hp (hw.numDataShard ▸ hfull))]
  rw [if_neg hfull]
  by_cases hall : ∀ j < d, B * (d + p) + j ∈ seqs ts
  · rw [lostShards_eq_nil hall]
    cases codec.reconstructData w.codecArg with
    | none => rfl
    | some out => exact Faketcp.missing_eq_nil (fun j hj => (hflag j hj).2 (hall j hj)) out
  -- a missing data shard, so a parity shard is there
  push Not at hall
  obtain ⟨k, hk, hlost⟩ := hall
  have hmax : w.maxlen ≠ 0 := by
    obtain ⟨q, hq⟩ := List.exists_mem_of_length_pos (Nat.lt_of_lt_of_le h0 hlen)
    have hle : q.data.len ≤ w.maxlen := hw.le_maxlen q hq
    have h2 := (blockShard_length hlaw h0 (h.shard q hq).shard).1
    rw [Slice.length_data] at h2
    omega
  have hpresent := Nat.le_trans hlen (hw.present hn h hmax)
  obtain ⟨j, s, hj, hs⟩ := exists_parity hpresent hk fun s hs => hlost (by
    rw [← hflag k hk, hw.flag_iff hn (by omega)]
    rw [WorkingSet.codecArg, List.getElem?_map] at hs
    obtain ⟨o, ho, hos⟩ := Option.map_eq_some_iff.1 hs
    split at hos
    · cases hos
    · obtain ⟨t, rfl, -⟩ := Option.map_eq_some_iff.1 hos
      obtain ⟨q, hq, hqk, -⟩ := hw.of_shard k t ho
      rw [UInt32.toNat_mod, hn] at hqk
      exact ⟨q, hq, hqk⟩)
  obtain ⟨parity, hcw, hpos, hblkd, hpart⟩ := hw.part hn hlaw h0 hblk h hj hs
  obtain ⟨out, hout, hget⟩ := hlaw.reconstruct_ok hpos hcw hpart hpresent
  rw [hout, Option.map_some, Option.getD_some, missing, lostShards, ← List.filterMap_eq_map,
    List.filterMap_filter]
  refine List.filterMap_congr fun j hj => ?_
  have hj := List.mem_range.1 hj
  have hlt : j < blk.length := by omega
  rw [hget j hj, paddedData, List.getElem?_map, List.getElem?_eq_getElem hlt]
  by_cases hmem : B * (d + p) + j ∈ seqs ts
  · rw [if_pos ((hflag j hj).2 hmem), if_neg (by simpa using hmem)]
  · rw [if_neg fun hf => hmem ((hflag j hj).1 hf), if_pos (by simpa using hmem)]
    simp [hlt]

end

/-! ## The decoder follows the collector -/

section
variable {rs : Nat → Nat → Option (Codec UInt8)} {codec : Codec UInt8} {d p : Nat} {ps : List Bytes}
  {dec dec' : FecDecoder} {c : State}

/-- The decoder, in sync with a sender of `ps`, holds what the collector does. -/
structure Follows (rs : Nat → Nat → Option (Codec UInt8)) (codec : Codec UInt8) (d p : Nat)
    (ps : List Bytes) (dec : FecDecoder) (c : State) : Prop where
  inv : dec.Inv rs
  data : dec.dataShards = d
  parity : dec.parityShards = p
  code : dec.codec = codec
  sync : dec.shouldTune = false
  block : dec.minShardId.toNat = c.block
  held : ∃ ts, dec.Holding dec.minShardId ts ∧ seqs ts = c.held ∧
    FromB codec d p c.block (blockOf d c.block ps) ts

theorem Follows.shardSize (h : Follows rs codec d p ps dec c) : dec.shardSize = d + p := by
  rw [h.inv.sized.size_eq, h.data, h.parity]

theorem Follows.holding (h : Follows rs codec d p ps dec c) {id : UInt32}
    (hid : dec.minShardId.toNat ≤ id.toNat) {ts : List Faketcp.FecPacket}
    (hts : dec.Holding id ts) :
    seqs ts = c.heldOf id.toNat ∧ FromB codec d p id.toNat (blockOf d id.toNat ps) ts := by
  by_cases he : id = dec.minShardId
  · subst he
    obtain ⟨us, hus, hseqs, hfrom⟩ := h.held
    obtain rfl := hts.unique hus
    rw [h.block]
    exact ⟨by rw [hseqs, State.heldOf, if_pos rfl], hfrom⟩
  · -- no shard set is ahead of `minShardId`
    have hne : id.toNat ≠ dec.minShardId.toNat := fun h => he (UInt32.toNat_inj.1 h)
    have hnone : dec.shardSet.lookup id = none := by
      cases hl : dec.shardSet.lookup id with
      | none => rfl
      | some heap =>
        have := (h.inv.shard id heap hl).1
        omega
    unfold FecDecoder.Holding at hts
    rw [hnone] at hts
    obtain rfl := hts.unique holds_new
    refine ⟨?_, ⟨by simp, by simp, List.nodup_nil⟩⟩
    rw [State.heldOf, if_neg fun hb => hne (by rw [h.block, hb])]
    rfl

theorem Follows.observe (h : Follows rs codec d p ps dec c) {sn : UInt32} {fl : UInt16}
    (hs : (dec.observe fl sn).shouldTune = false) :
    Follows rs codec d p ps (dec.observe fl sn) c where
  inv := h.inv.observe fl sn
  data := h.data
  parity := h.parity
  code := h.code
  sync := hs
  block := h.block
  held := h.held

theorem FromB.concat {B : Nat} {blk : List Bytes} {ts : List Faketcp.FecPacket}
    {q : Faketcp.FecPacket} (h : FromB codec d p B blk ts) (hB : q.seqid.toNat / (d + p) = B)
    (hq : FromBlock codec d p blk q) (hnew : q.seqid.toNat ∉ seqs ts) :
    FromB codec d p B blk (ts ++ [q]) where
  block q' hq' := by
    rcases List.mem_append.1 hq' with hq' | hq'
    · exact h.block q' hq'
    · rw [List.mem_singleton.1 hq']
      exact hB
  shard q' hq' := by
    rcases List.mem_append.1 hq' with hq' | hq'
    · exact h.shard q' hq'
    · rw [List.mem_singleton.1 hq']
      exact hq
  nodup := by
    rw [seqs, List.map_append, List.map_singleton, List.nodup_append]
    refine ⟨h.nodup, List.nodup_singleton _, fun a ha b hb hab => hnew ?_⟩
    rw [← List.mem_singleton.1 hb, ← hab]
    exact ha

theorem FromB.reverse {B : Nat} {blk : List Bytes} {ts : List Faketcp.FecPacket}
    (h : FromB codec d p B blk ts) : FromB codec d p B blk ts.reverse where
  block q hq := h.block q (List.mem_reverse.1 hq)
  shard q hq := h.shard q (List.mem_reverse.1 hq)
  nodup := by
    rw [seqs, List.map_reverse, List.nodup_reverse]
    exact h.nodup

theorem Follows.moved (h : Follows rs codec d p ps dec c) {id : UInt32}
    {ts : List Faketcp.FecPacket} (hinv : dec'.Inv rs) (hm : Moved dec id ts dec')
    (hfrom : FromB codec d p id.toNat (blockOf d id.toNat ps) ts) :
    Follows rs codec d p ps dec' ⟨id.toNat, seqs ts⟩ := by
  obtain ⟨heap, shardSet, rfl, hheap, hlook⟩ := hm
  refine ⟨hinv, h.data, h.parity, h.code, h.sync, rfl, ts, ?_, rfl, hfrom⟩
  unfold FecDecoder.Holding
  dsimp only
  rw [hlook, if_neg (by omega), if_pos rfl]
  exact hheap

theorem lostShards_wanted {B : Nat} (hp : 0 < p) (ks : List Nat) :
    lostShards d B (d + p) (blockOf d B ps) ks =
      ((wanted d (d + p) B).filter (· ∉ ks)).map (dataShard d p ps) := by
  rw [wanted, List.filter_map, List.map_map, lostShards]
  refine List.map_congr_left fun j hj => ?_
  have hj := List.mem_range.1 (List.mem_of_mem_filter hj)
  obtain ⟨hdiv, hmod⟩ := Faketcp.div_mod_of_eq (k := B * (d + p) + j) rfl (by omega : j < d + p)
  simp only [Function.comp_apply, dataShard, hdiv, hmod]

/-- **A packet of the sender, received.** -/
theorem Follows.received (hlaw : codec.Lawful d p) (h : Follows rs codec d p ps dec c) {k : Nat}
    {sn : UInt32} {fl : UInt16} {shard : Bytes} {out : List Bytes} (hsn : sn.toNat = k)
    (hfl : fl = flagOf d (k % (d + p)))
    (hshard : blockShard codec d (blockOf d (k / (d + p)) ps) (k % (d + p)) = some shard)
    (hr : Received dec sn fl shard out dec') :
    out = (c.arrive d (d + p) k).1.map (dataShard d p ps) ∧
      Follows rs codec d p ps dec' (c.arrive d (d + p) k).2 := by
  subst hsn
  have hsize := h.shardSize
  have h0 : 0 < d := h.data ▸ h.inv.sized.data_pos
  have hp : 0 < p := h.parity ▸ h.inv.sized.parity_pos
  have hid : (dec.getShardId sn).toNat = sn.toNat / (d + p) := by
    rw [h.inv.sized.toNat_shardId, hsize]
  have hinv := (h.inv.received (by rw [h.data, hsize]; exact hfl) hr).1
  -- what all cases but the first know of the block
  have hblock : ∀ {ts : List Faketcp.FecPacket}, dec.Holding (dec.getShardId sn) ts →
      dec.minShardId.toNat ≤ (dec.getShardId sn).toNat →
      ¬ sn.toNat / (d + p) < c.block ∧ seqs ts = c.heldOf (sn.toNat / (d + p)) ∧
        FromB codec d p (sn.toNat / (d + p)) (blockOf d (sn.toNat / (d + p)) ps) ts := by
    intro ts hts hmin
    have hold := h.holding hmin hts
    rw [hid] at hold hmin
    rw [h.block] at hmin
    exact ⟨Nat.not_lt.2 hmin, hold⟩
  have hnotMem : ∀ {ts : List Faketcp.FecPacket}, (∀ q ∈ ts, q.seqid ≠ sn) →
      sn.toNat ∉ seqs ts := by
    intro ts hnew hmem
    obtain ⟨q, hq, he⟩ := List.mem_map.1 hmem
    exact hnew q hq (UInt32.toNat_inj.1 he)
  unfold State.arrive
  cases hr with
  | late hlt =>
    rw [hid, h.block] at hlt
    rw [if_pos hlt]
    exact ⟨rfl, h⟩
  | duplicate hts hmin hdup =>
    obtain ⟨hge, hseqs, -⟩ := hblock hts hmin
    obtain ⟨q, hq, rfl⟩ := hdup
    rw [if_neg hge, if_pos (by rw [← hseqs]; exact List.mem_map.2 ⟨q, hq, rfl⟩)]
    exact ⟨rfl, h⟩
  | @stored ts t _ hts hmin hnew ht hfew hm =>
    obtain ⟨hge, hseqs, hfrom⟩ := hblock hts hmin
    have hnot := hnotMem hnew
    have hlen : (c.heldOf (sn.toNat / (d + p))).length = ts.length := by rw [← hseqs]; simp [seqs]
    rw [if_neg hge, ← hseqs, if_neg hnot, hseqs, hlen, if_pos (by rw [← h.data]; exact hfew)]
    have hnext := h.moved hinv hm (by
      rw [hid]
      exact hfrom.concat rfl ⟨hfl, by rw [ht]; exact hshard⟩ hnot)
    rw [hid, seqs, List.map_append] at hnext
    exact ⟨rfl, by rw [← hseqs]; exact hnext⟩
  | @complete ts t _ w hts hmin hnew ht hfull hw hm =>
    obtain ⟨hge, hseqs, hfrom⟩ := hblock hts hmin
    have hnot := hnotMem hnew
    have hlen : (c.heldOf (sn.toNat / (d + p))).length = ts.length := by rw [← hseqs]; simp [seqs]
    rw [h.data] at hfull
    rw [if_neg hge, ← hseqs, if_neg hnot, hseqs, hlen, if_neg (by omega)]
    have hall := hfrom.concat (q := ⟨sn, fl, t⟩) rfl ⟨hfl, by rw [ht]; exact hshard⟩ hnot
    have hnext := h.moved hinv hm ⟨by simp, by simp, List.nodup_nil⟩
    rw [hid] at hnext
    refine ⟨?_, hnext⟩
    rw [hsize] at hw
    rw [outcome_eq hlaw h0 hp h.data h.code (length_blockOf_le _ _ _) hw
      (by rw [← hsize]; exact h.inv.sized.toNat_size) hall.reverse (by simp; omega),
      lostShards_wanted hp]
    congr 1
    refine List.filter_congr fun j _ => ?_
    simp [seqs, ← hseqs, Bool.and_comm]

/-! ## Runs -/

/-- The packet that arrives is packet `k` of the sender's stream, before the sequence ids wrap. -/
def Carries (codec : Codec UInt8) (d p : Nat) (ps : List Bytes) (a : Arrival) (k : Nat) : Prop :=
  k < pawsOf (d + p) ∧ streamPacket codec d p ps k = some a.pkt.data

theorem blockShard_fits (hlaw : codec.Lawful d p) (h0 : 0 < d)
    (hpay : ∀ b ∈ ps, b.length + 8 ≤ mtuLimit) {B j : Nat} {shard : Bytes}
    (h : blockShard codec d (blockOf d B ps) j = some shard) : shard.length + 6 ≤ mtuLimit := by
  have hle := (blockShard_length hlaw h0 h).2.1
  have hblk : blockLen (blockOf d B ps) ≤ mtuLimit - 6 := Faketcp.blockLen_le fun b hb => by
    have := hpay b (mem_blockOf hb)
    omega
  have : 6 ≤ mtuLimit := by decide
  omega

/-- **One packet of the sender.** -/
theorem follows_step (hlaw : codec.Lawful d p) (hpay : ∀ b ∈ ps, b.length + 8 ≤ mtuLimit)
    (h : Follows rs codec d p ps dec c) {a : Arrival} {k : Nat} (ha : Carries codec d p ps a k)
    (snmp : Snmp) :
    ∃ dec' snmp', dec.decode rs snmp a.pkt a.buf =
        .ok ((c.arrive d (d + p) k).1.map (dataShard d p ps), dec', snmp') ∧
      Follows rs codec d p ps dec' (c.arrive d (d + p) k).2 := by
  obtain ⟨hk, hx⟩ := ha
  obtain ⟨shard, hshard, hpkt⟩ := Option.map_eq_some_iff.1 hx
  have h0 : 0 < d := h.data ▸ h.inv.sized.data_pos
  have hsn := toNat_id hk
  obtain ⟨out, dec', snmp', hok, hdec, -⟩ :=
    decode_ok h.inv hpkt.symm (blockShard_fits hlaw h0 hpay hshard) snmp a.buf
  have hsync : (dec.observe (flagOf d (k % (d + p)))
      (UInt32.ofNat (k % pawsOf (d + p)))).shouldTune = false := by
    rw [observe_sync, h.data, h.shardSize, hsn]
    exact ⟨h.sync, rfl⟩
  cases hdec with
  | tuned ht =>
    rw [hsync] at ht
    cases ht
  | received _ hr =>
    obtain ⟨rfl, hnext⟩ := (h.observe hsync).received hlaw hsn rfl hshard hr
    exact ⟨dec', snmp', hok, hnext⟩

theorem decodeAll_follows (hlaw : codec.Lawful d p) (hpay : ∀ b ∈ ps, b.length + 8 ≤ mtuLimit)
    {arrivals : List Arrival} {ks : List Nat}
    (harr : List.Forall₂ (Carries codec d p ps) arrivals ks) (h : Follows rs codec d p ps dec c)
    (snmp : Snmp) :
    ∃ dec' snmp', FecDecoder.decodeAll rs arrivals dec snmp =
        .ok ((c.run d (d + p) ks).1.map (List.map (dataShard d p ps)), dec', snmp') ∧
      Follows rs codec d p ps dec' (c.run d (d + p) ks).2 := by
  induction harr generalizing dec c snmp with
  | nil => exact ⟨dec, snmp, rfl, h⟩
  | cons ha _ ih =>
    obtain ⟨dec1, snmp1, hok, h1⟩ := follows_step hlaw hpay h ha snmp
    obtain ⟨dec2, snmp2, hrest, h2⟩ := ih h1 snmp1
    refine ⟨dec2, snmp2, ?_, h2⟩
    rw [FecDecoder.decodeAll, hok, ok_bind]
    dsimp only
    rw [hrest]
    rfl

theorem follows_new (hlim : Faketcp.ShardLimit rs) (hrs : rs d p = some codec) (h0 : 0 < d)
    (hp : 0 < p) (ps : List Bytes) :
    ∃ dec, newFECDecoder rs d p = some dec ∧ Follows rs codec d p ps dec ⟨0, []⟩ := by
  have hnew : newFECDecoder rs d p = some
      { dataShards := d, parityShards := p, shardSize := d + p, shardSet := ∅, minShardId := 0
        cacheSize := d + p, codec, autoTune := AutoTune.new, shouldTune := false } := by
    rw [newFECDecoder, if_neg (by omega), hrs]
    rfl
  refine ⟨_, hnew, (inv_new hlim hnew).1, rfl, rfl, rfl, rfl, rfl, [], holds_new, rfl, ?_⟩
  exact ⟨by simp, by simp, List.nodup_nil⟩

/-- **The decoder is a collector of the latest block.** Whatever packets of a sender with the same
parameters arrive, in whatever order and however often, while the sequence ids have not wrapped: no
call panics, none is out of sync, and the calls return exactly the padded data shards of the packets
that a collector of the latest block gives out. -/
theorem decoder_collects (hlim : Faketcp.ShardLimit rs) (hrs : rs d p = some codec)
    (hlaw : codec.Lawful d p) (h0 : 0 < d) (hp : 0 < p) (hpay : ∀ b ∈ ps, b.length + 8 ≤ mtuLimit)
    {arrivals : List Arrival} {ks : List Nat}
    (harr : List.Forall₂ (Carries codec d p ps) arrivals ks) (snmp : Snmp) :
    ∃ dec dec' snmp', newFECDecoder rs d p = some dec ∧
      FecDecoder.decodeAll rs arrivals dec snmp =
        .ok ((State.run d (d + p) ks ⟨0, []⟩).1.map (List.map (dataShard d p ps)), dec', snmp') ∧
      dec'.shouldTune = false ∧
      dec'.minShardId.toNat = (State.run d (d + p) ks ⟨0, []⟩).2.block := by
  obtain ⟨dec, hnew, h⟩ := follows_new hlim hrs h0 hp ps
  obtain ⟨dec', snmp', hok, h'⟩ := decodeAll_follows hlaw hpay harr h snmp
  exact ⟨dec, dec', snmp', hnew, hok, h'.sync, h'.block⟩

end

/-- The parity packet and the first data packet of a block, which give its second data shard. -/
theorem decoder_collects_rs21 :
    ∃ dec dec' snmp', newFECDecoder Faketcp.newRs21 2 1 = some dec ∧
      FecDecoder.decodeAll Faketcp.newRs21
        [⟨Slice.ofList [2, 0, 0, 0, 0xf2, 0, 13, 0, 25, 18], PoolBuf.new⟩,
          ⟨Slice.ofList [0, 0, 0, 0, 0xf1, 0, 3, 0, 7], PoolBuf.new⟩] dec newSnmp =
        .ok ([[], [[4, 0, 8, 9]]], dec', snmp') ∧
      dec'.shouldTune = false := by
  obtain ⟨dec, dec', snmp', hnew, hok, hsync, -⟩ :=
    decoder_collects Faketcp.shardLimit_rs21 (show Faketcp.newRs21 2 1 = some Faketcp.rs21 from rfl)
      Faketcp.rs21_lawful (by decide) (by decide)
      (show ∀ b ∈ ([[7], [8, 9]] : List Bytes), b.length + 8 ≤ mtuLimit by decide)
      (show List.Forall₂ (Carries Faketcp.rs21 2 1 [[7], [8, 9]])
          [⟨Slice.ofList [2, 0, 0, 0, 0xf2, 0, 13, 0, 25, 18], PoolBuf.new⟩,
            ⟨Slice.ofList [0, 0, 0, 0, 0xf1, 0, 3, 0, 7], PoolBuf.new⟩] [2, 0] from
        .cons ⟨by decide, by decide +kernel⟩ (.cons ⟨by decide, by decide +kernel⟩ .nil)) newSnmp
  exact ⟨dec, dec', snmp', hnew, hok, hsync⟩

end Fecv2
