import TcpRaw.Fec.Encoder
import TcpRaw.Fec.Stream
import TcpRaw.Fec.ReedSolomon21
import TcpRaw.FecV2.Proof.Decode

/-!
# The decoder on any packets

`Inv` is what every call keeps, whatever the packet says: the sizes of the blocks, caches that fit
them unless the decoder is out of sync, and heaps of blocks at most three behind `minShardId` that
each hold fewer packets than a block has data shards, of that block and with flags that fit. A
change of parameters empties `shardSet`, so no packet of another block size is left; where the codec
library then refuses them the caches do not fit, but `shouldTune` stays set and no call looks at
them.

`decoder_safe`: on packets of legal length no call panics, and the decoder never holds more than
four blocks.
-/

namespace Fecv2

open GoRt Erasure
open Faketcp (packet flagOf ShardLimit)

section
variable {rs : Nat → Nat → Option (Codec UInt8)} {dec dec' : FecDecoder} {sn : UInt32} {fl : UInt16}
  {shard : Bytes} {out : List Bytes}

/-- The packet belongs to block `id`, and its flag fits its position. -/
structure InBlock (dec : FecDecoder) (id : UInt32) (q : Faketcp.FecPacket) : Prop where
  block : q.seqid.toNat / dec.shardSize = id.toNat
  flag : q.flag = flagOf dec.dataShards (q.seqid.toNat % dec.shardSize)

/-- What every call keeps. -/
structure FecDecoder.Inv (rs : Nat → Nat → Option (Codec UInt8)) (dec : FecDecoder) : Prop where
  sized : dec.Sized
  ready : dec.shouldTune = false →
    dec.cacheSize = dec.shardSize ∧ rs dec.dataShards dec.parityShards = some dec.codec
  min_lt : dec.minShardId.toNat < 2 ^ 31
  shard : ∀ id h, dec.shardSet.lookup id = some h →
    id.toNat ≤ dec.minShardId.toNat ∧ dec.minShardId.toNat ≤ id.toNat + 3 ∧
      ∃ ts, Holds h ts ∧ ts.length < dec.dataShards ∧ ∀ q ∈ ts, InBlock dec id q

theorem FecDecoder.Inv.keys_lt (h : dec.Inv rs) : ∀ id ∈ dec.shardSet, id.toNat < 2 ^ 31 := by
  intro id hid
  obtain ⟨heap, hheap⟩ := Option.isSome_iff_exists.1 (AList.lookup_isSome.2 hid)
  exact Nat.lt_of_le_of_lt (h.shard id heap hheap).1 h.min_lt

theorem FecDecoder.Inv.holding (h : dec.Inv rs) (id : UInt32) :
    ∃ ts, dec.Holding id ts ∧ ts.length < dec.dataShards ∧ ∀ q ∈ ts, InBlock dec id q := by
  unfold FecDecoder.Holding
  cases hl : dec.shardSet.lookup id with
  | none => exact ⟨[], holds_new, h.sized.data_pos, by simp⟩
  | some heap =>
    obtain ⟨-, -, ts, hts, hlt, hq⟩ := h.shard id heap hl
    exact ⟨ts, hts, hlt, hq⟩

theorem FecDecoder.Inv.length_keys (h : dec.Inv rs) : dec.shardSet.keys.length ≤ 4 := by
  -- their distances to `minShardId` are distinct numbers below 4
  have hbound : ∀ id ∈ dec.shardSet.keys,
      id.toNat ≤ dec.minShardId.toNat ∧ dec.minShardId.toNat ≤ id.toNat + 3 := by
    intro id hid
    obtain ⟨heap, hheap⟩ := Option.isSome_iff_exists.1 (AList.lookup_isSome.2 hid)
    exact ⟨(h.shard id heap hheap).1, (h.shard id heap hheap).2.1⟩
  have hnodup : (dec.shardSet.keys.map fun id => dec.minShardId.toNat - id.toNat).Nodup := by
    refine List.Nodup.map_on (fun a ha b hb he => ?_) dec.shardSet.nodupKeys
    have hA := hbound a ha
    have hB := hbound b hb
    exact UInt32.toNat_inj.1 (by omega)
  have hsub : (dec.shardSet.keys.map fun id => dec.minShardId.toNat - id.toNat) ⊆ List.range 4 := by
    intro k hk
    obtain ⟨id, hid, rfl⟩ := List.mem_map.1 hk
    have := hbound id hid
    rw [List.mem_range]
    omega
  have hle := (List.subperm_of_subset hnodup hsub).length_le
  rwa [List.length_map, List.length_range] at hle

/-! ## Steps -/

theorem observe_shouldTune : (dec.observe fl sn).shouldTune = true ↔
    dec.shouldTune = true ∨ fl ≠ flagOf dec.dataShards (sn.toNat % dec.shardSize) := by
  have hdata : Faketcp.typeData = typeData := rfl
  have hparity : Faketcp.typeFEC = typeParity := rfl
  unfold FecDecoder.observe
  dsimp only
  rw [flagOf, hdata, hparity]
  by_cases hpos : sn.toNat % dec.shardSize < dec.dataShards
  · rw [if_pos hpos, if_pos hpos]
    by_cases hfl : fl = typeData <;> simp [hfl]
  · rw [if_neg hpos, if_neg hpos]
    by_cases hfl : fl = typeParity <;> simp [hfl]

theorem observe_sync : (dec.observe fl sn).shouldTune = false ↔
    dec.shouldTune = false ∧ fl = flagOf dec.dataShards (sn.toNat % dec.shardSize) := by
  rw [← Bool.not_eq_true, observe_shouldTune, not_or, Bool.not_eq_true, not_not]

/-- **What the tuner does**: nothing, or it sets the parameters that it found. -/
theorem retune_cases (rs : Nat → Nat → Option (Codec UInt8)) (dec : FecDecoder) :
    dec.retune rs = dec ∨
      ∃ ds ps : Nat, dec.autoTune.findPeriod true = ds ∧ dec.autoTune.findPeriod false = ps ∧
        0 < ds ∧ 0 < ps ∧ ds < 256 ∧ ps < 256 ∧ (ds ≠ dec.dataShards ∨ ps ≠ dec.parityShards) ∧
        (rs ds ps = none ∧ dec.retune rs =
            { dec with
              dataShards := ds, parityShards := ps, shardSize := ds + ps, shardSet := ∅ } ∨
          ∃ codec, rs ds ps = some codec ∧ dec.retune rs =
            { dec with
              dataShards := ds, parityShards := ps, shardSize := ds + ps, shardSet := ∅, codec
              cacheSize := ds + ps, shouldTune := false }) := by
  unfold FecDecoder.retune
  dsimp only
  split
  · rename_i hfound
    split
    · rename_i hdiff
      obtain ⟨ds, hds⟩ := Int.eq_ofNat_of_zero_le (Int.le_of_lt hfound.1)
      obtain ⟨ps, hps⟩ := Int.eq_ofNat_of_zero_le (Int.le_of_lt hfound.2.1)
      rw [hds, hps] at hfound hdiff ⊢
      refine .inr ⟨ds, ps, rfl, rfl, by omega, by omega, by omega, by omega, by omega, ?_⟩
      rw [Int.toNat_natCast, Int.toNat_natCast]
      cases hrs : rs ds ps with
      | none => exact .inl ⟨rfl, rfl⟩
      | some codec => exact .inr ⟨codec, rfl, rfl⟩
    · exact .inl rfl
  · exact .inl rfl

theorem FecDecoder.Inv.observe (h : dec.Inv rs) (fl : UInt16) (sn : UInt32) :
    (dec.observe fl sn).Inv rs where
  sized := ⟨h.sized.data_pos, h.sized.parity_pos, h.sized.size_eq, h.sized.size_le⟩
  ready hs := h.ready (observe_sync.1 hs).1
  min_lt := h.min_lt
  shard id heap hl := by
    obtain ⟨h1, h2, ts, hts, hlt, hq⟩ := h.shard id heap hl
    exact ⟨h1, h2, ts, hts, hlt, fun q hq' => ⟨(hq q hq').block, (hq q hq').flag⟩⟩

theorem FecDecoder.Inv.retune (h : dec.Inv rs) (ht : dec.shouldTune = true) :
    (dec.retune rs).Inv rs := by
  rcases retune_cases rs dec with he | ⟨ds, ps, -, -, hd, hp, hd', hp', -, hcase⟩
  · rw [he]
    exact h
  rcases hcase with ⟨-, he⟩ | ⟨codec, hrs, he⟩
  · rw [he]
    exact ⟨⟨hd, hp, rfl, by show ds + ps ≤ _; omega⟩, fun hs => absurd hs (by rw [ht]; decide),
      h.min_lt, fun id heap hl => nomatch hl⟩
  · rw [he]
    exact ⟨⟨hd, hp, rfl, by show ds + ps ≤ _; omega⟩, fun _ => ⟨rfl, hrs⟩, h.min_lt,
      fun id heap hl => nomatch hl⟩

theorem FecDecoder.Inv.moved (h : dec.Inv rs) {id : UInt32} {ts : List Faketcp.FecPacket}
    (hid : id.toNat < 2 ^ 31) (hmin : dec.minShardId.toNat ≤ id.toNat)
    (hlt : ts.length < dec.dataShards) (hts : ∀ q ∈ ts, InBlock dec id q)
    (hm : Moved dec id ts dec') : dec'.Inv rs := by
  obtain ⟨heap, shardSet, rfl, hheap, hlook⟩ := hm
  refine ⟨⟨h.sized.data_pos, h.sized.parity_pos, h.sized.size_eq, h.sized.size_le⟩, h.ready, hid,
    ?_⟩
  intro id' heap' hl
  rw [hlook] at hl
  split at hl
  · cases hl
  · rename_i hold
    split at hl
    · rename_i he
      subst he
      obtain rfl := Option.some.inj hl
      exact ⟨Nat.le_refl _, Nat.le_add_right _ _, ts, hheap, hlt,
        fun q hq => ⟨(hts q hq).block, (hts q hq).flag⟩⟩
    · obtain ⟨h1, -, us, hus, hlt', hq⟩ := h.shard id' heap' hl
      exact ⟨Nat.le_trans h1 hmin, Nat.le_of_not_lt hold, us, hus, hlt',
        fun q hq' => ⟨(hq q hq').block, (hq q hq').flag⟩⟩

theorem FecDecoder.Inv.received (h : dec.Inv rs)
    (hfl : fl = flagOf dec.dataShards (sn.toNat % dec.shardSize))
    (hr : Received dec sn fl shard out dec') :
    dec'.Inv rs ∧ dec.minShardId.toNat ≤ dec'.minShardId.toNat := by
  have hid := h.sized.shardId_lt sn
  cases hr with
  | late _ => exact ⟨h, Nat.le_refl _⟩
  | duplicate _ _ _ => exact ⟨h, Nat.le_refl _⟩
  | @stored ts t _ hts hmin _ _ hlt hm =>
    obtain ⟨us, hus, -, hq⟩ := h.holding (dec.getShardId sn)
    obtain rfl := hts.unique hus
    refine ⟨h.moved hid hmin (by rw [List.length_append, List.length_singleton]; exact hlt) ?_ hm,
      ?_⟩
    · intro q hq'
      rcases List.mem_append.1 hq' with hq' | hq'
      · exact hq q hq'
      · rw [List.mem_singleton.1 hq']
        exact ⟨(h.sized.toNat_shardId sn).symm, hfl⟩
    · obtain ⟨_, _, rfl, -⟩ := hm
      exact hmin
  | complete _ hmin _ _ _ _ hm =>
    refine ⟨h.moved hid hmin (show ([] : List Faketcp.FecPacket).length < _ from h.sized.data_pos)
      (by simp) hm, ?_⟩
    obtain ⟨_, _, rfl, -⟩ := hm
    exact hmin

/-! ## Calls -/

/-- **What a call does with a packet**: it is out of sync and only tunes, or it receives the
packet. -/
inductive Decoded (rs : Nat → Nat → Option (Codec UInt8)) (dec : FecDecoder) (sn : UInt32)
    (fl : UInt16) (shard : Bytes) : List Bytes → FecDecoder → Prop
  | tuned : (dec.observe fl sn).shouldTune = true →
      Decoded rs dec sn fl shard [] ((dec.observe fl sn).retune rs)
  | received {out : List Bytes} {dec' : FecDecoder} : (dec.observe fl sn).shouldTune = false →
      Received (dec.observe fl sn) sn fl shard out dec' → Decoded rs dec sn fl shard out dec'

/-- **One call** on a packet of legal length. -/
theorem decode_ok (h : dec.Inv rs) {pkt : FecPacket} (hpkt : pkt.data = packet sn fl shard)
    (hlen : shard.length + 6 ≤ mtuLimit) (snmp : Snmp) (buf : PoolBuf) :
    ∃ out dec' snmp', dec.decode rs snmp pkt buf = .ok (out, dec', snmp') ∧
      Decoded rs dec sn fl shard out dec' ∧
      snmp'.fecRecovered = snmp.fecRecovered + UInt64.ofNat out.length := by
  have hobs := h.observe fl sn
  unfold FecDecoder.decode
  rw [flag_packet hpkt, ok_bind, seqid_packet hpkt, ok_bind]
  dsimp only
  cases htune : (dec.observe fl sn).shouldTune with
  | true =>
    rw [if_pos rfl]
    exact ⟨[], _, snmp, rfl, .tuned htune, by simp⟩
  | false =>
    rw [if_neg Bool.false_ne_true]
    obtain ⟨ts, hts, -, -⟩ := hobs.holding ((dec.observe fl sn).getShardId sn)
    obtain ⟨out, dec', snmp', hok, hrec, hcount⟩ := receive_ok hobs.sized (hobs.ready htune).1
      hobs.min_lt hobs.keys_lt hpkt hlen hts snmp buf
    exact ⟨out, dec', snmp', hok, .received htune hrec, hcount⟩

theorem FecDecoder.Inv.decoded (h : dec.Inv rs) (hd : Decoded rs dec sn fl shard out dec') :
    dec'.Inv rs ∧ dec.minShardId.toNat ≤ dec'.minShardId.toNat := by
  have hobs := h.observe fl sn
  cases hd with
  | tuned ht =>
    refine ⟨hobs.retune ht, ?_⟩
    rcases retune_cases rs (dec.observe fl sn) with
      he | ⟨ds, ps, -, -, -, -, -, -, -, ⟨-, he⟩ | ⟨codec, -, he⟩⟩
    all_goals
      rw [he]
      exact Nat.le_refl _
  | received hs hr => exact hobs.received (observe_sync.1 hs).2 hr

/-- **Runs on packets of legal length** keep the invariant; the counter counts what is returned. -/
theorem decodeAll_ok : ∀ (arrivals : List Arrival) {dec : FecDecoder} (snmp : Snmp), dec.Inv rs →
    (∀ a ∈ arrivals, 6 ≤ a.pkt.len ∧ a.pkt.len ≤ mtuLimit) →
    ∃ outs dec' snmp', FecDecoder.decodeAll rs arrivals dec snmp = .ok (outs, dec', snmp') ∧
      dec'.Inv rs ∧ dec.minShardId.toNat ≤ dec'.minShardId.toNat ∧
      snmp'.fecRecovered = snmp.fecRecovered + UInt64.ofNat outs.flatten.length
  | [], dec, snmp, h, _ => ⟨[], dec, snmp, rfl, h, Nat.le_refl _, by simp⟩
  | a :: arrivals, dec, snmp, h, hlen => by
    obtain ⟨h6, hmax⟩ := hlen a (by simp)
    obtain ⟨sn, fl, shard, hpkt⟩ :=
      exists_packet (x := a.pkt.data) (by rw [Slice.length_data]; exact h6)
    have hshard : shard.length + 6 ≤ mtuLimit := by
      rw [← length_packet sn fl shard, ← hpkt, Slice.length_data]
      exact hmax
    obtain ⟨out, dec1, snmp1, hok, hdec, hcount⟩ := decode_ok h hpkt hshard snmp a.buf
    obtain ⟨hinv, hmono⟩ := h.decoded hdec
    obtain ⟨outs, dec2, snmp2, hrest, hinv2, hmono2, hcount2⟩ :=
      decodeAll_ok arrivals snmp1 hinv fun a' ha' => hlen a' (by simp [ha'])
    refine ⟨out :: outs, dec2, snmp2, ?_, hinv2, Nat.le_trans hmono hmono2, ?_⟩
    · rw [FecDecoder.decodeAll, hok, ok_bind]
      dsimp only
      rw [hrest]
      rfl
    · rw [hcount2, hcount, List.flatten_cons, List.length_append, UInt64.ofNat_add,
        UInt64.add_assoc]

theorem inv_new (hrs : ShardLimit rs) {d p : Nat} (h : newFECDecoder rs d p = some dec) :
    dec.Inv rs ∧ dec.dataShards = d ∧ dec.parityShards = p ∧ dec.shouldTune = false ∧
      dec.minShardId = 0 ∧ dec.shardSet = ∅ ∧ dec.autoTune = AutoTune.new := by
  unfold newFECDecoder at h
  split at h
  · cases h
  · rename_i hpos
    obtain ⟨codec, hc, rfl⟩ := Option.map_eq_some_iff.1 h
    have hle := hrs d p codec hc
    exact ⟨⟨⟨by show 0 < d; omega, by show 0 < p; omega, rfl, hle⟩, fun _ => ⟨rfl, hc⟩,
      by show (0 : UInt32).toNat < _; decide, fun id heap hl => nomatch hl⟩,
      rfl, rfl, rfl, rfl, rfl, rfl⟩

/-- **The decoder is safe on any packets.** Whatever sequence ids, flags and shards the packets that
arrive have, and however the parameters are tuned on the way: if each is of legal length, no call
panics, the decoder then holds at most four blocks and of each fewer packets than it needs,
`FECRecovered` counts the shards that were returned, and whatever arrives later, the latest block
does not go back. -/
theorem decoder_safe (hrs : ShardLimit rs) {d p : Nat} (hnew : newFECDecoder rs d p = some dec)
    (snmp : Snmp) {arrivals : List Arrival}
    (hlen : ∀ a ∈ arrivals, 6 ≤ a.pkt.len ∧ a.pkt.len ≤ mtuLimit) :
    ∃ outs dec' snmp', FecDecoder.decodeAll rs arrivals dec snmp = .ok (outs, dec', snmp') ∧
      dec'.shardSet.keys.length ≤ 4 ∧
      (∀ id h, dec'.shardSet.lookup id = some h → h.len < dec'.dataShards ∧
        id.toNat ≤ dec'.minShardId.toNat ∧ dec'.minShardId.toNat ≤ id.toNat + 3) ∧
      snmp'.fecRecovered = snmp.fecRecovered + UInt64.ofNat outs.flatten.length ∧
      ∀ later : List Arrival, (∀ a ∈ later, 6 ≤ a.pkt.len ∧ a.pkt.len ≤ mtuLimit) →
        ∃ outs2 dec2 snmp2, FecDecoder.decodeAll rs later dec' snmp' = .ok (outs2, dec2, snmp2) ∧
          dec'.minShardId.toNat ≤ dec2.minShardId.toNat := by
  obtain ⟨outs, dec', snmp', hok, hinv, -, hcount⟩ :=
    decodeAll_ok arrivals snmp (inv_new hrs hnew).1 hlen
  refine ⟨outs, dec', snmp', hok, hinv.length_keys, fun id h hl => ?_, hcount,
    fun later hlater => ?_⟩
  · obtain ⟨h1, h2, ts, hts, hlt, -⟩ := hinv.shard id h hl
    exact ⟨by rw [hts.len]; exact hlt, h1, h2⟩
  · obtain ⟨outs2, dec2, snmp2, hok2, -, hmono, -⟩ := decodeAll_ok later snmp' hinv hlater
    exact ⟨outs2, dec2, snmp2, hok2, hmono⟩

end

/-- An empty packet with an unknown flag and a data packet far ahead, before a packet of the first
block. -/
theorem decoder_safe_rs21 :
    ∃ dec outs dec' snmp', newFECDecoder Faketcp.newRs21 2 1 = some dec ∧
      FecDecoder.decodeAll Faketcp.newRs21
        [⟨Slice.ofList [5, 0, 0, 0, 7, 0], PoolBuf.new⟩,
          ⟨Slice.ofList [0, 0, 1, 0, 0xf1, 0, 3, 0, 7], PoolBuf.new⟩,
          ⟨Slice.ofList [0, 0, 0, 0, 0xf1, 0, 3, 0, 7], PoolBuf.new⟩] dec newSnmp =
        .ok (outs, dec', snmp') ∧
      dec'.shardSet.keys.length ≤ 4 := by
  obtain ⟨dec, hnew⟩ : ∃ dec, newFECDecoder Faketcp.newRs21 2 1 = some dec := ⟨_, rfl⟩
  obtain ⟨outs, dec', snmp', hok, hkeys, -⟩ :=
    decoder_safe Faketcp.shardLimit_rs21 hnew newSnmp
      (show ∀ a ∈ ([⟨Slice.ofList [5, 0, 0, 0, 7, 0], PoolBuf.new⟩,
          ⟨Slice.ofList [0, 0, 1, 0, 0xf1, 0, 3, 0, 7], PoolBuf.new⟩,
          ⟨Slice.ofList [0, 0, 0, 0, 0xf1, 0, 3, 0, 7], PoolBuf.new⟩] : List Arrival),
        6 ≤ a.pkt.len ∧ a.pkt.len ≤ mtuLimit by decide)
  exact ⟨dec, outs, dec', snmp', hnew, hok, hkeys⟩

end Fecv2
