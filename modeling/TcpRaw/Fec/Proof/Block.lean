import TcpRaw.Fec.Fec
import TcpRaw.Fec.Proof.Decode
import TcpRaw.Fec.Proof.Encode

/-!
# Decoding the packets of one block

When all the packets that the decoder gathers belong to one block of payloads (`FromBlock`), the
shards it hands to the codec are a part of that block's codeword (`part_padded`): if a data shard is
missing, a parity shard is there, so the longest shard is as long as the block's. With `d` shards
the codec gives the missing payloads back (`recovered_eq`), with fewer it fails (`recovered_few`).

`fecDecode_block` is the step of the whole layer under that condition: `Fec.decode` returns the
packet's payload and puts payloads of the same block on `dataCh`, and does not panic.
-/

namespace Faketcp

open GoRt Erasure

/-- A decoder of blocks of `d` data and `p` parity shards with the codec `codec`. -/
structure DecAt (codec : Codec UInt8) (d p : Nat) (dec : FecDecoder) : Prop where
  sane : dec.Sane
  dataShards : dec.dataShards = d
  shardSize : dec.shardSize = d + p
  codec : dec.codec = codec

/-- `q` is a packet of the block `blk` of payloads. -/
structure FromBlock (codec : Codec UInt8) (d p : Nat) (blk : List Bytes) (q : FecPacket) :
    Prop where
  flag : q.flag = flagOf d (q.seqid.toNat % (d + p))
  shard : blockShard codec d blk (q.seqid.toNat % (d + p)) = some q.data.data

/-- The payloads of `blk` whose flag is not set. -/
def lost (d : Nat) (shardsflag : List Bool) (blk : List Bytes) : List Bytes :=
  (List.range d).filterMap fun k => if shardsflag[k]?.getD false then none else blk[k]?

theorem length_lost_le (d : Nat) (shardsflag : List Bool) (blk : List Bytes) :
    (lost d shardsflag blk).length ≤ d := by
  have := List.length_filterMap_le
    (fun k => if shardsflag[k]?.getD false then none else blk[k]?) (List.range d)
  rwa [List.length_range] at this

theorem mem_lost {d : Nat} {shardsflag : List Bool} {blk : List Bytes} {b : Bytes} :
    b ∈ lost d shardsflag blk ↔
      ∃ k < d, shardsflag[k]?.getD false = false ∧ blk[k]? = some b := by
  simp only [lost, List.mem_filterMap, List.mem_range]
  refine exists_congr fun k => and_congr_right fun _ => ?_
  split <;> simp_all

theorem lost_eq_nil {d : Nat} {shardsflag : List Bool}
    (h : ∀ k < d, shardsflag[k]?.getD false = true) (blk : List Bytes) :
    lost d shardsflag blk = [] :=
  List.filterMap_eq_nil_iff.2 fun k hk => if_pos (h k (List.mem_range.1 hk))

theorem missing_eq_nil {d : Nat} {shardsflag : List Bool}
    (h : ∀ k < d, shardsflag[k]?.getD false = true) (out : List (Option Bytes)) :
    missing shardsflag out (List.range d) = [] :=
  List.filterMap_eq_nil_iff.2 fun k hk => if_pos (h k (List.mem_range.1 hk))

section
variable {codec : Codec UInt8} {d p : Nat} {dec : FecDecoder} {seqid : UInt32} {i : Nat}
  {rx ts : List FecPacket} {a : Assembly} {blk : List Bytes}

theorem DecAt.toNat_mod (hdec : DecAt codec d p dec) (s : UInt32) :
    (s % UInt32.ofNat dec.shardSize).toNat = s.toNat % (d + p) := by
  rw [UInt32.toNat_mod, hdec.sane.toNat_shardSize, hdec.shardSize]

theorem blockShard_length (hlaw : codec.Lawful d p) (h0 : 0 < d) {j : Nat} {s : Bytes}
    (h : blockShard codec d blk j = some s) :
    2 ≤ s.length ∧ s.length ≤ blockLen blk ∧ (d ≤ j → s.length = blockLen blk) := by
  unfold blockShard at h
  split at h
  · obtain ⟨b, hb, rfl⟩ := Option.map_eq_some_iff.1 h
    have := length_le_blockLen (List.mem_of_getElem? hb)
    rw [length_sized]
    omega
  · split at h
    · rename_i hj hlen
      obtain ⟨b, hb⟩ := List.exists_mem_of_length_pos (by omega : 0 < blk.length)
      have hle := length_le_blockLen hb
      obtain ⟨parity, hcw⟩ := hlaw.encode_ok ((length_paddedData blk).trans hlen)
        (show 0 < blockLen blk by omega) fun s hs => size_paddedData hs
      rw [hcw.encode, Option.bind_some] at h
      have := hcw.parity_size s (List.mem_of_getElem? h)
      omega
    · cases h

theorem getElem?_padded (k : Nat) :
    a.padded[k]? = (a.shards[k]?).map (Option.map fun s => padTo a.maxlen s.data) := by
  rw [Assembly.padded, List.getElem?_map]

/-- A gathered shard is the one of the block at its position. -/
theorem blockShard_of_padded (hdec : DecAt codec d p dec) (hG : Gathered dec seqid i rx ts a)
    (hts : ∀ q ∈ ts, FromBlock codec d p blk q) {k : Nat} {s : Bytes}
    (h : a.padded[k]? = some (some s)) :
    ∃ t, s = padTo a.maxlen t ∧ t.length ≤ a.maxlen ∧ blockShard codec d blk k = some t := by
  rw [getElem?_padded] at h
  obtain ⟨o, ho, hs⟩ := Option.map_eq_some_iff.1 h
  obtain ⟨t, rfl, rfl⟩ := Option.map_eq_some_iff.1 hs
  obtain ⟨q, hq, hk, rfl⟩ := hG.asm.of_shard k t ho
  rw [hdec.toNat_mod] at hk
  refine ⟨q.data.data, rfl, ?_, hk ▸ (hts q hq).shard⟩
  rw [Slice.length_data]
  exact hG.asm.le_maxlen q hq

/-- A shard of a full block, padded, is the one of its codeword. -/
theorem codeword_shard (hlaw : codec.Lawful d p) (h0 : 0 < d) (hlen : blk.length = d)
    {parity : List Bytes} (hcw : codec.Codeword d p (blockLen blk) (paddedData blk) parity)
    {k : Nat} {t : Bytes} (ht : blockShard codec d blk k = some t) :
    (paddedData blk ++ parity)[k]? = some (padTo (blockLen blk) t) := by
  have hbl := blockShard_length hlaw h0 ht
  unfold blockShard at ht
  split at ht
  · rename_i hkd
    obtain ⟨b, hb, rfl⟩ := Option.map_eq_some_iff.1 ht
    rw [List.getElem?_append_left (by rw [length_paddedData]; omega), paddedData,
      List.getElem?_map, hb]
    rfl
  · rename_i hkd
    rw [hcw.encode, Option.bind_some] at ht
    have hpl := hbl.2.2 (by omega)
    rw [← hpl, padTo_length, List.getElem?_append_right (by rw [length_paddedData]; omega),
      length_paddedData, hlen, ht]

/-- **The gathered shards are a part of the block's codeword**, if a parity shard is there. -/
theorem part_padded (hlaw : codec.Lawful d p) (h0 : 0 < d) (hdec : DecAt codec d p dec)
    (hG : Gathered dec seqid i rx ts a) (hblk : blk.length ≤ d)
    (hts : ∀ q ∈ ts, FromBlock codec d p blk q) {j : Nat} {s : Bytes} (hj : d ≤ j)
    (hs : a.padded[j]? = some (some s)) :
    ∃ parity, codec.Codeword d p (blockLen blk) (paddedData blk) parity ∧
      a.maxlen = blockLen blk ∧ 0 < blockLen blk ∧ blk.length = d ∧
      Part (paddedData blk ++ parity) a.padded := by
  obtain ⟨t, -, htl, ht⟩ := blockShard_of_padded hdec hG hts hs
  obtain ⟨h2, -, hfull⟩ := blockShard_length hlaw h0 ht
  have hlen := length_of_blockShard hblk ht (by omega)
  have hmax : a.maxlen = blockLen blk := by
    have := hfull hj
    rcases hG.asm.maxlen with h | ⟨q, hq, h⟩
    · omega
    · have := (blockShard_length hlaw h0 (hts q hq).shard).2.1
      rw [Slice.length_data] at this
      omega
  obtain ⟨parity, hcw⟩ := hlaw.encode_ok ((length_paddedData blk).trans hlen)
    (show 0 < blockLen blk by rw [← hfull hj]; omega) fun s hs => size_paddedData hs
  refine ⟨parity, hcw, hmax, by rw [← hfull hj]; omega, hlen, ?_, ?_⟩
  · rw [hcw.length, Assembly.padded, List.length_map, hG.asm.shards_length, hdec.shardSize]
  · intro k s hk
    obtain ⟨t, rfl, -, ht⟩ := blockShard_of_padded hdec hG hts hk
    rw [hmax]
    exact codeword_shard hlaw h0 hlen hcw ht

theorem padded_none_of_flag (hdec : DecAt codec d p dec) (hG : Gathered dec seqid i rx ts a)
    {k : Nat} (hk : k < d) (hf : a.shardsflag[k]?.getD false = false) (s : Bytes) :
    a.padded[k]? ≠ some (some s) := by
  intro h
  rw [getElem?_padded] at h
  obtain ⟨o, ho, hs⟩ := Option.map_eq_some_iff.1 h
  obtain ⟨t, rfl, -⟩ := Option.map_eq_some_iff.1 hs
  rw [hG.asm.flag k (by rw [hdec.shardSize]; omega), ho] at hf
  cases hf

/-- **Recovery**: `d` shards of a block give its missing payloads. -/
theorem recovered_eq (hlaw : codec.Lawful d p) (h0 : 0 < d) (hdec : DecAt codec d p dec)
    (hG : Gathered dec seqid i rx ts a) (hblk : blk.length ≤ d)
    (hts : ∀ q ∈ ts, FromBlock codec d p blk q) (hd : d ≤ present a.padded) :
    dec.recovered a =
      (lost d a.shardsflag blk).map fun b => padTo (blockLen blk) (sized b) := by
  unfold FecDecoder.recovered
  rw [hdec.dataShards, hdec.codec]
  by_cases hall : ∀ k < d, a.shardsflag[k]?.getD false = true
  · rw [lost_eq_nil hall]
    split
    · exact missing_eq_nil hall _
    · rfl
  · push Not at hall
    obtain ⟨k, hk, hf⟩ := hall
    obtain ⟨j, s, hj, hs⟩ := exists_parity hd hk
      (padded_none_of_flag hdec hG hk (by simpa using hf))
    obtain ⟨parity, hcw, -, hpos, hlen, hpart⟩ := part_padded hlaw h0 hdec hG hblk hts hj hs
    obtain ⟨out, hout, hget⟩ := hlaw.reconstruct_ok hpos hcw hpart hd
    rw [hout]
    dsimp only
    rw [missing, lost, List.map_filterMap]
    refine List.filterMap_congr fun k hk => ?_
    have hk := List.mem_range.1 hk
    have hlt : k < blk.length := by omega
    rw [hget k hk, paddedData, List.getElem?_map, List.getElem?_eq_getElem hlt]
    split <;> rfl

/-- Fewer shards than the codec needs: it reports an error. -/
theorem recovered_few (hlaw : codec.Lawful d p) (h0 : 0 < d) (hdec : DecAt codec d p dec)
    (hG : Gathered dec seqid i rx ts a) (hts : ∀ q ∈ ts, FromBlock codec d p blk q)
    (hd : present a.padded < d) : dec.recovered a = [] := by
  have hlen : a.padded.length = d + p := by
    rw [Assembly.padded, List.length_map, hG.asm.shards_length, hdec.shardSize]
  have hsize : ∀ s, some s ∈ a.padded → s.length = a.maxlen ∧ 2 ≤ a.maxlen := by
    intro s hs
    obtain ⟨k, hk⟩ := List.mem_iff_getElem?.1 hs
    obtain ⟨t, rfl, hle, ht⟩ := blockShard_of_padded hdec hG hts hk
    have := (blockShard_length hlaw h0 ht).1
    exact ⟨length_padTo hle, by omega⟩
  have hnone : codec.reconstructData a.padded = none := by
    by_cases hex : ∃ s, some s ∈ a.padded
    · obtain ⟨s, hs⟩ := hex
      exact hlaw.reconstruct_few (n := a.maxlen) (by have := (hsize s hs).2; omega) hlen
        (fun s hs => (hsize s hs).1) hd
    · exact hlaw.reconstruct_few (n := 1) Nat.one_pos hlen
        (fun s hs => absurd ⟨s, hs⟩ hex) hd
  rw [FecDecoder.recovered, hdec.codec, hnone]

/-- The payloads of the block that a call restores from the gathered shards `a`. -/
def restored (d : Nat) (a : Assembly) (blk : List Bytes) : List Bytes :=
  if a.numDataShard = d then []
  else if d ≤ a.numshard ∧ d ≤ present a.padded then lost d a.shardsflag blk
  else []

theorem length_restored_le (d : Nat) (a : Assembly) (blk : List Bytes) :
    (restored d a blk).length ≤ d := by
  unfold restored
  split
  · exact Nat.zero_le _
  · split
    · exact length_lost_le _ _ _
    · exact Nat.zero_le _

theorem mem_of_mem_restored {b : Bytes} (h : b ∈ restored d a blk) : b ∈ blk := by
  unfold restored at h
  split at h
  · cases h
  · split at h
    · obtain ⟨k, -, -, hk⟩ := mem_lost.1 h
      exact List.mem_of_getElem? hk
    · cases h

theorem outcome_block (hlaw : codec.Lawful d p) (h0 : 0 < d) (hdec : DecAt codec d p dec)
    (hG : Gathered dec seqid i rx ts a) (hblk : blk.length ≤ d)
    (hts : ∀ q ∈ ts, FromBlock codec d p blk q) :
    (dec.outcome a rx).1 = (restored d a blk).map fun b => padTo (blockLen blk) (sized b) := by
  unfold FecDecoder.outcome restored
  rw [hdec.dataShards]
  by_cases h1 : a.numDataShard = d
  · rw [if_pos h1, if_pos h1]
    rfl
  rw [if_neg h1, if_neg h1]
  by_cases h2 : d ≤ a.numshard
  · rw [if_pos h2]
    by_cases h3 : d ≤ present a.padded
    · rw [if_pos ⟨h2, h3⟩]
      exact recovered_eq hlaw h0 hdec hG hblk hts h3
    · rw [if_neg (fun h => h3 h.2)]
      exact recovered_few hlaw h0 hdec hG hts (by omega)
  · rw [if_neg h2, if_neg (fun h => h2 h.1)]
    rfl

end

/-! ## The whole layer -/

/-- A `Fec` whose decoder is for `d` data and `p` parity shards. -/
structure FecAt (codec : Codec UInt8) (d p : Nat) (fec : Fec) : Prop where
  dec : DecAt codec d p fec.decoder
  cap : fec.dataChCap = d + p

/-- Recovered shards are put on `dataCh` without their size and what follows the payload; shards of
empty payloads only are skipped. -/
theorem pushRecovered_sized {m : Nat} {rs bs : List Bytes}
    (h : List.Forall₂ (fun r b => r.length = m ∧ sized b <+: r) rs bs) : ∀ (fec : Fec),
    (∀ b ∈ bs, b.length ≤ maxPayload) → fec.dataCh.length + bs.length ≤ fec.dataChCap →
    Fec.pushRecovered rs fec =
      .ok { fec with dataCh := fec.dataCh ++ if m ≤ 2 then [] else bs } := by
  induction h with
  | nil =>
    intro fec _ _
    simp [Fec.pushRecovered]
  | @cons r b rs bs hr _ ih =>
    intro fec hb hcap
    obtain ⟨hlen, rest, rfl⟩ := hr
    have hbmax := hb b (by simp)
    have hbs : ∀ b ∈ bs, b.length ≤ maxPayload := fun b' hb' => hb b' (by simp [hb'])
    have hbm : b.length + 2 ≤ m := by
      rw [List.length_append, length_sized] at hlen
      omega
    rw [List.length_cons] at hcap
    rw [Fec.pushRecovered, hlen]
    by_cases hm : m ≤ 2
    · rw [if_pos hm, if_pos hm, ih fec hbs (by omega), if_pos hm]
    · have hsz : (UInt16.ofNat (b.length + 2)).toNat = b.length + 2 := by
        unfold maxPayload fecHeaderSizePlus2 fecHeaderSize mtuLimit at hbmax
        rw [UInt16.toNat_ofNat']
        omega
      have hok : ¬ (UInt16.ofNat (b.length + 2) < 2 ∨ (UInt16.ofNat (b.length + 2)).toNat > m) := by
        rw [UInt16.lt_iff_toNat_lt, hsz]
        show ¬ (b.length + 2 < 2 ∨ b.length + 2 > m)
        omega
      rw [if_neg hm, if_neg hm, leUint16_sized, ok_bind, if_neg hok, hsz,
        sliceRange_ok (by omega) (by rw [hlen]; exact hbm), ok_bind, sized_payload,
        if_pos (by omega), ih _ hbs (by
          show (fec.dataCh ++ [b]).length + bs.length ≤ fec.dataChCap
          rw [List.length_append, List.length_singleton]
          omega), if_neg hm]
      simp

theorem forall₂_padTo {m : Nat} : ∀ {bs : List Bytes}, (∀ b ∈ bs, b.length + 2 ≤ m) →
    List.Forall₂ (fun r b => r.length = m ∧ sized b <+: r)
      (bs.map fun b => padTo m (sized b)) bs
  | [], _ => .nil
  | b :: bs, h =>
    .cons ⟨length_padTo (by rw [length_sized]; exact h b (by simp)), List.prefix_append _ _⟩
      (forall₂_padTo fun b' hb' => h b' (by simp [hb']))

theorem DecAt.after {codec : Codec UInt8} {d p : Nat} {dec : FecDecoder}
    (h : DecAt codec d p dec) {i : Nat} {pkt : FecPacket} (hp : pkt.data.cap = mtuLimit)
    (a : Assembly) : DecAt codec d p (dec.after a (insertAt dec.rx i pkt)) :=
  { h with sane := Sane.after h.sane hp a }

theorem decodeFecPacket_block {codec : Codec UInt8} {d p : Nat} {blk : List Bytes} {seqid : UInt32}
    {shard : Bytes} (hlaw : codec.Lawful d p) (h0 : 0 < d)
    (hpay : ∀ b ∈ blk, b.length ≤ maxPayload)
    (hshard : blockShard codec d blk (seqid.toNat % (d + p)) = some shard) (buf : PoolBuf) :
    ∃ pkt, decodeFecPacket (packet seqid (flagOf d (seqid.toNat % (d + p))) shard) buf = .ok pkt ∧
      pkt.seqid = seqid ∧ pkt.data.cap = mtuLimit ∧ FromBlock codec d p blk pkt := by
  have hle : shard.length ≤ mtuLimit := by
    have h1 := (blockShard_length hlaw h0 hshard).2.1
    have h2 : blockLen blk ≤ mtuLimit := blockLen_le fun b hb => by
      have := hpay b hb
      unfold maxPayload fecHeaderSizePlus2 fecHeaderSize mtuLimit at *
      omega
    omega
  obtain ⟨pkt, hpkt, hseq, hflag, hdata, hcap⟩ := decodeFecPacket_ok buf hle
  exact ⟨pkt, hpkt, hseq, hcap, by rw [hflag, hseq], by rw [hseq, hdata, hshard]⟩

theorem packet_take (seqid : UInt32) (flag : UInt16) (shard : Bytes) (m : Nat) :
    (packet seqid flag shard).take (m + fecHeaderSizePlus2) =
      packet seqid flag (shard.take (m + 2)) := by
  have hlen : (leBytes32 seqid ++ leBytes16 flag).length = fecHeaderSize := rfl
  rw [packet, packet, List.take_append, hlen, List.take_of_length_le (by
    rw [hlen, fecHeaderSizePlus2]; omega),
    show m + fecHeaderSizePlus2 - fecHeaderSize = m + 2 from rfl]

theorem sized_take (b : Bytes) (m : Nat) :
    (sized b).take (m + 2) = leBytes16 (UInt16.ofNat (b.length + 2)) ++ b.take m := by
  rw [sized, List.take_append, length_leBytes16,
    List.take_of_length_le (by rw [length_leBytes16]; omega), Nat.add_sub_cancel]

/-- The payload of a packet that was cut to a buffer with room for `m` bytes of it. -/
theorem packetPayload_cut {codec : Codec UInt8} {d j : Nat} {blk : List Bytes} {shard : Bytes}
    {pkt : FecPacket} (hflag : pkt.flag = flagOf d j)
    (hshard : blockShard codec d blk j = some shard) (seqid : UInt32) (m : Nat) :
    packetPayload pkt (packet seqid (flagOf d j) (shard.take (m + 2))) =
      .ok ((if j < d then blk[j]? else none).map (List.take m)) := by
  rw [packetPayload, hflag]
  by_cases hj : j < d
  · rw [blockShard, if_pos hj] at hshard
    obtain ⟨b, hb, rfl⟩ := Option.map_eq_some_iff.1 hshard
    have hlen : (leBytes32 seqid ++ leBytes16 typeData
        ++ leBytes16 (UInt16.ofNat (b.length + 2))).length = fecHeaderSizePlus2 := rfl
    rw [flagOf, if_pos hj, if_pos rfl, if_pos hj, hb, packet, sized_take, ← List.append_assoc,
      sliceFrom_ok (by rw [List.length_append, hlen]; omega), List.drop_left' hlen]
    rfl
  · rw [flagOf, if_neg hj, if_neg (by decide), if_neg (by decide), if_neg hj]
    rfl

theorem packetPayload_block {codec : Codec UInt8} {d j : Nat} {blk : List Bytes} {shard : Bytes}
    {pkt : FecPacket} (hflag : pkt.flag = flagOf d j)
    (hshard : blockShard codec d blk j = some shard) (seqid : UInt32) :
    packetPayload pkt (packet seqid (flagOf d j) shard) =
      .ok (if j < d then blk[j]? else none) := by
  have hcut := packetPayload_cut hflag hshard seqid shard.length
  rw [List.take_of_length_le (by omega)] at hcut
  rw [hcut]
  by_cases hj : j < d
  · rw [blockShard, if_pos hj] at hshard
    obtain ⟨b, hb, rfl⟩ := Option.map_eq_some_iff.1 hshard
    rw [if_pos hj, hb, Option.map_some, List.take_of_length_le (by rw [length_sized]; omega)]
  · rw [if_neg hj]
    rfl

/-! ## Decoding a packet -/

/-- The payload of the packet is returned, what the decoder recovers goes to `dataCh`. -/
theorem fecDecode_eq {fec : Fec} {a : Arrival} {pkt : FecPacket} {data : Option Bytes}
    {recovered : List Bytes} {decoder : FecDecoder} (hpkt : decodeFecPacket a.data a.buf = .ok pkt)
    (hdata : packetPayload pkt a.data = .ok data)
    (hdec : fec.decoder.decode pkt = .ok (recovered, decoder)) :
    fec.decode a = (Fec.pushRecovered recovered { fec with decoder }).bind fun fec' =>
      .ok (data, fec') := by
  rw [Fec.decode, hpkt, ok_bind, hdata, ok_bind, hdec, ok_bind]
  rfl

/-- The packet `pkt` of the block `blk` was inserted at `i`: the packets `ts` of the block were
gathered, and the payloads restored from them wait in `dataCh`. -/
structure Inserted (d : Nat) (blk : List Bytes) (fec fec' : Fec) (pkt : FecPacket) (i : Nat)
    (ts : List FecPacket) (asm : Assembly) : Prop where
  scan : ScanAt fec.decoder.rx pkt.seqid i
  gathered : Gathered fec.decoder pkt.seqid i (insertAt fec.decoder.rx i pkt) ts asm
  decoder : fec'.decoder = fec.decoder.after asm (insertAt fec.decoder.rx i pkt)
  dataCh : fec'.dataCh = if blockLen blk ≤ 2 then [] else restored d asm blk

/-- What decoding `pkt` did: nothing, if its sequence id is in the queue; otherwise it was
inserted. -/
def Decoded (d : Nat) (blk : List Bytes) (fec fec' : Fec) (pkt : FecPacket) : Prop :=
  (∃ q ∈ fec.decoder.rx, q.seqid = pkt.seqid) ∧ fec' = fec ∨
    ∃ i ts asm, Inserted d blk fec fec' pkt i ts asm

section
variable {d : Nat} {blk : List Bytes} {fec fec' : Fec} {pkt : FecPacket} {i : Nat}
  {ts : List FecPacket} {asm : Assembly}

theorem Inserted.rx_sublist (h : Inserted d blk fec fec' pkt i ts asm) :
    fec'.decoder.rx.Sublist (insertAt fec.decoder.rx i pkt) := by
  rw [h.decoder]
  exact (limited_sublist _ _).trans (outcome_sublist _ _ _)

theorem Inserted.mem_dataCh (h : Inserted d blk fec fec' pkt i ts asm) {b : Bytes}
    (hb : b ∈ fec'.dataCh) : b ∈ blk := by
  rw [h.dataCh] at hb
  split at hb
  · cases hb
  · exact mem_of_mem_restored hb

theorem Decoded.rxlimit (h : Decoded d blk fec fec' pkt) :
    fec'.decoder.rxlimit = fec.decoder.rxlimit := by
  rcases h with ⟨-, rfl⟩ | ⟨i, ts, asm, h⟩
  · rfl
  · rw [h.decoder]
    rfl

theorem Decoded.mem_rx (h : Decoded d blk fec fec' pkt) {q : FecPacket}
    (hq : q ∈ fec'.decoder.rx) : q = pkt ∨ q ∈ fec.decoder.rx := by
  rcases h with ⟨-, rfl⟩ | ⟨i, ts, asm, h⟩
  · exact .inr hq
  · exact mem_insertAt.1 (h.rx_sublist.mem hq)

theorem Decoded.mem_dataCh (h : Decoded d blk fec fec' pkt) (hch : fec.dataCh = []) {b : Bytes}
    (hb : b ∈ fec'.dataCh) : b ∈ blk := by
  rcases h with ⟨-, rfl⟩ | ⟨i, ts, asm, h⟩
  · rw [hch] at hb
    cases hb
  · exact h.mem_dataCh hb

theorem Decoded.length_dataCh (h : Decoded d blk fec fec' pkt) (hch : fec.dataCh = []) :
    fec'.dataCh.length ≤ d := by
  rcases h with ⟨-, rfl⟩ | ⟨i, ts, asm, h⟩
  · rw [hch]
    exact Nat.zero_le _
  · rw [h.dataCh]
    split
    · exact Nat.zero_le _
    · exact length_restored_le _ _ _

end

/-- The gathered packets are of the block, if the queue holds no others in the block's range. -/
theorem Gathered.fromBlock {codec : Codec UInt8} {d p i : Nat} {blk : List Bytes} {dec : FecDecoder}
    {pkt : FecPacket} {ts : List FecPacket} {asm : Assembly} (hdec : DecAt codec d p dec)
    (hG : Gathered dec pkt.seqid i (insertAt dec.rx i pkt) ts asm)
    (hpkt : FromBlock codec d p blk pkt)
    (hrx : ∀ q ∈ dec.rx, InBlock (UInt32.ofNat (d + p)) pkt.seqid q.seqid →
      FromBlock codec d p blk q) : ∀ q ∈ ts, FromBlock codec d p blk q := by
  intro q hq
  obtain ⟨hmem, hin⟩ := hG.mem hq
  rw [hdec.shardSize] at hin
  rcases mem_insertAt.1 hmem with rfl | hmem
  · exact hpkt
  · exact hrx q hmem hin

/-- **Decoding a packet of a block**, when the queue holds no other packets in the packet's block
range. -/
theorem fecDecode_block {codec : Codec UInt8} {d p : Nat} {blk : List Bytes} {fec : Fec}
    {a : Arrival} {seqid : UInt32} {shard : Bytes} (hlaw : codec.Lawful d p) (h0 : 0 < d)
    (hf : FecAt codec d p fec) (hch : fec.dataCh = []) (hblk : blk.length ≤ d)
    (hpay : ∀ b ∈ blk, b.length ≤ maxPayload)
    (ha : a.data = packet seqid (flagOf d (seqid.toNat % (d + p))) shard)
    (hshard : blockShard codec d blk (seqid.toNat % (d + p)) = some shard)
    (hrx : ∀ q ∈ fec.decoder.rx, InBlock (UInt32.ofNat (d + p)) seqid q.seqid →
      FromBlock codec d p blk q) :
    ∃ pkt fec', decodeFecPacket a.data a.buf = .ok pkt ∧ pkt.seqid = seqid ∧
      pkt.data.cap = mtuLimit ∧ FromBlock codec d p blk pkt ∧
      fec.decode a =
        .ok (if seqid.toNat % (d + p) < d then blk[seqid.toNat % (d + p)]? else none, fec') ∧
      FecAt codec d p fec' ∧ Decoded d blk fec fec' pkt := by
  obtain ⟨pkt, hpkt, rfl, hcap, hfrom⟩ := decodeFecPacket_block hlaw h0 hpay hshard a.buf
  rw [← ha] at hpkt
  have hdata := packetPayload_block hfrom.flag hshard pkt.seqid
  rw [← ha] at hdata
  rcases decode_cases hf.dec.sane hcap with ⟨hdup, hd⟩ | ⟨i, ts, asm, hsc, hG, hd⟩
  · refine ⟨pkt, fec, hpkt, rfl, hcap, hfrom, ?_, hf, .inl ⟨hdup, rfl⟩⟩
    rw [fecDecode_eq hpkt hdata hd]
    rfl
  · have hpush := pushRecovered_sized
      (forall₂_padTo fun b hb => length_le_blockLen (mem_of_mem_restored (d := d) (a := asm) hb))
      { fec with decoder := fec.decoder.after asm (insertAt fec.decoder.rx i pkt) }
      (fun b hb => hpay b (mem_of_mem_restored hb))
      (by
        have := length_restored_le d asm blk
        show fec.dataCh.length + _ ≤ fec.dataChCap
        rw [hch, hf.cap, List.length_nil]
        omega)
    refine ⟨pkt,
      { fec with
        decoder := fec.decoder.after asm (insertAt fec.decoder.rx i pkt)
        dataCh := fec.dataCh ++ if blockLen blk ≤ 2 then [] else restored d asm blk },
      hpkt, rfl, hcap, hfrom, ?_, ⟨hf.dec.after hcap asm, hf.cap⟩,
      .inr ⟨i, ts, asm, hsc, hG, rfl, by rw [hch]; rfl⟩⟩
    rw [fecDecode_eq hpkt hdata hd,
      outcome_block hlaw h0 hf.dec hG hblk (hG.fromBlock hf.dec hfrom hrx), hpush]
    rfl

end Faketcp
